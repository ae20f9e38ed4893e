import Juxta.Grammar.Answer
import Juxta.Proofs.Canonical
import Juxta.Proofs.Interning

/-!
# Places are made of tokens

The places of nodes are those of tokens, or are joined from such places. So each begins where a
token begins and ends where one ends, and these tokens have been taken: a rule that passes a token
on records nothing of it.

* `Coord.Aligned`, `Store.Aligned` : places that begin and end as some tokens do;
* `Build.Aligns` : a step that records only such places, with a condition on its result; one lemma
  `aligns_…` for every step;
* `Rule.Placed` : the same for what a rule remembers, with a bound on its operands;
* `Rule.Traces` : the same for answers, with the token as well if it is taken; one lemma
  `traces_…` for every rule that records places, and `Rule.traces_answer` for all rules.
-/

namespace Juxta

/-! ## Places -/

theorem Position.earlier_eq_or (a b : Position) : a.earlier b = a ∨ a.earlier b = b := by
  unfold earlier
  split
  · exact .inl rfl
  · exact .inr rfl

theorem Position.later_eq_or (a b : Position) : a.later b = a ∨ a.later b = b := by
  unfold later
  split
  · exact .inr rfl
  · exact .inl rfl

namespace Coord

/-- A place that begins where one of some tokens does, and ends where one of them does. -/
structure Aligned (tokens : List Token) (coord : Coord) : Prop where
  start : ∃ token ∈ tokens, coord.start = token.location.coord.start
  stop : ∃ token ∈ tokens, coord.stop = token.location.coord.stop

variable {token : Token} {tokens : List Token} {a b : Coord}

theorem Aligned.cons (h : a.Aligned tokens) (token : Token) : a.Aligned (token :: tokens) := by
  obtain ⟨⟨first, hfirst, hstart⟩, last, hlast, hstop⟩ := h
  exact ⟨⟨first, List.mem_cons_of_mem _ hfirst, hstart⟩, last, List.mem_cons_of_mem _ hlast, hstop⟩

theorem aligned_token (token : Token) (tokens : List Token) :
    token.location.coord.Aligned (token :: tokens) :=
  ⟨⟨token, List.mem_cons_self, rfl⟩, token, List.mem_cons_self, rfl⟩

theorem Aligned.upTo (h : a.Aligned tokens) (k : b.Aligned tokens) : (a.upTo b).Aligned tokens :=
  ⟨h.start, k.stop⟩

theorem Aligned.join (h : a.Aligned tokens) (k : b.Aligned tokens) : (a.join b).Aligned tokens := by
  constructor
  · show ∃ token ∈ tokens, a.start.earlier b.start = _
    rcases a.start.earlier_eq_or b.start with he | he <;> rw [he]
    · exact h.start
    · exact k.start
  · show ∃ token ∈ tokens, a.stop.later b.stop = _
    rcases a.stop.later_eq_or b.stop with he | he <;> rw [he]
    · exact h.stop
    · exact k.stop

/-- From a place to a token. -/
theorem Aligned.toToken (h : a.Aligned tokens) (token : Token) :
    (a.upTo token.location.coord).Aligned (token :: tokens) :=
  (h.cons token).upTo (aligned_token token tokens)

end Coord

namespace Store

variable {s : Store} {tokens : List Token}

/-- A place that is recorded after interning was there before, or is that of the node. -/
theorem coord?_intern {node : Node} {coord : Option Coord} {id : NodeId} {place : Coord}
    (h : (s.intern node coord).2.coord? id = some place) :
    s.coord? id = some place ∨ s.node? id = none ∧ coord = some place := by
  unfold intern at h
  split at h
  · exact .inl h
  · by_cases hnode : s.node? id = none
    · refine .inr ⟨hnode, ?_⟩
      unfold coord? entry? push at h
      unfold node? entry? at hnode
      dsimp only at h hnode
      split at h
      · cases h
      · rename_i hpos
        rw [if_neg hpos, Option.map_eq_none_iff] at hnode
        rw [Array.getElem?_push] at h
        split at h
        · exact h
        · rw [hnode] at h
          cases h
    · rw [(s.extends_push node coord (by assumption) id hnode).2] at h
      exact .inl h

/-- All places are aligned with tokens. -/
def Aligned (tokens : List Token) (s : Store) : Prop :=
  ∀ id place, s.coord? id = some place → place.Aligned tokens

theorem Aligned.cons (h : s.Aligned tokens) (token : Token) : s.Aligned (token :: tokens) :=
  fun id place hplace => (h id place hplace).cons token

theorem aligned_empty (tokens : List Token) : empty.Aligned tokens := by
  simp [Aligned, coord?, entry?, empty]

theorem Aligned.intern (h : s.Aligned tokens) (node : Node) {coord : Option Coord}
    (hc : ∀ place ∈ coord, place.Aligned tokens) : (s.intern node coord).2.Aligned tokens := by
  intro id place hplace
  rcases coord?_intern hplace with hold | ⟨-, hnew⟩
  · exact h id place hold
  · exact hc place hnew

theorem settles_aligned (tokens : List Token) : Settles (Aligned tokens) := by
  intro s node coord hs hc
  refine hs.intern node fun place hplace => ?_
  obtain ⟨origin, horigin⟩ := hc place hplace
  exact hs origin place horigin

/-- The place that covers those of some nodes. -/
theorem Aligned.joinedCoord? (h : s.Aligned tokens) (ids : List NodeId) :
    ∀ place ∈ s.joinedCoord? ids, place.Aligned tokens := by
  have hall : ∀ place ∈ ids.filterMap s.coord?, place.Aligned tokens := by
    intro place hplace
    obtain ⟨id, -, hid⟩ := List.mem_filterMap.1 hplace
    exact h id place hid
  unfold Store.joinedCoord?
  intro place hplace
  split at hplace
  · cases hplace
  · rename_i first rest hplaces
    cases hplace
    rw [hplaces] at hall
    obtain ⟨hfirst, hrest⟩ := List.forall_mem_cons.1 hall
    clear hplaces hall
    induction rest generalizing first with
    | nil => exact hfirst
    | cons next rest ih =>
      obtain ⟨hnext, hrest⟩ := List.forall_mem_cons.1 hrest
      exact ih _ (hfirst.join hnext) hrest

end Store

/-! ## Steps -/

namespace Build

variable {α β : Type} {tokens : List Token}

/-- A step that records only places that are aligned with tokens, with a condition on its
result. -/
def Aligns (tokens : List Token) (step : Build α) (post : α → Prop) : Prop :=
  ∀ b : Builder, b.store.Aligned tokens →
    (step.run b).2.store.Aligned tokens ∧ post (step.run b).1

theorem Aligns.bind {step : Build α} {next : α → Build β} {P : α → Prop} {Q : β → Prop}
    (h : Aligns tokens step P) (k : ∀ a, P a → Aligns tokens (next a) Q) :
    Aligns tokens (step >>= next) Q := by
  intro b hb
  obtain ⟨hmid, hP⟩ := h b hb
  exact k _ hP _ hmid

theorem aligns_pure {a : α} {post : α → Prop} (h : post a) : Aligns tokens (pure a) post :=
  fun _ hb => ⟨hb, h⟩

/-- A step that leaves the store as it is. -/
theorem aligns_of_store {step : Build α} (h : ∀ b, (step.run b).2.store = b.store) :
    Aligns tokens step fun _ => True := by
  intro b hb
  rw [h b]
  exact ⟨hb, trivial⟩

theorem aligns_get : Aligns tokens get fun b => b.store.Aligned tokens := fun _ hb => ⟨hb, hb⟩

theorem aligns_modify {f : Builder → Builder} (h : ∀ b, (f b).store = b.store) :
    Aligns tokens (modify f : Build Unit) fun _ => True := aligns_of_store h

theorem aligns_height : Aligns tokens height fun _ => True := aligns_of_store fun _ => rfl

theorem aligns_push (id : NodeId) : Aligns tokens (push id) fun _ => True :=
  aligns_of_store fun _ => rfl

theorem aligns_pop : Aligns tokens pop fun _ => True := aligns_of_store fun b => by
  unfold pop
  rw [StateT.run_modifyGet]
  split <;> rfl

theorem aligns_split (base : Nat) : Aligns tokens (split base) fun _ => True :=
  aligns_of_store fun _ => rfl

theorem aligns_enter (name : String) : Aligns tokens (enter name) fun _ => True :=
  aligns_of_store fun b => by
    unfold enter
    rw [StateT.run_modifyGet]
    split <;> rfl

theorem aligns_exit : Aligns tokens exit fun _ => True := aligns_of_store fun _ => rfl

theorem aligns_addWord (word : Word) : Aligns tokens (addWord word) fun _ => True :=
  aligns_of_store fun _ => rfl

theorem aligns_report (error : SyntaxError) : Aligns tokens (report error) fun _ => True :=
  aligns_of_store fun _ => rfl

/-- What folding stores has the places of other nodes. -/
theorem aligns_foldNode (id : NodeId) : Aligns tokens (foldNode id) fun _ => True :=
  fun b hb => ⟨maintains_fold (Store.settles_aligned tokens) b.env id b.store hb, trivial⟩

theorem aligns_intern (node : Node) {coord : Option Coord}
    (hc : ∀ place ∈ coord, place.Aligned tokens) :
    Aligns tokens (intern node coord) fun _ => True :=
  fun _ hb => ⟨hb.intern node hc, trivial⟩

theorem aligns_pushNode (node : Node) {coord : Option Coord}
    (hc : ∀ place ∈ coord, place.Aligned tokens) :
    Aligns tokens (pushNode node coord) fun _ => True :=
  .bind (aligns_intern node hc) fun _ _ => aligns_push _

theorem aligns_pushLeaf (tag : Tag) (text : String) {coord : Coord} (hc : coord.Aligned tokens) :
    Aligns tokens (pushLeaf tag text coord) fun _ => True :=
  aligns_pushNode _ (by rintro _ ⟨⟩; exact hc)

/-- The place of a node is the one that is given, or is joined from those of its children. -/
theorem aligns_pushBranch (tag : Tag) (children : List NodeId) {coord : Option Coord}
    (hc : ∀ place ∈ coord, place.Aligned tokens) :
    Aligns tokens (pushBranch tag children coord) fun _ => True := by
  refine .bind aligns_get fun b hb => aligns_pushNode _ fun place hplace => ?_
  cases coord with
  | none => exact hb.joinedCoord? children place hplace
  | some coord => exact hc place hplace

theorem aligns_pushConcat (parts : List NodeId) {coord : Option Coord}
    (hc : ∀ place ∈ coord, place.Aligned tokens) :
    Aligns tokens (pushConcat parts coord) fun _ => True :=
  .bind (aligns_intern _ hc) fun _ _ => aligns_pushNode _ hc

end Build

/-! ## Rules that wait -/

namespace Rule

/-- The place that a rule remembers. -/
def start? : Rule → Option Coord
  | .clauses _ start | .ifCondition _ start | .ifBranch _ start | .elseBranch _ start
  | .negation start | .interpolation _ start | .recordKey _ start | .recordColon _ start
  | .recordValue _ start | .list _ _ start | .paren start | .lambdaParams _ start
  | .lambdaBody _ start => some start
  | _ => none

/-- How many operands a rule has read. -/
def operandCount : Rule → Nat
  | .operand waiting => waiting.length
  | .operator waiting => waiting.length + 1
  | _ => 0

/-- How many operands have begun once a token has been offered to the rule. -/
def operandsBegun : Rule → Nat
  | .operand waiting => waiting.length + 1
  | rule => rule.operandCount

/-- A rule remembers a place that is aligned with tokens, and has read so many operands at most. -/
structure Placed (tokens : List Token) (count : Nat) (rule : Rule) : Prop where
  start : ∀ place ∈ rule.start?, place.Aligned tokens
  bounded : rule.operandCount ≤ count

/-- Rules that remember such places and have read so few operands. -/
abbrev AllPlaced (tokens : List Token) (count : Nat) (rules : List Rule) : Prop :=
  ∀ rule ∈ rules, rule.Placed tokens count

variable {tokens : List Token} {count : Nat}

/-- A rule that remembers nothing and has no operands. -/
theorem placed_plain {rule : Rule} (hstart : rule.start? = none) (hnone : rule.operandCount = 0) :
    rule.Placed tokens count where
  start := by
    rw [hstart]
    nofun
  bounded := by
    rw [hnone]
    exact Nat.zero_le _

/-- A rule that remembers a place and has no operands. -/
theorem placed_at {rule : Rule} {place : Coord} (h : place.Aligned tokens)
    (hstart : rule.start? = some place) (hnone : rule.operandCount = 0) :
    rule.Placed tokens count where
  start := by
    rw [hstart]
    rintro _ ⟨⟩
    exact h
  bounded := by
    rw [hnone]
    exact Nat.zero_le _

end Rule

/-! ## Answers -/

/-- What an answer leaves is aligned with tokens, with the one that is offered as well if it is
taken. -/
def Answer.Aligned (token : Token) (tokens : List Token) (count : Nat) (s : Store) : Answer → Prop
  | .passed rules => s.Aligned tokens ∧ Rule.AllPlaced tokens count rules
  | .taken _ rules => s.Aligned (token :: tokens) ∧ Rule.AllPlaced (token :: tokens) count rules
  | .refused _ => True

/-- The token is not passed on, and the rules that follow are aligned with tokens. -/
def Answer.Takes (tokens : List Token) (count : Nat) : Answer → Prop
  | .passed _ => False
  | .taken _ rules => Rule.AllPlaced tokens count rules
  | .refused _ => True

namespace Rule

open Build

variable {α : Type} {token : Token} {tokens : List Token} {count : Nat}

/-- A step that answers and leaves all aligned. -/
def Traces (token : Token) (tokens : List Token) (count : Nat) (step : Build Answer) : Prop :=
  ∀ b : Builder, b.store.Aligned tokens →
    (step.run b).1.Aligned token tokens count (step.run b).2.store

theorem Traces.bind {step : Build α} {next : α → Build Answer} {P : α → Prop}
    (h : Aligns tokens step P) (k : ∀ a, P a → Traces token tokens count (next a)) :
    Traces token tokens count (step >>= next) := by
  intro b hb
  obtain ⟨hmid, hP⟩ := h b hb
  exact k _ hP _ hmid

/-- A step that takes the token may record its place. -/
theorem traces_taking {step : Build Answer}
    (h : Aligns (token :: tokens) step (Answer.Takes (token :: tokens) count)) :
    Traces token tokens count step := by
  intro b hb
  obtain ⟨hstore, htakes⟩ := h b (hb.cons token)
  generalize (step.run b).1 = answer at htakes
  cases answer with
  | passed rules => exact htakes.elim
  | taken as rules => exact ⟨hstore, htakes⟩
  | refused error => exact trivial

theorem traces_taken {as : TokenClass} {rules : List Rule}
    (h : AllPlaced (token :: tokens) count rules) :
    Traces token tokens count (pure (.taken as rules)) :=
  traces_taking (aligns_pure h)

theorem traces_passed {rules : List Rule} (h : AllPlaced tokens count rules) :
    Traces token tokens count (pure (.passed rules)) := fun _ hb => ⟨hb, h⟩

theorem traces_refused (error : SyntaxError) :
    Traces token tokens count (pure (.refused error)) := fun _ _ => trivial

/-- A sequence remembers no place. -/
theorem aligns_opened (next : List Token) (count : Nat) :
    Aligns tokens opened (Placed next count) :=
  .bind aligns_height fun _ _ => aligns_pure (placed_plain rfl rfl)

/-! ### Programs, sequences and definitions -/

theorem traces_programEnd : Traces token tokens count (answerProgramEnd token) := by
  unfold answerProgramEnd
  split
  · refine .bind aligns_pop fun _ _ => .bind (aligns_foldNode _) fun _ _ => ?_
    split
    · exact traces_refused _
    · refine .bind aligns_get fun b hb => ?_
      refine .bind (aligns_intern _ fun place hplace => hb _ place hplace) fun _ _ => ?_
      exact .bind (aligns_modify fun _ => rfl) fun _ _ => traces_taken (List.forall_mem_nil _)
  · exact traces_refused _

theorem aligns_closeSequence (base : Nat) :
    Aligns tokens (closeSequence base) fun _ => True :=
  .bind (aligns_split _) fun _ _ => aligns_pushBranch _ _ nofun

theorem traces_sequence (base : Nat) (stage : SequenceStage) :
    Traces token tokens count (answerSequence base stage token) := by
  unfold answerSequence
  split
  · split
    · exact traces_taken (List.forall_mem_singleton.2 (placed_plain rfl rfl))
    · exact .bind (aligns_closeSequence base) fun _ _ => traces_taken (List.forall_mem_nil _)
  · split
    · exact .bind (aligns_closeSequence base) fun _ _ => traces_passed (List.forall_mem_nil _)
    · exact traces_passed (List.forall_mem_cons.2
        ⟨placed_plain rfl rfl, List.forall_mem_singleton.2 (placed_plain rfl rfl)⟩)

theorem traces_expression : Traces token tokens count (answer token .expression) := by
  show Traces token tokens count (pure (if token.kind = .keyword .letWord
    then .taken .keyword [.letName] else .passed [.conditional]))
  split
  · exact traces_taken (List.forall_mem_singleton.2 (placed_plain rfl rfl))
  · exact traces_passed (List.forall_mem_singleton.2 (placed_plain rfl rfl))

theorem traces_letName : Traces token tokens count (answerLetName token) := by
  unfold answerLetName
  split
  · refine .bind (aligns_addWord _) fun _ _ => .bind (aligns_enter _) fun _ _ => ?_
    split
    · exact traces_refused _
    · exact traces_taken (List.forall_mem_singleton.2 (placed_plain rfl rfl))
  · exact traces_refused _

theorem traces_letParams (name : String) (params : List String) :
    Traces token tokens count (answerLetParams name params token) := by
  unfold answerLetParams
  split
  · exact .bind (aligns_addWord _) fun _ _ =>
      traces_taken (List.forall_mem_singleton.2 (placed_plain rfl rfl))
  · exact .bind (aligns_opened _ _) fun _ hopened => traces_taken (List.forall_mem_cons.2
      ⟨hopened, List.forall_mem_singleton.2 (placed_plain rfl rfl)⟩)
  · exact traces_refused _

theorem traces_letBody (name : String) (params : List String) :
    Traces token tokens count (answerLetBody name params token) := by
  refine .bind aligns_pop fun _ _ => .bind (aligns_foldNode _) fun _ _ => ?_
  refine .bind aligns_exit fun _ _ => ?_
  split
  · exact traces_refused _
  · exact .bind (aligns_modify fun _ => rfl) fun _ _ => traces_passed (List.forall_mem_nil _)

/-! ### Cases and conditionals -/

/-- A rule that opens a sequence and waits for its end. -/
theorem traces_opened {as : TokenClass} {rule : Rule}
    (h : rule.Placed (token :: tokens) count) :
    Traces token tokens count (do return .taken as [← opened, rule]) :=
  .bind (aligns_opened _ _) fun _ hopened =>
    traces_taken (List.forall_mem_cons.2 ⟨hopened, List.forall_mem_singleton.2 h⟩)

theorem traces_conditional : Traces token tokens count (answerConditional token) := by
  have hcoord := Coord.aligned_token token tokens
  unfold answerConditional
  split
  · exact .bind aligns_height fun _ _ => traces_opened (placed_at hcoord rfl rfl)
  · exact .bind aligns_height fun _ _ => traces_opened (placed_at hcoord rfl rfl)
  · exact traces_passed (List.forall_mem_singleton.2 (placed_plain rfl rfl))

/-- A node that is completed by the token, from the place that a rule remembers to the token. -/
theorem traces_completed {start : Coord} (hstart : start.Aligned tokens) {as : TokenClass}
    (tag : Tag) (children : List NodeId) : Traces token tokens count (do
      pushBranch tag children (some (start.upTo token.location.coord))
      return .taken as []) := by
  refine traces_taking (.bind (aligns_pushBranch _ _ ?_) fun _ _ =>
    aligns_pure (List.forall_mem_nil _))
  rintro _ ⟨⟩
  exact hstart.toToken token

variable {start : Coord}

theorem traces_clauses (hstart : start.Aligned tokens) (base : Nat) :
    Traces token tokens count (answerClauses base start token) := by
  unfold answerClauses
  split
  · refine traces_taken (List.forall_mem_cons.2 ⟨placed_plain rfl rfl, ?_⟩)
    exact List.forall_mem_cons.2 ⟨placed_plain rfl rfl,
      List.forall_mem_singleton.2 (placed_at (hstart.cons token) rfl rfl)⟩
  · exact .bind (aligns_split base) fun _ _ => traces_completed hstart _ _
  · exact traces_refused _

theorem traces_clauseColon : Traces token tokens count (answerClauseColon token) := by
  unfold answerClauseColon
  split
  · exact traces_opened (placed_plain rfl rfl)
  · exact traces_refused _

theorem traces_clauseBody : Traces token tokens count answerClauseBody :=
  .bind aligns_pop fun _ _ => .bind aligns_pop fun _ _ =>
    .bind (aligns_pushBranch _ _ nofun) fun _ _ => traces_passed (List.forall_mem_nil _)

theorem traces_closeIf (hstart : start.Aligned tokens) (base : Nat) :
    Traces token tokens count (closeIf base start token) :=
  .bind (aligns_split base) fun _ _ => traces_completed hstart _ _

theorem traces_ifCondition (hstart : start.Aligned tokens) (base : Nat) :
    Traces token tokens count (answerIfCondition base start token) := by
  unfold answerIfCondition
  split
  · exact traces_opened (placed_at (hstart.cons token) rfl rfl)
  · exact traces_refused _

theorem traces_ifBranch (hstart : start.Aligned tokens) (base : Nat) :
    Traces token tokens count (answerIfBranch base start token) := by
  unfold answerIfBranch
  split
  · exact traces_opened (placed_at (hstart.cons token) rfl rfl)
  · exact traces_closeIf hstart base
  · exact traces_refused _

theorem traces_elseBranch (hstart : start.Aligned tokens) (base : Nat) :
    Traces token tokens count (answerElseBranch base start token) := by
  unfold answerElseBranch
  split
  · exact traces_closeIf hstart base
  · exact traces_refused _

/-! ### Operations -/

/-- The place of an operation is joined from those of its operands. -/
theorem aligns_reduce (op : BinOp) : Aligns tokens (reduce op) fun _ => True := by
  refine .bind aligns_pop fun right _ => .bind aligns_pop fun left _ => ?_
  refine .bind aligns_get fun b hb => ?_
  have hplace := hb.joinedCoord? [left, right]
  dsimp only
  split
  · exact aligns_pushConcat _ hplace
  · exact aligns_pushBranch _ _ hplace

/-- No more operators wait than before. -/
theorem aligns_reduceAll (least : Nat) (waiting : List BinOp) :
    Aligns tokens (reduceAll least waiting) fun rest => rest.length ≤ waiting.length := by
  induction waiting with
  | nil => exact aligns_pure (Nat.le_refl _)
  | cons op rest ih =>
    unfold reduceAll
    split
    · exact aligns_pure (Nat.le_refl _)
    · refine .bind (aligns_reduce op) fun _ _ b hb => ?_
      obtain ⟨hstore, hle⟩ := ih b hb
      exact ⟨hstore, Nat.le_succ_of_le hle⟩

theorem traces_operator (waiting : List BinOp) :
    Traces token tokens (waiting.length + 1) (answerOperator waiting token) := by
  unfold answerOperator
  split
  · exact .bind (aligns_reduceAll _ waiting) fun _ hle =>
      traces_taken (List.forall_mem_singleton.2 ⟨nofun, Nat.succ_le_succ hle⟩)
  · have hall : Aligns tokens (discard (reduceAll 0 waiting)) fun _ => True :=
      .bind (aligns_reduceAll 0 waiting) fun _ _ => aligns_pure trivial
    exact .bind hall fun _ _ => traces_passed (List.forall_mem_nil _)

theorem traces_operand (waiting : List BinOp) :
    Traces token tokens (waiting.length + 1) (answer token (.operand waiting)) :=
  traces_passed (List.forall_mem_cons.2 ⟨placed_plain rfl rfl,
    List.forall_mem_singleton.2 ⟨nofun, Nat.le_refl _⟩⟩)

theorem traces_unary (pattern : Bool) :
    Traces token tokens count (answerUnary pattern token) := by
  unfold answerUnary
  split
  · exact traces_taken (List.forall_mem_cons.2 ⟨placed_plain rfl rfl,
      List.forall_mem_singleton.2 (placed_at (Coord.aligned_token token tokens) rfl rfl)⟩)
  · exact traces_passed (List.forall_mem_singleton.2 (placed_plain rfl rfl))

/-- The place of a negation is joined from those of the sign and of the operand. -/
theorem traces_negation (hstart : start.Aligned tokens) :
    Traces token tokens count (answerNegation start) := by
  refine .bind aligns_pop fun operand _ => .bind aligns_get fun b hb => ?_
  refine .bind (aligns_pushBranch _ _ ?_) fun _ _ => traces_passed (List.forall_mem_nil _)
  cases hcoord : b.store.coord? operand with
  | none =>
    rintro _ ⟨⟩
    exact hstart
  | some coord =>
    rintro _ ⟨⟩
    exact hstart.join (hb operand coord hcoord)

/-! ### Primaries -/

/-- A name is recorded where it stands, unless it is replaced by a value. -/
theorem aligns_readName (name : String) (pattern : Bool) (location : Location)
    (h : location.coord.Aligned tokens) :
    Aligns tokens (readName name pattern location) fun _ => True := by
  have hleaf : ∀ found : TokenClass, Aligns tokens (do
      pushLeaf .ident name location.coord
      return found) fun _ => True :=
    fun _ => .bind (aligns_pushLeaf _ _ h) fun _ _ => aligns_pure trivial
  unfold readName
  split
  · refine .bind (aligns_pushNode _ ?_) fun _ _ => aligns_pure trivial
    rintro _ ⟨⟩
    exact h
  · refine .bind aligns_get fun b _ => ?_
    split
    · split
      · exact .bind (aligns_push _) fun _ _ => aligns_pure trivial
      · exact hleaf _
    · exact hleaf _
    · exact .bind (aligns_report _) fun _ _ => hleaf _

/-- A node that consists of the token. -/
theorem aligns_literal {as : TokenClass} (node : Node) : Aligns (token :: tokens) (do
      pushNode node (some token.location.coord)
      return .taken as []) (Answer.Takes (token :: tokens) count) := by
  refine .bind (aligns_pushNode _ ?_) fun _ _ => aligns_pure (List.forall_mem_nil _)
  rintro _ ⟨⟩
  exact Coord.aligned_token token tokens

/-- A primary never passes a token on. -/
theorem aligns_primary (pattern : Bool) : Aligns (token :: tokens) (answerPrimary pattern token)
    (Answer.Takes (token :: tokens) count) := by
  have hcoord := Coord.aligned_token token tokens
  unfold answerPrimary
  dsimp only
  split
  · exact aligns_literal _
  · exact aligns_literal _
  · refine .bind aligns_height fun base _ => .bind (aligns_pushLeaf _ _ hcoord) fun _ _ => ?_
    exact .bind (aligns_opened _ _) fun _ hopened => aligns_pure (List.forall_mem_cons.2
      ⟨hopened, List.forall_mem_singleton.2 (placed_at hcoord rfl rfl)⟩)
  · exact aligns_literal _
  · exact aligns_literal _
  · exact aligns_literal _
  · exact .bind aligns_height fun _ _ =>
      aligns_pure (List.forall_mem_singleton.2 (placed_at hcoord rfl rfl))
  · exact .bind aligns_height fun _ _ =>
      aligns_pure (List.forall_mem_singleton.2 (placed_at hcoord rfl rfl))
  · exact .bind (aligns_opened _ _) fun _ hopened => aligns_pure (List.forall_mem_cons.2
      ⟨hopened, List.forall_mem_singleton.2 (placed_at hcoord rfl rfl)⟩)
  · refine .bind (aligns_enter _) fun _ _ => ?_
    split
    · exact aligns_pure trivial
    · exact aligns_pure (List.forall_mem_singleton.2 (placed_at hcoord rfl rfl))
  · exact .bind (aligns_readName _ _ _ hcoord) fun _ _ => aligns_pure (List.forall_mem_nil _)
  · exact aligns_pure trivial

theorem traces_interpolation (hstart : start.Aligned tokens) (base : Nat) :
    Traces token tokens count (answerInterpolation base start token) := by
  have hcoord := Coord.aligned_token token tokens
  unfold answerInterpolation
  split
  · refine traces_taking (.bind (aligns_pushLeaf _ _ hcoord) fun _ _ => ?_)
    exact .bind (aligns_opened _ _) fun _ hopened => aligns_pure (List.forall_mem_cons.2
      ⟨hopened, List.forall_mem_singleton.2 (placed_at (hstart.cons token) rfl rfl)⟩)
  · refine traces_taking (.bind (aligns_pushLeaf _ _ hcoord) fun _ _ => ?_)
    refine .bind (aligns_split base) fun _ _ => .bind (aligns_pushConcat _ ?_) fun _ _ =>
      aligns_pure (List.forall_mem_nil _)
    rintro _ ⟨⟩
    exact hstart.toToken token
  · exact traces_refused _

/-- A key that consists of the token. -/
theorem traces_key (hstart : start.Aligned tokens) {as : TokenClass} (key : String) (base : Nat) :
    Traces token tokens count (do
      pushLeaf .str key token.location.coord
      return .taken as [.recordColon base start]) :=
  traces_taking (.bind (aligns_pushLeaf _ _ (Coord.aligned_token token tokens)) fun _ _ =>
    aligns_pure (List.forall_mem_singleton.2 (placed_at (hstart.cons token) rfl rfl)))

theorem traces_recordKey (hstart : start.Aligned tokens) (base : Nat) :
    Traces token tokens count (answerRecordKey base start token) := by
  unfold answerRecordKey
  split
  · exact .bind (aligns_split base) fun _ _ => traces_completed hstart _ _
  · exact traces_key hstart _ _
  · exact traces_key hstart _ _
  · exact traces_refused _

theorem traces_recordColon (hstart : start.Aligned tokens) (base : Nat) :
    Traces token tokens count (answerRecordColon base start token) := by
  unfold answerRecordColon
  split
  · exact traces_opened (placed_at (hstart.cons token) rfl rfl)
  · exact traces_refused _

theorem traces_recordValue (hstart : start.Aligned tokens) (base : Nat) :
    Traces token tokens count (answerRecordValue base start token) := by
  refine .bind aligns_pop fun _ _ => .bind aligns_pop fun _ _ => ?_
  refine .bind (aligns_pushBranch _ _ nofun) fun _ _ => ?_
  split
  · exact traces_taken (List.forall_mem_singleton.2 (placed_at (hstart.cons token) rfl rfl))
  · exact traces_passed (List.forall_mem_singleton.2 (placed_at hstart rfl rfl))

theorem traces_list (hstart : start.Aligned tokens) (base : Nat) (pattern : Bool) :
    Traces token tokens count (answerList base pattern start token) := by
  unfold answerList
  split
  · exact .bind (aligns_split base) fun _ _ => traces_completed hstart _ _
  · exact traces_taken (List.forall_mem_singleton.2 (placed_at (hstart.cons token) rfl rfl))
  · refine traces_passed (List.forall_mem_cons.2
      ⟨?_, List.forall_mem_singleton.2 (placed_at hstart rfl rfl)⟩)
    cases pattern <;> exact placed_plain rfl rfl

theorem traces_paren (hstart : start.Aligned tokens) :
    Traces token tokens count (answerParen start token) := by
  unfold answerParen
  split
  · exact .bind aligns_pop fun _ _ => traces_completed hstart _ _
  · exact traces_refused _

/-! ### Lambdas -/

theorem traces_lambdaParams (hstart : start.Aligned tokens) (params : List String) :
    Traces token tokens count (answerLambdaParams params start token) := by
  have hplaced := hstart.cons token
  unfold answerLambdaParams
  split
  · exact .bind (aligns_addWord _) fun _ _ =>
      traces_taken (List.forall_mem_singleton.2 (placed_at hplaced rfl rfl))
  · exact traces_opened (placed_at hplaced rfl rfl)
  · exact traces_refused _

theorem aligns_internParams (params : List String) :
    Aligns tokens (internParams params) fun _ => True := by
  induction params with
  | nil => exact aligns_pure trivial
  | cons param rest ih =>
    exact .bind (aligns_intern _ nofun) fun _ _ => .bind ih fun _ _ => aligns_pure trivial

theorem traces_lambdaBody (hstart : start.Aligned tokens) (params : List String) :
    Traces token tokens count (answerLambdaBody params start token) := by
  unfold answerLambdaBody
  split
  · refine .bind aligns_pop fun _ _ => .bind (aligns_foldNode _) fun _ _ => ?_
    refine .bind aligns_exit fun _ _ => ?_
    split
    · exact traces_refused _
    · refine .bind (aligns_internParams params) fun _ _ => ?_
      refine .bind (aligns_intern _ nofun) fun _ _ => traces_taking ?_
      refine .bind (aligns_pushNode _ ?_) fun _ _ => aligns_pure (List.forall_mem_nil _)
      rintro _ ⟨⟩
      exact hstart.toToken token
  · exact traces_refused _

/-! ### All rules -/

/-- A rule that passes a token on records places of tokens before it, and one that takes it may
record its place as well. Only rules of operations have operands. -/
theorem traces_answer (token : Token) {rule : Rule} (h : rule.Placed tokens count) :
    Traces token tokens rule.operandsBegun (rule.answer token) := by
  cases rule with
  | program =>
    exact .bind (aligns_opened _ _) fun _ hopened => traces_passed (List.forall_mem_cons.2
      ⟨hopened, List.forall_mem_singleton.2 (placed_plain rfl rfl)⟩)
  | programEnd => exact traces_programEnd
  | sequence base stage => exact traces_sequence base stage
  | expression => exact traces_expression
  | letName => exact traces_letName
  | letParams name params => exact traces_letParams name params
  | letBody name params => exact traces_letBody name params
  | conditional => exact traces_conditional
  | clauses base start => exact traces_clauses (h.start _ rfl) base
  | clauseColon => exact traces_clauseColon
  | clauseBody => exact traces_clauseBody
  | ifCondition base start => exact traces_ifCondition (h.start _ rfl) base
  | ifBranch base start => exact traces_ifBranch (h.start _ rfl) base
  | elseBranch base start => exact traces_elseBranch (h.start _ rfl) base
  | operand waiting => exact traces_operand waiting
  | operator waiting => exact traces_operator waiting
  | unary pattern => exact traces_unary pattern
  | negation start => exact traces_negation (h.start _ rfl)
  | primary pattern => exact traces_taking (aligns_primary pattern)
  | interpolation base start => exact traces_interpolation (h.start _ rfl) base
  | recordKey base start => exact traces_recordKey (h.start _ rfl) base
  | recordColon base start => exact traces_recordColon (h.start _ rfl) base
  | recordValue base start => exact traces_recordValue (h.start _ rfl) base
  | list base pattern start => exact traces_list (h.start _ rfl) base pattern
  | paren start => exact traces_paren (h.start _ rfl)
  | lambdaParams params start => exact traces_lambdaParams (h.start _ rfl) params
  | lambdaBody params start => exact traces_lambdaBody (h.start _ rfl) params

end Rule

end Juxta
