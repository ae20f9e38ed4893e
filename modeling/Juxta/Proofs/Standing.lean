import Juxta.Proofs.RefoldedPrograms
import Juxta.Proofs.Grammar.Watched

/-!
# What rules own of the stack

All rules that wait share one stack of nodes. Each owns the nodes that have been built for it, above
those of the rules below it, and leaves one node to the next rule when it is done; definitions leave
none. So whatever a rule takes is its own.

* `Rule.Owns` : how many nodes a rule owns above a height when it is its turn;
* `Rule.Segments` : rules that wait, with the nodes and the scopes that are there;
* `Build.Calm` : a step that raises no alarm, with the nodes and scopes before and after it;
* `Rule.Safe` : the same for answers, after which the rules that wait own the stack again; one lemma
  `safe_…` for every rule;
* `Parser.Passes.never_underflows` : no answer raises an alarm, and nothing is left with the root.
-/

namespace Juxta

/-! ## Nodes of rules -/

namespace Rule

/-- How many nodes belong to a rule when it is its turn, above the height `base`. Definitions and
lambdas, which have scopes of their own, are known to `Segments`. -/
def Owns (base own : Nat) : Rule → Prop
  | .sequence height _ | .interpolation height _ | .recordKey height _ | .list height _ _
  | .clauses height _ => height = base
  | .recordColon height _ => height = base ∧ 1 ≤ own
  | .recordValue height _ => height = base ∧ 2 ≤ own
  | .ifCondition height _ => height = base ∧ own = 1
  | .ifBranch height _ => height = base ∧ own = 2
  | .elseBranch height _ => height = base ∧ own = 3
  | .conditional | .unary _ | .primary _ => own = 0
  | .operand waiting => own = waiting.length
  | .operator waiting => own = waiting.length + 1
  | .clauseColon | .negation _ | .paren _ => own = 1
  | .clauseBody => own = 2
  | _ => False

/-- Rules that wait when so many nodes wait and so many scopes are open. -/
inductive Segments : List Rule → Nat → Nat → Prop where
  | program : Segments [.program] 0 1
  | programEnd : Segments [.programEnd] 1 1
  | done : Segments [] 0 1
  | owns {rule : Rule} {rest : List Rule} {base depth : Nat} (own : Nat) (h : rule.Owns base own)
      (hrest : Segments rest (base + 1) depth) : Segments (rule :: rest) (base + own) depth
  | expression {rest : List Rule} {base depth : Nat} (hone : Segments rest (base + 1) depth)
      (hnone : Segments rest base depth) : Segments (.expression :: rest) base depth
  | letName {rest : List Rule} {base depth : Nat} (hrest : Segments rest base depth) :
      Segments (.letName :: rest) base depth
  | letParams {rest : List Rule} {name : String} {params : List String} {base depth : Nat}
      (hrest : Segments rest base depth) :
      Segments (.letParams name params :: rest) base (depth + 1)
  | letBody {rest : List Rule} {name : String} {params : List String} {base depth : Nat}
      (hrest : Segments rest base depth) :
      Segments (.letBody name params :: rest) (base + 1) (depth + 1)
  | lambdaParams {rest : List Rule} {params : List String} {start : Coord} {base depth : Nat}
      (hrest : Segments rest (base + 1) depth) :
      Segments (.lambdaParams params start :: rest) base (depth + 1)
  | lambdaBody {rest : List Rule} {params : List String} {start : Coord} {base depth : Nat}
      (hrest : Segments rest (base + 1) depth) :
      Segments (.lambdaBody params start :: rest) (base + 1) (depth + 1)

/-- The outermost scope stays open. -/
theorem Segments.depth_pos {rules : List Rule} {height depth : Nat}
    (h : Segments rules height depth) : 0 < depth := by
  induction h with
  | program | programEnd | done => exact Nat.one_pos
  | owns _ _ _ ih | letName _ ih => exact ih
  | expression _ _ ih _ => exact ih
  | letParams | letBody | lambdaParams | lambdaBody => exact Nat.succ_pos _

end Rule

/-! ## Steps -/

/-- So many nodes wait, and so many scopes are open. -/
def Builder.Stands (b : Builder) (height depth : Nat) : Prop :=
  b.nodes.length = height ∧ b.env.depth = depth

namespace Environment

theorem depth_exit {env : Environment} {depth : Nat} (h : env.depth = depth + 1)
    (hdepth : 0 < depth) : env.exit.depth = depth := by
  unfold exit
  split
  · rename_i scope outer rest hscopes
    unfold Environment.depth at h ⊢
    rw [hscopes] at h
    exact Nat.succ.inj h
  · rename_i hscopes
    unfold Environment.depth at h
    match hs : env.scopes with
    | [] => rw [hs] at h; cases h
    | [scope] => rw [hs] at h; cases h; cases hdepth
    | scope :: outer :: rest => exact absurd hs (hscopes _ _ _)

theorem depth_define (env : Environment) (number : Nat) (name : String) (kind : WordKind) :
    (env.define number name kind).depth = env.depth := by
  unfold define Environment.depth
  split
  · exact List.length_modify ..
  · rfl

end Environment

namespace Build

variable {α β : Type} {h d h' d' h'' d'' : Nat}

/-- A step that does the same whatever the alarm is, from so many nodes and scopes to others. -/
def Calm (h d : Nat) (step : Build Unit → Build α) (h' d' : Nat)
    (post : Nat → α → Prop) : Prop :=
  ∀ b : Builder, b.Stands h d →
    ∃ a c, (∀ alarm, (step alarm).run b = (a, c)) ∧ c.Stands h' d' ∧ post h' a

theorem Calm.bind {step : Build Unit → Build α} {next : α → Build Unit → Build β}
    {P : Nat → α → Prop} {Q : Nat → β → Prop} (hstep : Calm h d step h' d' P)
    (k : ∀ a, P h' a → Calm h' d' (next a) h'' d'' Q) :
    Calm h d (fun alarm => step alarm >>= fun a => next a alarm) h'' d'' Q := by
  intro b hb
  obtain ⟨a, c, hrun, hc, ha⟩ := hstep b hb
  obtain ⟨a', c', hrun', hc', ha'⟩ := k a ha c hc
  exact ⟨a', c', fun alarm => (run_next (hrun alarm) _).trans (hrun' alarm), hc', ha'⟩

/-- A step without an alarm. -/
theorem calm_of {step : Build α} {post : Nat → α → Prop}
    (hstep : ∀ b, b.Stands h d → (step.run b).2.Stands h' d' ∧ post h' (step.run b).1) :
    Calm h d (fun _ => step) h' d' post :=
  fun b hb => ⟨_, _, fun _ => rfl, hstep b hb⟩

theorem Calm.pure {a : α} {post : Nat → α → Prop} (ha : post h a) :
    Calm h d (fun _ => Pure.pure a) h d post :=
  calm_of fun _ hb => ⟨hb, ha⟩

theorem calm_get : Calm h d (fun _ => get) h d Whatever := calm_of fun _ hb => ⟨hb, trivial⟩

theorem calm_modify {f : Builder → Builder} (hf : ∀ b, b.Stands h d → (f b).Stands h' d') :
    Calm h d (fun _ => modify f) h' d' Whatever := calm_of fun b hb => ⟨hf b hb, trivial⟩

theorem calm_height : Calm h d (fun _ => height) h d (fun n count => count = n) :=
  calm_of fun _ hb => ⟨hb, hb.1⟩

/-- Where nothing is wrong, no alarm is raised. -/
theorem calm_raisedIf {wrong : Prop} [Decidable wrong] (hright : ¬ wrong) :
    Calm h d (fun alarm => raisedIf alarm wrong) h d Whatever :=
  fun b hb => ⟨(), b, fun _ => congrArg (StateT.run · b) (if_neg hright), hb, trivial⟩

theorem calm_pop : Calm (h + 1) d watchedPop h d Whatever := by
  rintro ⟨store, env, nodes, errors, root⟩ ⟨hnodes, henv⟩
  cases nodes with
  | nil => cases hnodes
  | cons id rest => exact ⟨id, ⟨store, env, rest, errors, root⟩, fun _ => rfl,
      ⟨Nat.succ.inj hnodes, henv⟩, trivial⟩

theorem calm_split (own base : Nat) :
    Calm (base + own) d (watchedSplit · base) base d (fun _ ids => ids.length = own) := by
  intro b hb
  have hcount : b.nodes.length - base = own := by
    rw [hb.1]
    exact Nat.add_sub_cancel_left _ _
  refine ⟨((Build.split base).run b).1, ((Build.split base).run b).2, fun alarm => ?_, ⟨?_, hb.2⟩,
    ?_⟩
  · unfold watchedSplit
    rw [run_next (rfl : (get : Build Builder).run b = (b, b))]
    have hright : ¬ b.nodes.length < base := by rw [hb.1]; omega
    rw [show raisedIf alarm (b.nodes.length < base) = Pure.pure () from if_neg hright]
    rfl
  · show (b.nodes.drop (b.nodes.length - base)).length = base
    rw [hcount, List.length_drop, hb.1]
    exact Nat.add_sub_cancel _ _
  · show ((b.nodes.take (b.nodes.length - base)).reverse).length = own
    rw [hcount, List.length_reverse, List.length_take_of_le]
    rw [hb.1]
    exact Nat.le_add_left _ _

theorem calm_push (id : NodeId) : Calm h d (fun _ => push id) (h + 1) d Whatever :=
  calm_of fun _ hb => ⟨⟨congrArg (· + 1) hb.1, hb.2⟩, trivial⟩

theorem calm_intern (node : Node) (coord : Option Coord) :
    Calm h d (fun _ => intern node coord) h d Whatever :=
  calm_of fun _ hb => ⟨hb, trivial⟩

theorem calm_pushNode (node : Node) (coord : Option Coord) :
    Calm h d (fun _ => pushNode node coord) (h + 1) d Whatever :=
  .bind (calm_intern node coord) fun id _ => calm_push id

theorem calm_pushLeaf (tag : Tag) (text : String) (coord : Coord) :
    Calm h d (fun _ => pushLeaf tag text coord) (h + 1) d Whatever := calm_pushNode _ _

theorem calm_pushBranch (tag : Tag) (children : List NodeId) (coord : Option Coord) :
    Calm h d (fun _ => pushBranch tag children coord) (h + 1) d Whatever :=
  .bind calm_get fun _ _ => calm_pushNode _ _

theorem calm_pushConcat (parts : List NodeId) (coord : Option Coord) :
    Calm h d (fun _ => pushConcat parts coord) (h + 1) d Whatever :=
  .bind (calm_intern _ _) fun _ _ => calm_pushNode _ _

theorem calm_addWord (word : Word) : Calm h d (fun _ => addWord word) h d Whatever :=
  calm_of fun b hb => ⟨⟨hb.1, (b.env.depth_addWord word).trans hb.2⟩, trivial⟩

theorem calm_exit (hd : 0 < d) : Calm h (d + 1) (fun _ => exit) h d Whatever :=
  calm_of fun _ hb => ⟨⟨hb.1, Environment.depth_exit hb.2 hd⟩, trivial⟩

theorem calm_foldNode (id : NodeId) : Calm h d (fun _ => foldNode id) h d Whatever :=
  calm_of fun _ hb => ⟨hb, trivial⟩

theorem calm_report (error : SyntaxError) : Calm h d (fun _ => report error) h d Whatever :=
  calm_of fun _ hb => ⟨hb, trivial⟩

end Build

/-! ## Answers -/

/-- An answer after which the rules that wait own the stack, unless the token is refused. -/
def Answer.Stands (rest : List Rule) (b : Builder) : Answer → Prop
  | .taken _ more | .passed more => ∃ h d, b.Stands h d ∧ Rule.Segments (more ++ rest) h d
  | .refused _ => True

namespace Rule

open Build

variable {h d h' d' own : Nat} {token : Token} {rest : List Rule}

/-- A step to an answer that is the same whatever the alarm is, and after which the rules that wait
own the stack. -/
def Safe (h d : Nat) (rest : List Rule) (step : Build Unit → Build Answer) : Prop :=
  ∀ b : Builder, b.Stands h d →
    ∃ answer c, (∀ alarm, (step alarm).run b = (answer, c)) ∧ answer.Stands rest c

theorem Safe.bind {α : Type} {step : Build Unit → Build α} {next : α → Build Unit → Build Answer}
    {P : Nat → α → Prop} (hstep : Calm h d step h' d' P)
    (k : ∀ a, P h' a → Safe h' d' rest (next a)) :
    Safe h d rest (fun alarm => step alarm >>= fun a => next a alarm) := by
  intro b hb
  obtain ⟨a, c, hrun, hc, ha⟩ := hstep b hb
  obtain ⟨answer, e, hrun', he⟩ := k a ha c hc
  exact ⟨answer, e, fun alarm => (run_next (hrun alarm) _).trans (hrun' alarm), he⟩

theorem safe_taken {as : TokenClass} {more : List Rule} (hmore : Segments (more ++ rest) h d) :
    Safe h d rest (fun _ => pure (.taken as more)) :=
  fun b hb => ⟨_, b, fun _ => rfl, h, d, hb, hmore⟩

theorem safe_passed {more : List Rule} (hmore : Segments (more ++ rest) h d) :
    Safe h d rest (fun _ => pure (.passed more)) :=
  fun b hb => ⟨_, b, fun _ => rfl, h, d, hb, hmore⟩

theorem safe_refused (error : SyntaxError) : Safe h d rest (fun _ => pure (.refused error)) :=
  fun b _ => ⟨_, b, fun _ => rfl, trivial⟩

/-- A sequence without terms yet. -/
theorem calm_opened : Calm h d (fun _ => opened) h d
    (fun n rule => rule = .sequence n .start) :=
  .bind calm_height fun _ hbase => .pure (hbase ▸ rfl)

/-- A token after which a sequence begins. -/
theorem safe_opened {as : TokenClass} {others : List Rule}
    (hothers : Segments (others ++ rest) (h + 1) d) :
    Safe h d rest (fun _ => do return .taken as ((← opened) :: others)) :=
  .bind calm_opened fun _ hrule =>
    hrule ▸ safe_taken (.owns 0 rfl hothers)

/-- A token that makes one node of the nodes of a rule. -/
theorem safe_closed (hrest : Segments rest (h + 1) d) (tag : Tag) (coord : Option Coord)
    (as : TokenClass) :
    Safe (h + own) d rest (fun alarm => do
      pushBranch tag (← watchedSplit alarm h) coord
      return .taken as []) :=
  .bind (calm_split own h) fun _ _ => .bind (calm_pushBranch _ _ _) fun _ _ => safe_taken hrest

/-! ## Programs, sequences and definitions -/

theorem safe_program (token : Token) : Safe 0 1 [] (fun _ => Rule.program.answer token) :=
  .bind calm_opened fun _ hrule =>
    hrule ▸ safe_passed (.owns 0 rfl .programEnd)

theorem safe_programEnd : Safe 1 1 [] (Watched.answerProgramEnd · token) := by
  unfold Watched.answerProgramEnd
  split
  · refine .bind calm_pop fun _ _ => .bind (calm_foldNode _) fun result _ => ?_
    cases result with
    | error cause => exact safe_refused _
    | ok folded =>
      refine .bind calm_get fun _ _ => .bind (calm_intern _ _) fun root _ => ?_
      exact .bind (calm_modify fun _ hb => hb) fun _ _ => safe_taken .done
  · exact safe_refused _

theorem calm_closeSequence :
    Calm (h + own) d (Watched.closeSequence · h) (h + 1) d Whatever :=
  .bind (calm_split own h) fun _ _ => calm_pushBranch _ _ _

theorem safe_sequence (hrest : Segments rest (h + 1) d) (stage : SequenceStage) :
    Safe (h + own) d rest (Watched.answerSequence · h stage token) := by
  have more : ∀ own stage, Segments (.sequence h stage :: rest) (h + own) d :=
    fun _ _ => .owns _ rfl hrest
  unfold Watched.answerSequence
  split
  · split
    · exact safe_taken (more own .afterDot)
    · exact .bind calm_closeSequence fun _ _ => safe_taken hrest
  · split
    · exact .bind calm_closeSequence fun _ _ => safe_passed hrest
    · exact safe_passed (.expression (more (own + 1) .afterTerm) (more own .afterTerm))

theorem safe_expression (hone : Segments rest (h + 1) d) (hnone : Segments rest h d) :
    Safe h d rest (fun _ => Rule.expression.answer token) := by
  show Safe h d rest fun _ => pure (if token.kind = .keyword .letWord then _ else _)
  split
  · exact safe_taken (.letName hnone)
  · exact safe_passed (.owns 0 rfl hone)

theorem safe_letName (hrest : Segments rest h d) :
    Safe h d rest (fun _ => answerLetName token) := by
  unfold answerLetName
  split
  · rename_i name _
    refine .bind (calm_addWord _) fun _ _ b hb => ?_
    rcases run_enter name b with ⟨cause, hrun⟩ | hrun
    · exact ⟨_, _, fun _ => run_next hrun _, trivial⟩
    · exact ⟨_, _, fun _ => run_next hrun _, h, d + 1, ⟨hb.1, congrArg (· + 1) hb.2⟩,
        .letParams hrest⟩
  · exact safe_refused _

theorem safe_letParams (hrest : Segments rest h d) (name : String) (params : List String) :
    Safe h (d + 1) rest (fun _ => answerLetParams name params token) := by
  unfold answerLetParams
  split
  · exact .bind (calm_addWord _) fun _ _ => safe_taken (.letParams hrest)
  · exact safe_opened (.letBody hrest)
  · exact safe_refused _

theorem safe_letBody (hrest : Segments rest h d) (name : String) (params : List String) :
    Safe (h + 1) (d + 1) rest (Watched.answerLetBody · name params token) := by
  unfold Watched.answerLetBody
  refine .bind calm_pop fun _ _ => .bind (calm_foldNode _) fun result _ => ?_
  refine .bind (calm_exit hrest.depth_pos) fun _ _ => ?_
  cases result with
  | error cause => exact safe_refused _
  | ok folded =>
    refine .bind (calm_modify fun b hb => ⟨hb.1, ?_⟩) fun _ _ => safe_passed hrest
    exact (Environment.depth_define ..).trans hb.2

/-! ## Cases and conditionals -/

theorem safe_conditional (hrest : Segments rest (h + 1) d) :
    Safe h d rest (fun _ => answerConditional token) := by
  unfold answerConditional
  split
  · refine .bind calm_height fun base hbase => safe_opened ?_
    exact .owns 1 hbase hrest
  · refine .bind calm_height fun base hbase => safe_opened ?_
    exact .owns 1 ⟨hbase, rfl⟩ hrest
  · exact safe_passed (.owns 0 rfl hrest)

theorem safe_clauses (hrest : Segments rest (h + 1) d) (start : Coord) :
    Safe (h + own) d rest (Watched.answerClauses · h start token) := by
  unfold Watched.answerClauses
  split
  · have hclauses : Segments (.clauses h start :: rest) (h + own + 1) d :=
      .owns (own + 1) rfl hrest
    exact safe_taken (.owns 0 rfl (.owns 1 rfl hclauses))
  · exact safe_closed hrest _ _ _
  · exact safe_refused _

theorem safe_clauseColon (hrest : Segments rest (h + 1) d) :
    Safe (h + 1) d rest (fun _ => answerClauseColon token) := by
  unfold answerClauseColon
  split
  · exact safe_opened (.owns 2 rfl hrest)
  · exact safe_refused _

theorem safe_clauseBody (hrest : Segments rest (h + 1) d) :
    Safe (h + 2) d rest Watched.answerClauseBody :=
  .bind calm_pop fun _ _ => .bind calm_pop fun _ _ => .bind (calm_pushBranch _ _ _)
    fun _ _ => safe_passed hrest

/-- A conditional has its condition and one or two branches. -/
theorem safe_closeIf (hrest : Segments rest (h + 1) d) (start : Coord)
    (hown : own = 2 ∨ own = 3) : Safe (h + own) d rest (Watched.closeIf · h start token) :=
  .bind (calm_split own h) fun _ hparts =>
    .bind (calm_raisedIf (not_not.2 (hparts ▸ hown))) fun _ _ =>
      .bind (calm_pushBranch _ _ _) fun _ _ => safe_taken hrest

theorem safe_ifCondition (hrest : Segments rest (h + 1) d) (start : Coord) :
    Safe (h + 1) d rest (fun _ => answerIfCondition h start token) := by
  unfold answerIfCondition
  split
  · exact safe_opened (.owns 2 ⟨rfl, rfl⟩ hrest)
  · exact safe_refused _

theorem safe_ifBranch (hrest : Segments rest (h + 1) d) (start : Coord) :
    Safe (h + 2) d rest (Watched.answerIfBranch · h start token) := by
  unfold Watched.answerIfBranch
  split
  · exact safe_opened (.owns 3 ⟨rfl, rfl⟩ hrest)
  · exact safe_closeIf hrest start (.inl rfl)
  · exact safe_refused _

theorem safe_elseBranch (hrest : Segments rest (h + 1) d) (start : Coord) :
    Safe (h + 3) d rest (Watched.answerElseBranch · h start token) := by
  unfold Watched.answerElseBranch
  split
  · exact safe_closeIf hrest start (.inr rfl)
  · exact safe_refused _

/-! ## Operations -/

theorem calm_reduce (op : BinOp) :
    Calm (h + 2) d (Watched.reduce · op) (h + 1) d Whatever := by
  refine .bind calm_pop fun _ _ => .bind calm_pop fun _ _ => .bind calm_get fun _ _ => ?_
  split
  · exact calm_pushConcat _ _
  · exact calm_pushBranch _ _ _

/-- Operators that wait have one operand more than there are of them. None is left if all of them
bind tight enough. -/
theorem calm_reduceAll (least : Nat) (waiting : List BinOp) :
    ∀ b : Builder, b.Stands (h + (waiting.length + 1)) d → ∃ left c,
      (∀ alarm, (Watched.reduceAll alarm least waiting).run b = (left, c)) ∧
      c.Stands (h + (left.length + 1)) d ∧ (least = 0 → left = []) := by
  induction waiting with
  | nil => exact fun b hb => ⟨[], b, fun _ => rfl, hb, fun _ => rfl⟩
  | cons op rest ih =>
    intro b hb
    by_cases hlt : op.precedence < least
    · refine ⟨op :: rest, b, fun alarm => congrArg (StateT.run · b) (if_pos hlt), hb, ?_⟩
      intro hzero
      exact absurd (hzero ▸ hlt) (Nat.not_lt_zero _)
    · obtain ⟨_, c, hrun, hc, -⟩ := calm_reduce (h := h + rest.length) op b hb
      obtain ⟨left, e, hrun', he, hzero⟩ := ih c hc
      refine ⟨left, e, fun alarm => ?_, he, hzero⟩
      exact (congrArg (StateT.run · b) (if_neg hlt)).trans
        ((run_next (hrun alarm) _).trans (hrun' alarm))

theorem safe_operator (hrest : Segments rest (h + 1) d) (waiting : List BinOp) :
    Safe (h + (waiting.length + 1)) d rest (Watched.answerOperator · waiting token) := by
  intro b hb
  unfold Watched.answerOperator
  split
  · rename_i op _
    obtain ⟨left, c, hrun, hc, -⟩ := calm_reduceAll op.precedence waiting b hb
    refine ⟨.taken .operator [.operand (op :: left)], c, fun alarm => run_next (hrun alarm) _,
      h + (left.length + 1), d, hc, ?_⟩
    exact .owns _ rfl hrest
  · obtain ⟨left, c, hrun, hc, hnone⟩ := calm_reduceAll 0 waiting b hb
    obtain rfl := hnone rfl
    refine ⟨.passed [], c, fun alarm => ?_, h + 1, d, hc, hrest⟩
    have hdiscard : (discard (Watched.reduceAll alarm 0 waiting) : Build Unit).run b = ((), c) :=
      congrArg (fun result : List BinOp × Builder => ((), result.2)) (hrun alarm)
    exact run_next hdiscard _

theorem safe_operand (token : Token) (hrest : Segments rest (h + 1) d) (waiting : List BinOp) :
    Safe (h + waiting.length) d rest (fun _ => (Rule.operand waiting).answer token) := by
  have hoperator : Segments (.operator waiting :: rest) (h + (waiting.length + 1)) d :=
    .owns _ rfl hrest
  exact safe_passed (.owns 0 rfl hoperator)

theorem safe_unary (hrest : Segments rest (h + 1) d) (pattern : Bool) :
    Safe h d rest (fun _ => answerUnary pattern token) := by
  unfold answerUnary
  split
  · exact safe_taken (.owns 0 rfl (.owns 1 rfl hrest))
  · exact safe_passed (.owns 0 rfl hrest)

theorem safe_negation (hrest : Segments rest (h + 1) d) (start : Coord) :
    Safe (h + 1) d rest (Watched.answerNegation · start) :=
  .bind calm_pop fun _ _ => .bind calm_get fun _ _ => .bind (calm_pushBranch _ _ _)
    fun _ _ => safe_passed hrest

/-! ## Primaries -/

theorem calm_readName (name : String) (pattern : Bool) (location : Location) :
    Calm h d (fun _ => readName name pattern location) (h + 1) d Whatever := by
  unfold readName
  split
  · exact .bind (calm_pushNode _ _) fun _ _ => .pure trivial
  · refine .bind calm_get fun _ _ => ?_
    split
    · split
      · exact .bind (calm_push _) fun _ _ => .pure trivial
      · exact .bind (calm_pushLeaf _ _ _) fun _ _ => .pure trivial
    · exact .bind (calm_pushLeaf _ _ _) fun _ _ => .pure trivial
    · exact .bind (calm_report _) fun _ _ => .bind (calm_pushLeaf _ _ _) fun _ _ =>
        .pure trivial

/-- A token that is a node by itself. -/
theorem safe_node (hrest : Segments rest (h + 1) d) (node : Node) (coord : Option Coord)
    (as : TokenClass) : Safe h d rest (fun _ => do
      pushNode node coord
      return .taken as []) :=
  .bind (calm_pushNode node coord) fun _ _ => safe_taken hrest

theorem safe_primary (hrest : Segments rest (h + 1) d) (pattern : Bool) :
    Safe h d rest (fun _ => answerPrimary pattern token) := by
  unfold answerPrimary
  dsimp only
  split
  · exact safe_node hrest _ _ _
  · exact safe_node hrest _ _ _
  · refine .bind calm_height fun base hbase => .bind (calm_pushLeaf _ _ _) fun _ _ => ?_
    exact safe_opened (.owns 2 hbase hrest)
  · exact safe_node hrest _ _ _
  · exact safe_node hrest _ _ _
  · exact safe_node hrest _ _ _
  · exact .bind calm_height fun base hbase => safe_taken (.owns 0 hbase hrest)
  · exact .bind calm_height fun base hbase => safe_taken (.owns 0 hbase hrest)
  · exact safe_opened (.owns 1 rfl hrest)
  · intro b hb
    rcases run_enter "lambda" b with ⟨cause, hrun⟩ | hrun
    · exact ⟨_, _, fun _ => run_next hrun _, trivial⟩
    · exact ⟨_, _, fun _ => run_next hrun _, h, d + 1, ⟨hb.1, congrArg (· + 1) hb.2⟩,
        .lambdaParams hrest⟩
  · exact .bind (calm_readName _ _ _) fun _ _ => safe_taken hrest
  · exact safe_refused _

theorem safe_interpolation (hrest : Segments rest (h + 1) d) (start : Coord) :
    Safe (h + own) d rest (Watched.answerInterpolation · h start token) := by
  unfold Watched.answerInterpolation
  split
  · refine .bind (calm_pushLeaf _ _ _) fun _ _ => safe_opened ?_
    exact .owns (own + 2) rfl hrest
  · refine .bind (calm_pushLeaf _ _ _) fun _ _ => .bind (calm_split (own + 1) h) fun _ _ => ?_
    exact .bind (calm_pushConcat _ _) fun _ _ => safe_taken hrest
  · exact safe_refused _

theorem safe_recordKey (hrest : Segments rest (h + 1) d) (start : Coord) :
    Safe (h + own) d rest (Watched.answerRecordKey · h start token) := by
  have hcolon : Segments (.recordColon h start :: rest) (h + (own + 1)) d :=
    .owns _ ⟨rfl, Nat.le_add_left 1 own⟩ hrest
  unfold Watched.answerRecordKey
  split
  · exact safe_closed hrest _ _ _
  · exact .bind (calm_pushLeaf _ _ _) fun _ _ => safe_taken hcolon
  · exact .bind (calm_pushLeaf _ _ _) fun _ _ => safe_taken hcolon
  · exact safe_refused _

theorem safe_recordColon (hrest : Segments rest (h + 1) d) (hown : 1 ≤ own) (start : Coord) :
    Safe (h + own) d rest (fun _ => answerRecordColon h start token) := by
  unfold answerRecordColon
  split
  · exact safe_opened (.owns (own + 1) ⟨rfl, Nat.succ_le_succ hown⟩ hrest)
  · exact safe_refused _

theorem safe_recordValue (hrest : Segments rest (h + 1) d) (hown : 2 ≤ own) (start : Coord) :
    Safe (h + own) d rest (Watched.answerRecordValue · h start token) := by
  obtain ⟨own, rfl⟩ := Nat.exists_eq_add_of_le' hown
  have hkey : Segments (.recordKey h start :: rest) (h + (own + 1)) d := .owns _ rfl hrest
  unfold Watched.answerRecordValue
  refine .bind calm_pop fun _ _ => .bind calm_pop fun _ _ => ?_
  refine .bind (calm_pushBranch _ _ _) fun _ _ => ?_
  split
  · exact safe_taken hkey
  · exact safe_passed hkey

theorem safe_list (hrest : Segments rest (h + 1) d) (pattern : Bool) (start : Coord) :
    Safe (h + own) d rest (Watched.answerList · h pattern start token) := by
  have hlist : ∀ own, Segments (.list h pattern start :: rest) (h + own) d :=
    fun _ => .owns _ rfl hrest
  unfold Watched.answerList
  split
  · exact safe_closed hrest _ _ _
  · exact safe_taken (hlist own)
  · refine safe_passed ?_
    cases pattern with
    | true => exact .owns 0 rfl (hlist (own + 1))
    | false => exact .expression (hlist (own + 1)) (hlist own)

theorem safe_paren (hrest : Segments rest (h + 1) d) (start : Coord) :
    Safe (h + 1) d rest (Watched.answerParen · start token) := by
  unfold Watched.answerParen
  split
  · exact .bind calm_pop fun _ _ => .bind (calm_pushBranch _ _ _) fun _ _ => safe_taken hrest
  · exact safe_refused _

/-! ## Lambdas -/

theorem safe_lambdaParams (hrest : Segments rest (h + 1) d) (params : List String) (start : Coord) :
    Safe h (d + 1) rest (fun _ => answerLambdaParams params start token) := by
  unfold answerLambdaParams
  split
  · exact .bind (calm_addWord _) fun _ _ => safe_taken (.lambdaParams hrest)
  · exact safe_opened (.lambdaBody hrest)
  · exact safe_refused _

theorem calm_internParams (params : List String) :
    Calm h d (fun _ => internParams params) h d Whatever := by
  induction params with
  | nil => exact .pure trivial
  | cons param rest ih =>
    exact .bind (calm_intern _ _) fun _ _ => .bind ih fun _ _ => .pure trivial

theorem safe_lambdaBody (hrest : Segments rest (h + 1) d) (params : List String) (start : Coord) :
    Safe (h + 1) (d + 1) rest (Watched.answerLambdaBody · params start token) := by
  unfold Watched.answerLambdaBody
  split
  · refine .bind calm_pop fun _ _ => .bind (calm_foldNode _) fun result _ => ?_
    refine .bind (calm_exit hrest.depth_pos) fun _ _ => ?_
    cases result with
    | error cause => exact safe_refused _
    | ok folded =>
      refine .bind (calm_internParams params) fun _ _ => .bind (calm_intern _ _) fun _ _ => ?_
      exact .bind (calm_pushNode _ _) fun _ _ => safe_taken hrest
  · exact safe_refused _

/-! ## All rules -/

theorem safe_owns {rule : Rule} (howns : rule.Owns h own) (hrest : Segments rest (h + 1) d) :
    Safe (h + own) d rest (rule.watched · token) := by
  cases rule with
  | sequence base stage =>
    obtain rfl := howns
    exact safe_sequence hrest stage
  | conditional =>
    obtain rfl := howns
    exact safe_conditional hrest
  | clauses base start =>
    obtain rfl := howns
    exact safe_clauses hrest start
  | clauseColon =>
    obtain rfl := howns
    exact safe_clauseColon hrest
  | clauseBody =>
    obtain rfl := howns
    exact safe_clauseBody hrest
  | ifCondition base start =>
    obtain ⟨rfl, rfl⟩ := howns
    exact safe_ifCondition hrest start
  | ifBranch base start =>
    obtain ⟨rfl, rfl⟩ := howns
    exact safe_ifBranch hrest start
  | elseBranch base start =>
    obtain ⟨rfl, rfl⟩ := howns
    exact safe_elseBranch hrest start
  | operand waiting =>
    obtain rfl := howns
    exact safe_operand token hrest waiting
  | operator waiting =>
    obtain rfl := howns
    exact safe_operator hrest waiting
  | unary pattern =>
    obtain rfl := howns
    exact safe_unary hrest pattern
  | negation start =>
    obtain rfl := howns
    exact safe_negation hrest start
  | primary pattern =>
    obtain rfl := howns
    exact safe_primary hrest pattern
  | interpolation base start =>
    obtain rfl := howns
    exact safe_interpolation hrest start
  | recordKey base start =>
    obtain rfl := howns
    exact safe_recordKey hrest start
  | recordColon base start =>
    obtain ⟨rfl, hown⟩ := howns
    exact safe_recordColon hrest hown start
  | recordValue base start =>
    obtain ⟨rfl, hown⟩ := howns
    exact safe_recordValue hrest hown start
  | list base pattern start =>
    obtain rfl := howns
    exact safe_list hrest pattern start
  | paren start =>
    obtain rfl := howns
    exact safe_paren hrest start
  | _ => exact howns.elim

/-- Whatever rule is next, it raises no alarm, and the rules that wait after its answer own the
stack. -/
theorem safe_watched {rule : Rule} (hsegments : Segments (rule :: rest) h d) :
    Safe h d rest (rule.watched · token) := by
  cases hsegments with
  | program => exact safe_program token
  | programEnd => exact safe_programEnd
  | owns own howns hrest => exact safe_owns howns hrest
  | expression hone hnone => exact safe_expression hone hnone
  | letName hrest => exact safe_letName hrest
  | letParams hrest => exact safe_letParams hrest _ _
  | letBody hrest => exact safe_letBody hrest _ _
  | lambdaParams hrest => exact safe_lambdaParams hrest _ _
  | lambdaBody hrest => exact safe_lambdaBody hrest _ _

end Rule

/-! ## Whole programs -/

namespace Parser

open Rule (Segments)

variable {lexicon : Lexicon} {limit : Nat} {p : Parser} {token : Token} {rule : Rule}
  {rest : List Rule} {b : Builder} {h d : Nat}

/-- The next rule answers a token while an alarm watches it. -/
def watched (alarm : Build Unit) (p : Parser) (token : Token) : Parser :=
  match p.rules with
  | [] => ⟨[], p.builder, true⟩
  | rule :: rest =>
    let (answer, b) := (rule.watched alarm token).run p.builder
    answered rest answer b

/-- One answer. It is the same for all alarms, that which does nothing included. -/
theorem answer_of_segments (hsegments : Segments (rule :: rest) h d) (hb : b.Stands h d)
    (token : Token) : ∃ answer c, (rule.answer token).run b = (answer, c) ∧ answer.Stands rest c ∧
      ∀ alarm, (rule.watched alarm token).run b = (answer, c) := by
  have hsafe : Rule.Safe h d rest (rule.watched · token) := Rule.safe_watched hsegments
  obtain ⟨answer, c, hrun, hanswer⟩ := hsafe b hb
  refine ⟨answer, c, ?_, hanswer, hrun⟩
  rw [← Rule.watched_silent]
  exact hrun (pure ())

/-- As long as parsing has not stopped, the rules that wait own the stack. -/
theorem Passes.segments (hp : Passes lexicon limit p) (hgoing : p.halted = false) :
    Segments p.rules p.builder.nodes.length p.builder.env.depth := by
  induction hp with
  | start => exact .program
  | @answer p hp hwaiting token ih =>
    have hsegments := ih hwaiting
    obtain ⟨rules, b, halted⟩ := p
    cases rules with
    | nil => cases hgoing
    | cons rule rest =>
      obtain ⟨answer, c, hrun, hanswer, -⟩ := answer_of_segments hsegments ⟨rfl, rfl⟩ token
      rw [answer_of_run hrun] at hgoing ⊢
      cases answer with
      | taken as more =>
        obtain ⟨_, _, ⟨rfl, rfl⟩, hmore⟩ := hanswer
        exact hmore
      | passed more =>
        obtain ⟨_, _, ⟨rfl, rfl⟩, hmore⟩ := hanswer
        exact hmore
      | refused error => cases hgoing

/-- Nothing waits, and only the outermost scope is open. -/
def IsEmpty (p : Parser) : Prop :=
  p.rules = [] ∧ p.builder.nodes = [] ∧ p.builder.env.depth = 1

theorem Passes.empty_of_going (hp : Passes lexicon limit p) (hgoing : p.halted = false)
    {root : NodeId} (hroot : p.root? = some root) : p.IsEmpty := by
  obtain ⟨-, ⟨hnone, -⟩ | ⟨hnil, -⟩⟩ := hp.going hgoing
  · cases hnone.symm.trans hroot
  · have hsegments := hp.segments hgoing
    rw [hnil] at hsegments
    generalize hlength : p.builder.nodes.length = height at hsegments
    generalize hdepth : p.builder.env.depth = depth at hsegments
    cases hsegments
    exact ⟨hnil, List.length_eq_zero_iff.1 hlength, hdepth⟩

/-- Nothing is left with the root. A token that is offered after it stops parsing and changes
nothing else, and a token that is refused sets no root. -/
theorem Passes.empty_of_root (hp : Passes lexicon limit p) {root : NodeId}
    (hroot : p.root? = some root) : p.IsEmpty := by
  cases hp with
  | start => cases hroot
  | @answer p hp hgoing token =>
    obtain ⟨hsound, ⟨hnone, hstacked⟩ | ⟨hnil, -⟩⟩ := hp.going hgoing
    · cases hhalted : (p.answer token).halted with
      | false => exact (hp.answer hgoing token).empty_of_going hhalted hroot
      | true =>
        obtain ⟨rules, b, halted⟩ := p
        cases rules with
        | nil => exact absurd rfl hstacked.ne_nil
        | cons rule rest =>
          cases hrun : (rule.answer token).run b with
          | mk answer c =>
          rw [answer_of_run hrun] at hroot hhalted
          cases answer with
          | taken as more => cases hhalted
          | passed more => cases hhalted
          | refused error =>
            obtain ⟨-, hnone, -⟩ := Rule.leaves_answer hstacked hsound hnone hrun
            cases hnone.symm.trans hroot
    · obtain ⟨rules, b, halted⟩ := p
      obtain rfl : rules = [] := hnil
      exact hp.empty_of_going hgoing hroot

/-- Wherever a parser has come, the answer to any token takes no node that is missing, splits the
stack at no height that is not reached, and makes conditionals of two or three parts: an alarm for
these makes no difference. With the root nothing is left that waits. -/
theorem Passes.never_underflows (hp : Passes lexicon limit p) :
    (p.halted = false → ∀ alarm token, p.watched alarm token = p.answer token) ∧
      ∀ root, p.root? = some root → p.IsEmpty := by
  refine ⟨fun hgoing alarm token => ?_, fun root hroot => hp.empty_of_root hroot⟩
  have hsegments := hp.segments hgoing
  obtain ⟨rules, b, halted⟩ := p
  cases rules with
  | nil => rfl
  | cons rule rest =>
    obtain ⟨answer, c, hrun, -, hwatched⟩ := answer_of_segments hsegments ⟨rfl, rfl⟩ token
    rw [answer_of_run hrun]
    show (match (rule.watched alarm token).run b with | (answer, b) => answered rest answer b) = _
    rw [hwatched]

/-- The end of the empty program. -/
theorem never_underflows_programEnd :
    let p := ((start .standard Runaway.defaultLimit).answer ⟨.endOfText, default⟩).answer
      ⟨.endOfText, default⟩
    p.rules = [.programEnd] ∧ ∀ alarm token, p.watched alarm token = p.answer token :=
  ⟨rfl, (Passes.never_underflows (.answer (.answer .start rfl _) rfl _)).1 rfl⟩

end Parser

end Juxta
