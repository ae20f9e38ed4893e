import Juxta.Grammar.Answer
import Juxta.Proofs.FormedFolding
import Juxta.Proofs.Grammar.Builder

/-!
# Parsing builds well-formed nodes

What a rule finds on the stack is what the rules before it have left there. Most rules take nodes of
any kind; clauses, fields and their keys, and the bodies of lambdas are of one kind each.

* `Known` : what is known of a node that waits;
* `Builder.Formed` : builders whose nodes are well-formed, with what is known of those that wait;
* `Rule.Takes`, `Rule.gives`, `Waits` : the nodes that belong to a rule and those that it leaves,
  and rules that wait above nodes of the right kinds;
* `Build.Lays` : steps that keep a builder well-formed; one lemma `Build.lays_…` for each;
* `Rule.builds_answer` : whatever a rule answers to a token, all nodes are well-formed, and the
  rules that wait then are above nodes of the right kinds.
-/

namespace Juxta

/-! ## What waits -/

/-- What is known of a node that waits: its kind, or only that it is stored. -/
abbrev Known := Option Tag

/-- A node of which something is known. -/
def Known.Of (s : Store) (id : NodeId) : Known → Prop
  | none => s.Present id
  | some tag => s.tag? id = some tag

namespace Known

variable {s t : Store} {id : NodeId} {known : Known}

theorem Of.extend (h : known.Of s id) (he : s.Extends t) : known.Of t id := by
  cases known with
  | none => exact Store.Present.extend h he
  | some tag => exact he.tag?_of_some h

theorem Of.present (h : known.Of s id) : s.Present id := by
  cases known with
  | none => exact h
  | some tag => exact Store.present_of_tag? h

/-- All nodes of which something is known are stored. -/
theorem allPresent {ids : List NodeId} {knowns : List Known}
    (h : List.Forall₂ (fun id known => Known.Of s id known) ids knowns) : s.AllPresent ids := by
  induction h with
  | nil => exact List.forall_mem_nil _
  | cons hid _ ih => exact List.forall_mem_cons.2 ⟨Of.present hid, ih⟩

/-- Nodes that are all of one kind. -/
theorem tags_of_replicate {ids : List NodeId} {tag : Tag} {count : Nat}
    (h : List.Forall₂ (fun id known => Known.Of s id known) ids (List.replicate count (some tag))) :
    ∀ id ∈ ids, s.tag? id = some tag := by
  induction count generalizing ids with
  | zero =>
    cases h
    exact List.forall_mem_nil _
  | succ count ih =>
    cases h with
    | cons hid hrest => exact List.forall_mem_cons.2 ⟨hid, ih hrest⟩

end Known

/-- Builders whose nodes are well-formed. What waits and what has a name is stored. -/
structure Builder.Formed (waiting : List Known) (b : Builder) : Prop where
  store : b.store.Formed
  env : b.env.Formed b.store
  nodes : List.Forall₂ (fun id known => Known.Of b.store id known) b.nodes waiting

/-! ## Rules that wait -/

namespace Rule

/-- The nodes that belong to a rule when it is its turn, the last one first, above a height. What
expressions leave is known to `Waits`. -/
def Takes (height : Nat) (own : List Known) : Rule → Prop
  | .sequence base _ | .interpolation base _ | .list base _ _ => base = height
  | .recordKey base _ => base = height ∧ ∃ count, own = List.replicate count (some .binding)
  | .recordColon base _ =>
    base = height ∧ ∃ count, own = some .str :: List.replicate count (some .binding)
  | .recordValue base _ =>
    base = height ∧ ∃ value count, own = value :: some .str :: List.replicate count (some .binding)
  | .clauses base _ =>
    base = height ∧ ∃ count scrutinee, own = List.replicate count (some .clause) ++ [scrutinee]
  | .ifCondition base _ => base = height ∧ own.length = 1
  | .ifBranch base _ => base = height ∧ own.length = 2
  | .elseBranch base _ => base = height ∧ own.length = 3
  | .operand waiting => own = List.replicate waiting.length none
  | .operator waiting => own = List.replicate (waiting.length + 1) none
  | .programEnd | .letBody _ _ | .clauseColon | .negation _ | .paren _ => ∃ only, own = [only]
  | .clauseBody => ∃ body pattern, own = [body, pattern]
  | .lambdaBody _ _ => own = [some .exprs]
  | .program | .letName | .letParams _ _ | .conditional | .unary _ | .primary _
  | .lambdaParams _ _ => own = []
  | .expression => False

/-- What a rule leaves on the stack. -/
def gives : Rule → List Known
  | .sequence _ _ => [some .exprs]
  | .clauseColon | .clauseBody => [some .clause]
  | .program | .programEnd | .letName | .letParams _ _ | .letBody _ _ => []
  | _ => [none]

end Rule

/-- Rules wait above nodes of the right kinds. Only an expression may leave a node or none, as it
may be a definition. -/
inductive Waits : List Rule → List Known → Prop where
  | nil : Waits [] []
  | rule {rule : Rule} {rest : List Rule} (own below : List Known)
      (h : rule.Takes below.length own) (hrest : Waits rest (rule.gives ++ below)) :
      Waits (rule :: rest) (own ++ below)
  | expression {rest : List Rule} {below : List Known} (hone : Waits rest (none :: below))
      (hnone : Waits rest below) : Waits (.expression :: rest) below

/-! ## Steps of building -/

namespace Build

variable {α β : Type} {s : Store} {waiting before after : List Known}

/-- A step that changes what waits, and only adds well-formed nodes to a store that has those
of `s`. What it returns satisfies a condition together with the new store. -/
def Lays (s : Store) (before after : List Known) (step : Build α) (post : Store → α → Prop) :
    Prop :=
  ∀ b : Builder, s.Extends b.store → b.Formed before →
    b.store.Extends (step.run b).2.store ∧ (step.run b).2.Formed after ∧
      post (step.run b).2.store (step.run b).1

theorem Lays.bind {middle : List Known} {step : Build α} {next : α → Build β}
    {P : Store → α → Prop} {Q : Store → β → Prop} (h : Lays s before middle step P)
    (k : ∀ t a, s.Extends t → P t a → Lays t middle after (next a) Q) :
    Lays s before after (step >>= next) Q := by
  intro b hs hb
  obtain ⟨he, hmid, hP⟩ := h b hs hb
  obtain ⟨he', hend, hQ⟩ := k _ (step.run b).1 (hs.trans he) hP (step.run b).2 (.refl _) hmid
  exact ⟨he.trans he', hend, hQ⟩

theorem Lays.pure {a : α} {post : Store → α → Prop} (h : ∀ t, s.Extends t → post t a) :
    Lays s waiting waiting (Pure.pure a) post :=
  fun b hs hb => ⟨.refl _, hb, h b.store hs⟩

theorem lays_get : Lays s waiting waiting (get : Build Builder) fun t b => b.env.Formed t :=
  fun _ _ hb => ⟨.refl _, hb, hb.env⟩

/-- A change that has to do neither with the nodes nor with the stack. -/
theorem lays_modify {f : Builder → Builder} (hstore : ∀ b, (f b).store = b.store)
    (hnodes : ∀ b, (f b).nodes = b.nodes)
    (henv : ∀ b, s.Extends b.store → b.Formed waiting → (f b).env.Formed b.store) :
    Lays s waiting waiting (modify f : Build Unit) Whatever := by
  intro b hs hb
  refine ⟨(hstore b).symm ▸ .refl _, ⟨(hstore b).symm ▸ hb.store, ?_, ?_⟩, trivial⟩
  · show (f b).env.Formed (f b).store
    exact (hstore b).symm ▸ henv b hs hb
  · show List.Forall₂ _ (f b).nodes waiting
    rw [hnodes]
    exact (hstore b).symm ▸ hb.nodes

/-! ## The stack -/

theorem lays_height :
    Lays s waiting waiting height fun _ count => count = waiting.length :=
  fun _ _ hb => ⟨.refl _, hb, hb.nodes.length_eq⟩

theorem lays_push (known : Known) {id : NodeId} (hid : known.Of s id) :
    Lays s waiting (known :: waiting) (push id) Whatever :=
  fun _ hs hb => ⟨.refl _, ⟨hb.store, hb.env, .cons (hid.extend hs) hb.nodes⟩, trivial⟩

theorem lays_pop : Lays s (known :: waiting) waiting pop fun t id => known.Of t id := by
  intro b hs hb
  obtain ⟨id, rest, hid, hrest, hnodes⟩ := List.forall₂_cons_right_iff.1 hb.nodes
  have hrun : pop.run b = (id, { b with nodes := rest }) := by
    unfold pop
    rw [StateT.run_modifyGet, hnodes]
    rfl
  rw [hrun]
  exact ⟨.refl _, ⟨hb.store, hb.env, hrest⟩, hid⟩

/-- What waits above a height is given out in the order in which it came. -/
theorem lays_split (own below : List Known) :
    Lays s (own ++ below) below (split below.length) fun t ids =>
      List.Forall₂ (fun id known => Known.Of t id known) ids own.reverse := by
  intro b hs hb
  have hcount : b.nodes.length - below.length = own.length := by
    rw [hb.nodes.length_eq, List.length_append]
    exact Nat.add_sub_cancel _ _
  have hrun : (split below.length).run b =
      ((b.nodes.take own.length).reverse, { b with nodes := b.nodes.drop own.length }) := by
    unfold split
    rw [StateT.run_modifyGet]
    dsimp only
    rw [hcount]
    rfl
  rw [hrun]
  exact ⟨.refl _, ⟨hb.store, hb.env, List.forall₂_drop_append _ own below hb.nodes⟩,
    List.forall₂_reverse_iff.2 (List.forall₂_take_append _ own below hb.nodes)⟩

/-! ## Nodes -/

theorem lays_intern {node : Node} (hn : node.Formed s) (coord : Option Coord) :
    Lays s waiting waiting (intern node coord) fun t id => t.node? id = some node := by
  intro b hs hb
  have he := b.store.extends_intern node coord
  exact ⟨he, ⟨hb.store.intern (hn.extend hs) coord, hb.env.extend he,
    hb.nodes.imp fun _ _ hid => hid.extend he⟩, b.store.node?_intern node coord⟩

/-- A node of which its kind is known. -/
theorem lays_pushNode {node : Node} (hn : node.Formed s) (coord : Option Coord) :
    Lays s waiting (some node.tag :: waiting) (pushNode node coord) Whatever :=
  .bind (lays_intern hn coord) fun _ _ _ hid => lays_push (some _) (Store.tag?_of_node? hid)

/-- A node of which nothing is known but that it is stored. -/
theorem lays_pushTerm {node : Node} (hn : node.Formed s) (coord : Option Coord) :
    Lays s waiting (none :: waiting) (pushNode node coord) Whatever :=
  .bind (lays_intern hn coord) fun _ _ _ hid => lays_push none ⟨_, hid⟩

theorem lays_pushBranch {tag : Tag} {children : List NodeId}
    (hn : (Node.branch tag children).Formed s) (coord : Option Coord) :
    Lays s waiting (some tag :: waiting) (pushBranch tag children coord) Whatever :=
  .bind lays_get fun _ _ ht _ => lays_pushNode (hn.extend ht) _

theorem lays_pushBranchTerm {tag : Tag} {children : List NodeId}
    (hn : (Node.branch tag children).Formed s) (coord : Option Coord) :
    Lays s waiting (none :: waiting) (pushBranch tag children coord) Whatever :=
  .bind lays_get fun _ _ ht _ => lays_pushTerm (hn.extend ht) _

theorem lays_pushConcat {parts : List NodeId} (hp : s.AllPresent parts) (coord : Option Coord) :
    Lays s waiting (none :: waiting) (pushConcat parts coord) Whatever :=
  .bind (lays_intern (.row (.inr rfl) hp) _) fun _ _ _ hlist =>
    lays_pushTerm (.operation rfl (List.forall_mem_singleton.2 ⟨_, hlist⟩)) _

/-! ## Scopes and folding -/

theorem lays_addWord {word : Word} (hw : word.kind.Formed s) :
    Lays s waiting waiting (addWord word) Whatever :=
  lays_modify (fun _ => rfl) (fun _ => rfl) fun _ hs hb => hb.env.addWord (hw.extend hs)

theorem lays_enter (name : String) : Lays s waiting waiting (enter name) Whatever := by
  intro b hs hb
  unfold enter
  rw [StateT.run_modifyGet]
  split
  · rename_i entered he
    exact ⟨.refl _, ⟨hb.store, hb.env.enter he, hb.nodes⟩, trivial⟩
  · exact ⟨.refl _, hb, trivial⟩

theorem lays_exit : Lays s waiting waiting exit Whatever :=
  lays_modify (fun _ => rfl) (fun _ => rfl) fun _ _ hb => hb.env.exit

theorem lays_report (error : SyntaxError) : Lays s waiting waiting (report error) Whatever :=
  lays_modify (fun _ => rfl) (fun _ => rfl) fun _ _ hb => hb.env

/-- Folding fails, or its result may stand for the node. -/
theorem lays_foldNode {id : NodeId} (hid : s.Present id) :
    Lays s waiting waiting (foldNode id) fun t result =>
      ∀ folded, result = .ok folded → s.Replaces id t folded := by
  intro b hs hb
  obtain ⟨he, hf, hpost⟩ := forms_fold hb.env (hid.extend hs) b.store (.refl _) hb.store
  exact ⟨he, ⟨hf, hb.env.extend he, hb.nodes.imp fun _ _ h => h.extend he⟩,
    fun folded hfolded => (hpost folded hfolded).of_extends hs⟩

end Build

/-! ## Answers -/

/-- An answer after which the rules that wait are above nodes of the right kinds. -/
def Answer.Continues (rest : List Rule) (b : Builder) : Answer → Prop
  | .taken _ more | .passed more => ∃ waiting, Waits (more ++ rest) waiting ∧ b.Formed waiting
  | .refused _ => True

namespace Rule

open Build

variable {s : Store} {token : Token} {rest : List Rule} {waiting own below : List Known}

/-- A step from nodes that wait to an answer after which the rules may go on. -/
def Builds (s : Store) (waiting : List Known) (rest : List Rule) (step : Build Answer) : Prop :=
  ∀ b : Builder, s.Extends b.store → b.Formed waiting →
    (step.run b).2.store.Formed ∧ (step.run b).1.Continues rest (step.run b).2

theorem Builds.bind {α : Type} {after : List Known} {step : Build α} {next : α → Build Answer}
    {P : Store → α → Prop} (h : Lays s waiting after step P)
    (k : ∀ t a, s.Extends t → P t a → Builds t after rest (next a)) :
    Builds s waiting rest (step >>= next) := by
  intro b hs hb
  obtain ⟨he, hmid, hP⟩ := h b hs hb
  exact k _ (step.run b).1 (hs.trans he) hP (step.run b).2 (.refl _) hmid

theorem builds_taken {as : TokenClass} {more : List Rule} (h : Waits (more ++ rest) waiting) :
    Builds s waiting rest (pure (.taken as more)) := fun _ _ hb => ⟨hb.store, _, h, hb⟩

theorem builds_passed {more : List Rule} (h : Waits (more ++ rest) waiting) :
    Builds s waiting rest (pure (.passed more)) := fun _ _ hb => ⟨hb.store, _, h, hb⟩

theorem builds_refused (error : SyntaxError) :
    Builds s waiting rest (pure (.refused error)) := fun _ _ hb => ⟨hb.store, trivial⟩

/-- A sequence that begins. -/
theorem lays_opened :
    Lays s waiting waiting opened fun _ rule => rule = .sequence waiting.length .start :=
  .bind lays_height fun _ _ _ hbase => .pure fun _ _ => hbase ▸ rfl

/-- A token after which a sequence begins. -/
theorem builds_opened {as : TokenClass} {others : List Rule}
    (h : Waits (others ++ rest) (some .exprs :: waiting)) :
    Builds s waiting rest (do return .taken as ((← opened) :: others)) :=
  .bind lays_opened fun _ _ _ hrule => hrule ▸ builds_taken (.rule [] waiting rfl h)

/-! ## Sequences and definitions -/

theorem lays_closeSequence (own below : List Known) :
    Lays s (own ++ below) (some .exprs :: below) (closeSequence below.length) Whatever :=
  .bind (lays_split own below) fun _ _ _ hids =>
    lays_pushBranch (.row (.inl rfl) (Known.allPresent hids)) none

theorem builds_sequence (hrest : Waits rest (some .exprs :: below)) (own : List Known)
    (stage : SequenceStage) :
    Builds s (own ++ below) rest (answerSequence below.length stage token) := by
  unfold answerSequence
  split
  · split
    · exact builds_taken (.rule own below rfl hrest)
    · exact .bind (lays_closeSequence own below) fun _ _ _ _ => builds_taken hrest
  · split
    · exact .bind (lays_closeSequence own below) fun _ _ _ _ => builds_passed hrest
    · exact builds_passed
        (.expression (.rule (none :: own) below rfl hrest) (.rule own below rfl hrest))

theorem builds_letName (hrest : Waits rest waiting) :
    Builds s waiting rest (answerLetName token) := by
  unfold answerLetName
  split
  · rename_i name _
    refine .bind (lays_addWord trivial) fun _ _ _ _ => ?_
    refine .bind (lays_enter name) fun _ result _ _ => ?_
    cases result with
    | error cause => exact builds_refused _
    | ok _ => exact builds_taken (.rule [] waiting rfl hrest)
  · exact builds_refused _

/-- Parameters stand for themselves. -/
theorem lays_addParam (param : String) (offset : Nat) :
    Lays s waiting waiting (addWord (.value param .absent offset)) Whatever :=
  lays_addWord nofun

theorem builds_letParams (hrest : Waits rest waiting) (name : String) (params : List String) :
    Builds s waiting rest (answerLetParams name params token) := by
  unfold answerLetParams
  split
  · exact .bind (lays_addParam _ _) fun _ _ _ _ => builds_taken (.rule [] waiting rfl hrest)
  · exact builds_opened (.rule [some .exprs] waiting ⟨_, rfl⟩ hrest)
  · exact builds_refused _

theorem builds_letBody (hrest : Waits rest waiting) (name : String) (params : List String)
    (only : Known) : Builds s (only :: waiting) rest (answerLetBody name params token) := by
  unfold answerLetBody
  refine .bind lays_pop fun t body _ hbody => ?_
  refine .bind (lays_foldNode hbody.present) fun u result _ hfolded => ?_
  refine .bind lays_exit fun v _ hv _ => ?_
  cases result with
  | error cause => exact builds_refused _
  | ok folded =>
    have hpresent := (hfolded folded rfl).present
    refine .bind (lays_modify (fun _ => rfl) (fun _ => rfl) fun b hs hb => hb.env.define ?_ _ _)
      fun _ _ _ _ => builds_passed hrest
    have hb' := hpresent.extend (hv.trans hs)
    split
    · exact fun _ => hb'.unwrap hb.store
    · exact hb'

/-! ## Cases and conditionals -/

theorem builds_conditional (hrest : Waits rest (none :: waiting)) :
    Builds s waiting rest (answerConditional token) := by
  unfold answerConditional
  split
  · refine .bind lays_height fun _ _ _ hbase => hbase ▸ builds_opened ?_
    exact .rule [some .exprs] waiting ⟨rfl, 0, _, rfl⟩ hrest
  · refine .bind lays_height fun _ _ _ hbase => hbase ▸ builds_opened ?_
    exact .rule [some .exprs] waiting ⟨rfl, rfl⟩ hrest
  · exact builds_passed (.rule [] waiting rfl hrest)

theorem builds_clauses (hrest : Waits rest (none :: below)) (count : Nat) (scrutinee : Known)
    (start : Coord) :
    Builds s ((List.replicate count (some .clause) ++ [scrutinee]) ++ below) rest
      (answerClauses below.length start token) := by
  have hmore : Waits (.clauses below.length start :: rest)
      ((List.replicate (count + 1) (some .clause) ++ [scrutinee]) ++ below) :=
    .rule _ below ⟨rfl, count + 1, scrutinee, rfl⟩ hrest
  unfold answerClauses
  split
  · exact builds_taken (.rule [] _ rfl (.rule [none] _ ⟨_, rfl⟩ hmore))
  · refine .bind (lays_split _ below) fun t ids _ hids => ?_
    rw [List.reverse_append, List.reverse_replicate] at hids
    obtain ⟨id, clauses, hid, hclauses, rfl⟩ := List.forall₂_cons_right_iff.1 hids
    have hcase := Node.Formed.case hid.present (Known.tags_of_replicate hclauses)
    exact .bind (lays_pushBranchTerm hcase _) fun _ _ _ _ => builds_taken hrest
  · exact builds_refused _

theorem builds_clauseColon (hrest : Waits rest (some .clause :: below)) (pattern : Known) :
    Builds s (pattern :: below) rest (answerClauseColon token) := by
  unfold answerClauseColon
  split
  · exact builds_opened (.rule [some .exprs, pattern] below ⟨_, _, rfl⟩ hrest)
  · exact builds_refused _

theorem builds_clauseBody (hrest : Waits rest (some .clause :: below)) (body pattern : Known) :
    Builds s (body :: pattern :: below) rest answerClauseBody := by
  unfold answerClauseBody
  refine .bind lays_pop fun t body _ hbody => .bind lays_pop fun u pattern hu hpattern => ?_
  have hclause : (Node.branch .clause [pattern, body]).Formed u :=
    .operation rfl (List.forall_mem_cons.2
      ⟨hpattern.present, List.forall_mem_singleton.2 (hbody.present.extend hu)⟩)
  exact .bind (lays_pushBranch hclause none) fun _ _ _ _ => builds_passed hrest

/-- A condition with one branch or with two. The second one is absent if it is missing. -/
theorem builds_closeIf (hrest : Waits rest (none :: below)) (start : Coord)
    (hlength : own.length = 2 ∨ own.length = 3) :
    Builds s (own ++ below) rest (closeIf below.length start token) := by
  unfold closeIf
  refine .bind (lays_split own below) fun t parts _ hparts => ?_
  have hall := Known.allPresent hparts
  have hcount : parts.length = own.length := by rw [hparts.length_eq, List.length_reverse]
  rw [← hcount] at hlength
  rcases hlength with htwo | hthree
  · obtain ⟨condition, yes, rfl⟩ := List.length_eq_two.1 htwo
    obtain ⟨hcondition, hyes⟩ := List.forall_mem_cons.1 hall
    have hchoice := Node.Formed.choice hcondition (List.forall_mem_singleton.1 hyes) (.inl rfl)
    exact .bind (lays_pushBranchTerm hchoice _) fun _ _ _ _ => builds_taken hrest
  · obtain ⟨condition, yes, no, rfl⟩ := List.length_eq_three.1 hthree
    obtain ⟨hcondition, hbranches⟩ := List.forall_mem_cons.1 hall
    obtain ⟨hyes, hno⟩ := List.forall_mem_cons.1 hbranches
    have hchoice :=
      Node.Formed.choice hcondition hyes (.inr (List.forall_mem_singleton.1 hno))
    exact .bind (lays_pushBranchTerm hchoice _) fun _ _ _ _ => builds_taken hrest

theorem builds_ifCondition (hrest : Waits rest (none :: below)) (start : Coord)
    (hlength : own.length = 1) :
    Builds s (own ++ below) rest (answerIfCondition below.length start token) := by
  unfold answerIfCondition
  split
  · exact builds_opened
      (.rule (some .exprs :: own) below ⟨rfl, congrArg (· + 1) hlength⟩ hrest)
  · exact builds_refused _

theorem builds_ifBranch (hrest : Waits rest (none :: below)) (start : Coord)
    (hlength : own.length = 2) :
    Builds s (own ++ below) rest (answerIfBranch below.length start token) := by
  unfold answerIfBranch
  split
  · exact builds_opened
      (.rule (some .exprs :: own) below ⟨rfl, congrArg (· + 1) hlength⟩ hrest)
  · exact builds_closeIf hrest start (.inl hlength)
  · exact builds_refused _

theorem builds_elseBranch (hrest : Waits rest (none :: below)) (start : Coord)
    (hlength : own.length = 3) :
    Builds s (own ++ below) rest (answerElseBranch below.length start token) := by
  unfold answerElseBranch
  split
  · exact builds_closeIf hrest start (.inr hlength)
  · exact builds_refused _

/-! ## Operations -/

theorem lays_reduce (op : BinOp) (right left : Known) :
    Lays s (right :: left :: waiting) (none :: waiting) (reduce op) Whatever := by
  unfold reduce
  refine .bind lays_pop fun t right _ hright => .bind lays_pop fun u left hu hleft => ?_
  refine .bind lays_get fun v _ hv _ => ?_
  have hboth : v.AllPresent [left, right] := List.forall_mem_cons.2
    ⟨hleft.present.extend hv, List.forall_mem_singleton.2 (hright.present.extend (hu.trans hv))⟩
  split
  · exact lays_pushConcat hboth _
  · rename_i hop
    exact lays_pushBranchTerm (.operation (BinOp.operands?_tag hop) hboth) _

/-- The operands of some operators, of which there is one more than there are operators. -/
abbrev operandsOf (ops : List BinOp) : List Known := List.replicate (ops.length + 1) none

/-- Operators are reduced with their operands. None is left if all of them bind tight enough. -/
theorem formed_reduceAll (least : Nat) (ops : List BinOp) {b : Builder}
    (hb : b.Formed (operandsOf ops ++ below)) :
    ((reduceAll least ops).run b).2.Formed
        (operandsOf ((reduceAll least ops).run b).1 ++ below) ∧
      (least = 0 → ((reduceAll least ops).run b).1 = []) := by
  induction ops generalizing b with
  | nil => exact ⟨hb, fun _ => rfl⟩
  | cons op ops ih =>
    unfold reduceAll
    split
    · rename_i hlt
      exact ⟨hb, fun hzero => absurd (hzero ▸ hlt) (Nat.not_lt_zero _)⟩
    · obtain ⟨-, hmid, -⟩ := lays_reduce op none none b (.refl _) hb
      exact ih hmid

theorem builds_operand (hrest : Waits rest (none :: below)) (ops : List BinOp) :
    Builds s (List.replicate ops.length none ++ below) rest ((Rule.operand ops).answer token) :=
  builds_passed (.rule [] _ rfl (.rule (operandsOf ops) below rfl hrest))

theorem builds_operator (hrest : Waits rest (none :: below)) (ops : List BinOp) :
    Builds s (operandsOf ops ++ below) rest (answerOperator ops token) := by
  intro b _ hb
  unfold answerOperator
  split
  · rename_i op _
    obtain ⟨hend, -⟩ := formed_reduceAll op.precedence ops hb
    exact ⟨hend.store, _, .rule (operandsOf _) below rfl hrest, hend⟩
  · obtain ⟨hend, hnone⟩ := formed_reduceAll 0 ops hb
    rw [hnone rfl] at hend
    exact ⟨hend.store, _, hrest, hend⟩

theorem builds_unary (hrest : Waits rest (none :: waiting)) (pattern : Bool) :
    Builds s waiting rest (answerUnary pattern token) := by
  unfold answerUnary
  split
  · exact builds_taken (.rule [] waiting rfl (.rule [none] waiting ⟨_, rfl⟩ hrest))
  · exact builds_passed (.rule [] waiting rfl hrest)

theorem builds_negation (hrest : Waits rest (none :: below)) (operand : Known) (start : Coord) :
    Builds s (operand :: below) rest (answerNegation start) := by
  unfold answerNegation
  refine .bind lays_pop fun t operand _ hoperand => .bind lays_get fun u _ hu _ => ?_
  have hneg : (Node.branch .neg [operand]).Formed u :=
    .operation rfl (List.forall_mem_singleton.2 (hoperand.present.extend hu))
  exact .bind (lays_pushBranchTerm hneg _) fun _ _ _ _ => builds_passed hrest

/-! ## Primaries -/

/-- A name leaves a node: one that it stands for, or a leaf. -/
theorem lays_readName (name : String) (pattern : Bool) (location : Location) :
    Lays s waiting (none :: waiting) (readName name pattern location) Whatever := by
  have left : ∀ (t : Store) (as : TokenClass), Lays t waiting (none :: waiting) (do
      pushLeaf .ident name location.coord
      return as) Whatever := fun t as =>
    .bind (lays_pushTerm (.leaf (.inr (.inr rfl))) _) fun _ _ _ _ => .pure fun _ _ => trivial
  unfold readName
  split
  · exact .bind (lays_pushTerm (.bare (.inr rfl)) _) fun _ _ _ _ => .pure fun _ _ => trivial
  refine .bind lays_get fun t b _ henv => ?_
  split
  · rename_i id _ _ hfind
    have hid : id.isAbsent = false → t.Present id := Environment.AllKinds.find? henv hfind
    split
    · rename_i hpresent
      have hpush : Lays t waiting (none :: waiting) (push id) Whatever :=
        lays_push none (hid (Bool.not_eq_true' _ ▸ hpresent))
      exact .bind hpush fun _ _ _ _ => .pure fun _ _ => trivial
    · exact left t _
  · exact left t _
  · exact .bind (lays_report _) fun u _ _ _ => left u _

/-- A text that waits is known as one. -/
theorem lays_pushText (text : String) (coord : Coord) :
    Lays s waiting (some .str :: waiting) (pushLeaf .str text coord) Whatever :=
  lays_pushNode (.leaf (.inr (.inl rfl))) _

theorem builds_interpolation (hrest : Waits rest (none :: below)) (own : List Known)
    (start : Coord) :
    Builds s (own ++ below) rest (answerInterpolation below.length start token) := by
  unfold answerInterpolation
  split
  · refine .bind (lays_pushText _ _) fun _ _ _ _ => builds_opened ?_
    exact .rule (some .exprs :: some .str :: own) below rfl hrest
  · refine .bind (lays_pushText _ _) fun _ _ _ _ => ?_
    refine .bind (lays_split (some .str :: own) below) fun _ _ _ hids => ?_
    exact .bind (lays_pushConcat (Known.allPresent hids) _) fun _ _ _ _ => builds_taken hrest
  · exact builds_refused _

theorem builds_recordKey (hrest : Waits rest (none :: below)) (count : Nat) (start : Coord) :
    Builds s (List.replicate count (some .binding) ++ below) rest
      (answerRecordKey below.length start token) := by
  have hcolon : Waits (.recordColon below.length start :: rest)
      ((some .str :: List.replicate count (some .binding)) ++ below) :=
    .rule _ below ⟨rfl, count, rfl⟩ hrest
  unfold answerRecordKey
  split
  · refine .bind (lays_split _ below) fun t fields _ hfields => ?_
    rw [List.reverse_replicate] at hfields
    have hrecord := Node.Formed.record (Known.tags_of_replicate hfields)
    exact .bind (lays_pushBranchTerm hrecord _) fun _ _ _ _ => builds_taken hrest
  · exact .bind (lays_pushText _ _) fun _ _ _ _ => builds_taken hcolon
  · exact .bind (lays_pushText _ _) fun _ _ _ _ => builds_taken hcolon
  · exact builds_refused _

theorem builds_recordColon (hrest : Waits rest (none :: below)) (count : Nat) (start : Coord) :
    Builds s ((some .str :: List.replicate count (some .binding)) ++ below) rest
      (answerRecordColon below.length start token) := by
  have hvalue : Waits (.recordValue below.length start :: rest)
      ((some .exprs :: some .str :: List.replicate count (some .binding)) ++ below) :=
    .rule _ below ⟨rfl, _, count, rfl⟩ hrest
  unfold answerRecordColon
  split
  · exact builds_opened hvalue
  · exact builds_refused _

theorem builds_recordValue (hrest : Waits rest (none :: below)) (value : Known) (count : Nat)
    (start : Coord) :
    Builds s ((value :: some .str :: List.replicate count (some .binding)) ++ below) rest
      (answerRecordValue below.length start token) := by
  have hkey : Waits (.recordKey below.length start :: rest)
      (List.replicate (count + 1) (some .binding) ++ below) :=
    .rule _ below ⟨rfl, count + 1, rfl⟩ hrest
  unfold answerRecordValue
  refine .bind lays_pop fun t value _ hvalue => .bind lays_pop fun u key hu hkey' => ?_
  have hbinding := Node.Formed.binding hkey' (hvalue.present.extend hu)
  refine .bind (lays_pushBranch hbinding none) fun _ _ _ _ => ?_
  split
  · exact builds_taken hkey
  · exact builds_passed hkey

theorem builds_list (hrest : Waits rest (none :: below)) (own : List Known) (pattern : Bool)
    (start : Coord) :
    Builds s (own ++ below) rest (answerList below.length pattern start token) := by
  have hlist : ∀ own, Waits (.list below.length pattern start :: rest) (own ++ below) :=
    fun own => .rule own below rfl hrest
  unfold answerList
  split
  · refine .bind (lays_split own below) fun t ids _ hids => ?_
    have hrow : (Node.branch .list ids).Formed t := .row (.inr rfl) (Known.allPresent hids)
    exact .bind (lays_pushBranchTerm hrow _) fun _ _ _ _ => builds_taken hrest
  · exact builds_taken (hlist own)
  · refine builds_passed ?_
    cases pattern with
    | true => exact .rule [] _ rfl (hlist (none :: own))
    | false => exact .expression (hlist (none :: own)) (hlist own)

theorem builds_paren (hrest : Waits rest (none :: below)) (inner : Known) (start : Coord) :
    Builds s (inner :: below) rest (answerParen start token) := by
  unfold answerParen
  split
  · refine .bind lays_pop fun t inner _ hinner => ?_
    have hparen : (Node.branch .paren [inner]).Formed t :=
      .operation rfl (List.forall_mem_singleton.2 hinner.present)
    exact .bind (lays_pushBranchTerm hparen _) fun _ _ _ _ => builds_taken hrest
  · exact builds_refused _

theorem builds_primary (hrest : Waits rest (none :: waiting)) (pattern : Bool) :
    Builds s waiting rest (answerPrimary pattern token) := by
  have node : ∀ {node : Node} {coord : Option Coord} {as : TokenClass}, node.Formed s →
      Builds s waiting rest (do
        pushNode node coord
        return .taken as []) := fun hn =>
    .bind (lays_pushTerm hn _) fun _ _ _ _ => builds_taken hrest
  unfold answerPrimary
  dsimp only
  split
  · exact node (.leaf (.inl rfl))
  · exact node (.leaf (.inr (.inl rfl)))
  · refine .bind lays_height fun _ _ _ hbase => .bind (lays_pushText _ _) fun _ _ _ _ => ?_
    exact hbase ▸ builds_opened (.rule [some .exprs, some .str] waiting rfl hrest)
  · exact node .flag
  · exact node .flag
  · exact node (.bare (.inl rfl))
  · exact .bind lays_height fun _ _ _ hbase =>
      builds_taken (.rule [] waiting ⟨hbase, 0, rfl⟩ hrest)
  · exact .bind lays_height fun _ _ _ hbase => builds_taken (.rule [] waiting hbase hrest)
  · exact builds_opened (.rule [some .exprs] waiting ⟨_, rfl⟩ hrest)
  · refine .bind (lays_enter _) fun _ result _ _ => ?_
    cases result with
    | error cause => exact builds_refused _
    | ok _ => exact builds_taken (.rule [] waiting rfl hrest)
  · exact .bind (lays_readName _ _ _) fun _ _ _ _ => builds_taken hrest
  · exact builds_refused _

/-! ## Lambdas -/

theorem builds_lambdaParams (hrest : Waits rest (none :: waiting)) (params : List String)
    (start : Coord) : Builds s waiting rest (answerLambdaParams params start token) := by
  unfold answerLambdaParams
  split
  · exact .bind (lays_addParam _ _) fun _ _ _ _ => builds_taken (.rule [] waiting rfl hrest)
  · exact builds_opened (.rule [some .exprs] waiting rfl hrest)
  · exact builds_refused _

theorem lays_internParams (params : List String) :
    Lays s waiting waiting (internParams params) fun t ids => t.Idents ids params := by
  induction params generalizing s with
  | nil => exact .pure fun _ _ => List.Forall₂.nil
  | cons param rest ih =>
    refine .bind (lays_intern (.leaf (.inr (.inr rfl))) _) fun t id _ hid => ?_
    refine .bind ih fun u ids hu hids => .pure fun v hv => ?_
    exact List.Forall₂.cons ((hu.trans hv).node?_of_some hid) (hids.extend hv)

theorem builds_lambdaBody (hrest : Waits rest (none :: waiting)) (params : List String)
    (start : Coord) :
    Builds s (some .exprs :: waiting) rest (answerLambdaBody params start token) := by
  unfold answerLambdaBody
  split
  · refine .bind lays_pop fun t body _ hbody => ?_
    refine .bind (lays_foldNode (Known.Of.present hbody)) fun u result _ hfolded => ?_
    refine .bind lays_exit fun v _ hv _ => ?_
    cases result with
    | error cause => exact builds_refused _
    | ok folded =>
      -- a sequence is folded to a sequence
      have htag := (hfolded folded rfl).tag .exprs (.inl rfl) hbody
      refine .bind (lays_internParams params) fun w ids hw hids => ?_
      refine .bind (lays_intern (.row (.inr rfl) hids.present) _) fun x list hx hlist => ?_
      have hlambda := Node.Formed.lambda hlist
        (fun param hm => hx.tag?_of_some (hids.tags param hm))
        ((hv.trans (hw.trans hx)).tag?_of_some htag)
      exact .bind (lays_pushTerm hlambda _) fun _ _ _ _ => builds_taken hrest
  · exact builds_refused _

/-! ## Programs -/

theorem builds_program (hrest : Waits rest waiting) :
    Builds s waiting rest (Rule.program.answer token) :=
  .bind lays_opened fun _ _ _ hrule => hrule ▸
    builds_passed (.rule [] waiting rfl (.rule [some .exprs] waiting ⟨_, rfl⟩ hrest))

theorem builds_programEnd (hrest : Waits rest below) (sequence : Known) :
    Builds s (sequence :: below) rest (answerProgramEnd token) := by
  unfold answerProgramEnd
  split
  · refine .bind lays_pop fun t sequence _ hsequence => ?_
    refine .bind (lays_foldNode hsequence.present) fun u result _ hfolded => ?_
    cases result with
    | error cause => exact builds_refused _
    | ok folded =>
      have hpresent := (hfolded folded rfl).present
      refine .bind lays_get fun v _ hv _ => ?_
      have hprog : (Node.branch .prog [folded]).Formed v :=
        .operation rfl (List.forall_mem_singleton.2 (hpresent.extend hv))
      refine .bind (lays_intern hprog _) fun w root _ _ => ?_
      exact .bind (lays_modify (fun _ => rfl) (fun _ => rfl) fun _ _ hb => hb.env)
        fun _ _ _ _ => builds_taken hrest
  · exact builds_refused _

theorem builds_expression (hone : Waits rest (none :: waiting)) (hnone : Waits rest waiting) :
    Builds s waiting rest (Rule.expression.answer token) := by
  show Builds s waiting rest (pure (if _ then _ else _))
  split
  · exact builds_taken (.rule [] waiting rfl hnone)
  · exact builds_passed (.rule [] waiting rfl hone)

/-! ## All rules -/

/-- Whatever a rule answers, the rules that wait then are above nodes of the right kinds. -/
theorem builds_answer {rule : Rule} (h : Waits (rule :: rest) waiting) :
    Builds s waiting rest (rule.answer token) := by
  cases h with
  | expression hone hnone => exact builds_expression hone hnone
  | rule own below h hrest =>
    cases rule with
    | program =>
      obtain rfl := h
      exact builds_program hrest
    | programEnd =>
      obtain ⟨only, rfl⟩ := h
      exact builds_programEnd hrest only
    | sequence base stage =>
      obtain rfl := h
      exact builds_sequence hrest own stage
    | expression => exact h.elim
    | letName =>
      obtain rfl := h
      exact builds_letName hrest
    | letParams name params =>
      obtain rfl := h
      exact builds_letParams hrest name params
    | letBody name params =>
      obtain ⟨only, rfl⟩ := h
      exact builds_letBody hrest name params only
    | conditional =>
      obtain rfl := h
      exact builds_conditional hrest
    | clauses base start =>
      obtain ⟨rfl, count, scrutinee, rfl⟩ := h
      exact builds_clauses hrest count scrutinee start
    | clauseColon =>
      obtain ⟨pattern, rfl⟩ := h
      exact builds_clauseColon hrest pattern
    | clauseBody =>
      obtain ⟨body, pattern, rfl⟩ := h
      exact builds_clauseBody hrest body pattern
    | ifCondition base start =>
      obtain ⟨rfl, hlength⟩ := h
      exact builds_ifCondition hrest start hlength
    | ifBranch base start =>
      obtain ⟨rfl, hlength⟩ := h
      exact builds_ifBranch hrest start hlength
    | elseBranch base start =>
      obtain ⟨rfl, hlength⟩ := h
      exact builds_elseBranch hrest start hlength
    | operand ops =>
      obtain rfl := h
      exact builds_operand hrest ops
    | operator ops =>
      obtain rfl := h
      exact builds_operator hrest ops
    | unary pattern =>
      obtain rfl := h
      exact builds_unary hrest pattern
    | negation start =>
      obtain ⟨operand, rfl⟩ := h
      exact builds_negation hrest operand start
    | primary pattern =>
      obtain rfl := h
      exact builds_primary hrest pattern
    | interpolation base start =>
      obtain rfl := h
      exact builds_interpolation hrest own start
    | recordKey base start =>
      obtain ⟨rfl, count, rfl⟩ := h
      exact builds_recordKey hrest count start
    | recordColon base start =>
      obtain ⟨rfl, count, rfl⟩ := h
      exact builds_recordColon hrest count start
    | recordValue base start =>
      obtain ⟨rfl, value, count, rfl⟩ := h
      exact builds_recordValue hrest value count start
    | list base pattern start =>
      obtain rfl := h
      exact builds_list hrest own pattern start
    | paren start =>
      obtain ⟨inner, rfl⟩ := h
      exact builds_paren hrest inner start
    | lambdaParams params start =>
      obtain rfl := h
      exact builds_lambdaParams hrest params start
    | lambdaBody params start =>
      obtain rfl := h
      exact builds_lambdaBody hrest params start

end Rule

end Juxta
