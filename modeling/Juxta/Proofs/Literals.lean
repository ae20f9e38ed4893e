import Mathlib.Tactic.FinCases
import Juxta.Proofs.Canonical
import Juxta.Proofs.Folding
import Juxta.Proofs.Scheduling
import Juxta.Proofs.Walk.Yields

/-!
# Operations on literals

An operation on literals is carried out while a program is folded. What is stored then is the text
of the value to which the operation evaluates. The text of a zero has no sign, but evaluation keeps
the sign of a negated zero, and takes no number with a sign for a position. So a list has an item at
a negated zero after folding only.

* `Node.Writes` : the literals that stand for numbers and flags;
* `Store.exists_value_of_computed?`, `Evaluator.reaches_of_computed?` : the value of an operation on
  literals;
* `Fold.gives_operation`, `fold_of_computed?` : an operation on literals;
* `fold_neg_of_isZero`, `Evaluator.reaches_nth_neg` : the sign of zero, in folding and evaluation;
* `Store.negatedZero` : an item of a list at a negated zero.
-/

namespace Juxta

/-! ## Values of operations -/

/-- The operators of arithmetic and comparison. -/
def Tag.operators : List Tag :=
  [.add, .sub, .mul, .div, .mod, .pow, .neg, .eq, .ne, .lt, .gt, .le, .ge]

/-- A literal is the text of a number, or a flag. -/
inductive Node.Writes : Node → Value → Prop where
  | number (n : Decimal) : Writes (.leaf .num (Number.format n)) (.number n)
  | flag (holds : Bool) : Writes ⟨.bool, [.flag holds]⟩ (.bool holds)

theorem Except.eq_ok_of_toOption {ε α : Type} {x : Except ε α} {a : α} (h : x.toOption = some a) :
    x = .ok a := by
  cases x with
  | error e => cases h
  | ok b =>
    cases h
    rfl

/-- The numbers that some values are. -/
theorem numbers_map (ns : List Decimal) : numbers (ns.map Value.number) = .ok ns := by
  induction ns with
  | nil => rfl
  | cons n rest ih =>
    show Except.map (n :: ·) (numbers (rest.map Value.number)) = _
    rw [ih]
    rfl

theorem not_isNaN_map (ns : List Decimal) : (ns.map Value.number).any Value.isNaN = false := by
  induction ns with
  | nil => rfl
  | cons n rest ih => exact ih

theorem arithmetic_of_apply {tag : Tag} {l r n : Decimal} (h : Number.apply tag l r = .ok n) :
    arithmetic tag ([l, r].map Value.number) = .value (.number n) := by
  unfold arithmetic
  rw [not_isNaN_map, numbers_map]
  dsimp only
  rw [h]
  rfl

theorem arithmetic_neg (n : Decimal) :
    arithmetic .neg ([n].map Value.number) = .value (.number n.neg) := by
  unfold arithmetic
  rw [not_isNaN_map, numbers_map]
  rfl

theorem comparison_of_compare? {tag : Tag} {l r : Decimal} {holds : Bool}
    (h : Number.compare? tag l r = some holds) :
    comparison tag ([l, r].map Value.number) = .value (.bool holds) := by
  unfold comparison
  rw [not_isNaN_map, numbers_map]
  dsimp only
  rw [h]
  rfl

namespace Store

variable {s : Store}

/-- A literal of a number is a leaf with its text. -/
theorem node?_of_literalNumber? {id : NodeId} {n : Decimal} (h : s.literalNumber? id = some n) :
    ∃ node, s.node? id = some node ∧ node.tag = .num ∧
      node.text?.bind Number.parse? = some n := by
  unfold literalNumber? at h
  split at h
  · rename_i node hnode
    obtain ⟨htag, hn⟩ := Option.ite_none_right_eq_some.1 h
    exact ⟨node, hnode, htag, hn⟩
  · cases h

/-- Only operators are carried out. -/
theorem mem_operators_of_computed? {tag : Tag} {operands : List NodeId} {result : Node}
    (h : s.computed? tag operands = some result) : tag ∈ Tag.operators := by
  unfold computed? at h
  split at h
  · simp only [bind, Option.bind_eq_some_iff] at h
    obtain ⟨l, -, r, -, h⟩ := h
    split at h
    case h_7 =>
      obtain ⟨holds, hc, -⟩ := Option.map_eq_some_iff.1 h
      unfold Number.compare? at hc
      split at hc
      case h_7 => cases hc
      all_goals decide
    all_goals decide
  · obtain ⟨rfl, -⟩ := Option.ite_none_right_eq_some.1 h
    decide
  · cases h

/-- The result of an operation on literals writes the value of the operation. -/
theorem exists_value_of_computed? {tag : Tag} {operands : List NodeId} {result : Node}
    (h : s.computed? tag operands = some result) :
    ∃ ns value, List.Forall₂ (fun id n => s.literalNumber? id = some n) operands ns ∧
      result.Writes value ∧ ∀ around, tag.operate around (ns.map Value.number) = .value value := by
  unfold computed? at h
  split at h
  · rename_i left right
    simp only [bind, Option.bind_eq_some_iff] at h
    obtain ⟨l, hl, r, hr, h⟩ := h
    have hoperands : List.Forall₂ (fun id n => s.literalNumber? id = some n) [left, right]
        [l, r] := .cons hl (.cons hr .nil)
    split at h
    case h_7 =>
      obtain ⟨holds, hc, rfl⟩ := Option.map_eq_some_iff.1 h
      refine ⟨[l, r], .bool holds, hoperands, .flag holds, fun around => ?_⟩
      have hvalue := comparison_of_compare? hc
      unfold Number.compare? at hc
      split at hc
      case h_7 => cases hc
      all_goals exact hvalue
    all_goals
      obtain ⟨n, hn, rfl⟩ := Option.map_eq_some_iff.1 h
      exact ⟨[l, r], .number n, hoperands, .number n,
        fun around => arithmetic_of_apply (Except.eq_ok_of_toOption hn)⟩
  · rename_i operand
    obtain ⟨rfl, h⟩ := Option.ite_none_right_eq_some.1 h
    obtain ⟨n, hn, rfl⟩ := Option.map_eq_some_iff.1 h
    exact ⟨[n], .number n.neg, .cons hn .nil, .number n.neg, fun around => arithmetic_neg n⟩
  · cases h

end Store

namespace Evaluator

variable {e : Evaluator} {context : Context}

/-- The value of a literal of a number. -/
theorem reaches_of_literalNumber? {id : NodeId} {n : Decimal}
    (h : e.store.literalNumber? id = some n) : e.walk.Reaches context id ([], .number n) := by
  obtain ⟨⟨tag, slots⟩, hnode, rfl, hn⟩ := Store.node?_of_literalNumber? h
  have hid : id.isAbsent = false := Store.isAbsent_of_node? hnode
  rw [Walk.reaches_iff, hid]
  refine ⟨_, hnode, ?_⟩
  have henter : e.walk.enter id ⟨.num, slots⟩ context = .done [] (.number n) := by
    obtain ⟨numeral, htext, hparse⟩ := Option.bind_eq_some_iff.1 hn
    show e.settle id [] (literal ⟨.num, slots⟩) = _
    unfold literal
    dsimp only
    rw [htext, Option.getD_some, hparse]
    rfl
  rw [henter, Walk.yields_done_iff]

/-- The operands of an operator are evaluated first. -/
theorem enter_operator {tag : Tag} (h : tag ∈ Tag.operators) (id : NodeId)
    (operands : List NodeId) :
    e.enter id (.branch tag operands) context =
      .gather operands context (.operands id tag context) := by
  have henter : e.enter id (.branch tag operands) context =
      .gather (Node.branch tag operands).children context (.operands id tag context) := by
    fin_cases h <;> rfl
  rw [henter, Node.children_branch]

/-- The value of an operation from those of its operands. -/
theorem reaches_operation {id : NodeId} {tag : Tag} {operands : List NodeId}
    {results : List (Walk.Result Value)} {r : Walk.Result Value}
    (hnode : e.store.node? id = some (.branch tag operands))
    (henter : e.enter id (.branch tag operands) context =
      .gather operands context (.operands id tag context))
    (hresults : List.Forall₂ (e.walk.Reaches context) operands results)
    (hr : e.walk.Yields (e.settle id (results.flatMap Prod.fst)
      (tag.operate ⟨e.data, context.arguments⟩ (results.map Prod.snd))) r) :
    e.walk.Reaches context id r := by
  rw [Walk.reaches_iff, Store.isAbsent_of_node? hnode]
  refine ⟨_, hnode, ?_⟩
  show e.walk.Yields (e.enter id (.branch tag operands) context) r
  rw [henter, Walk.yields_gather_iff]
  exact ⟨results, hresults, hr⟩

/-- The value of an operator from the numbers that its operands come to. -/
theorem reaches_operator {id : NodeId} {tag : Tag} {operands : List NodeId} {ns : List Decimal}
    {value : Value} (hnode : e.store.node? id = some (.branch tag operands))
    (htag : tag ∈ Tag.operators)
    (hns : List.Forall₂ (fun id n => e.walk.Reaches context id ([], .number n)) operands ns)
    (hvalue : tag.operate ⟨e.data, context.arguments⟩ (ns.map Value.number) = .value value) :
    e.walk.Reaches context id ([], value) := by
  have hresults : List.Forall₂ (e.walk.Reaches context) operands
      (ns.map fun n => ([], .number n)) := List.forall₂_map_right_iff.2 hns
  have hfound : (ns.map fun n => (([], .number n) : Walk.Result Value)).flatMap Prod.fst = [] := by
    simp
  have hvalues : (ns.map fun n => (([], .number n) : Walk.Result Value)).map Prod.snd =
      ns.map Value.number := by
    simp
  refine reaches_operation hnode (enter_operator htag id operands) hresults ?_
  rw [hfound, hvalues, hvalue]
  exact (Walk.yields_done_iff _ _ _ _).2 rfl

/-- What folding stores for an operation on literals writes the value of the operation. -/
theorem reaches_of_computed? {id : NodeId} {tag : Tag} {operands : List NodeId} {result : Node}
    (hnode : e.store.node? id = some (.branch tag operands))
    (h : e.store.computed? tag operands = some result) :
    ∃ value, result.Writes value ∧ e.walk.Reaches context id ([], value) := by
  obtain ⟨ns, value, hoperands, hwrites, hvalue⟩ := Store.exists_value_of_computed? h
  exact ⟨value, hwrites, reaches_operator hnode (Store.mem_operators_of_computed? h)
    (hoperands.imp fun id n => reaches_of_literalNumber?) (hvalue _)⟩

end Evaluator

/-! ## Folding -/

namespace Fold

variable {s : Store}

theorem gives_rebuild (s : Store) (origin : NodeId) (tag : Tag) (children : List NodeId) :
    Gives s (rebuild origin tag children) (s.intern (.branch tag children) (s.coord? origin)).1
      (s.intern (.branch tag children) (s.coord? origin)).2 := rfl

/-- A node that is stored already is found again. -/
theorem gives_rebuild_stored {id : NodeId} {tag : Tag} {children : List NodeId}
    (h : s.node? id = some (.branch tag children)) (origin : NodeId) :
    Gives s (rebuild origin tag children) id s := by
  have hrun := gives_rebuild s origin tag children
  rwa [Store.intern_of_node? h] at hrun

/-- The result of an operation on literals is stored. -/
theorem gives_operation {tag : Tag} {operands : List NodeId} {result : Node}
    (h : s.computed? tag operands = some result) (origin : NodeId) :
    Gives s (operation origin tag operands) (s.intern result none).1 (s.intern result none).2 := by
  unfold operation
  refine (gives_get s).bind ?_
  rw [h]
  rfl

/-- Any other operation is stored with what its operands have become. -/
theorem gives_operation_of_none {tag : Tag} {operands : List NodeId}
    (h : s.computed? tag operands = none) (origin : NodeId) :
    Gives s (operation origin tag operands)
      (s.intern (.branch tag operands) (s.coord? origin)).1
      (s.intern (.branch tag operands) (s.coord? origin)).2 := by
  unfold operation
  refine (gives_get s).bind ?_
  rw [h]
  exact gives_rebuild s origin tag operands

end Fold

namespace Descent

open Fold

variable {d : Descent} {s t u : Store} {id folded : NodeId} {node : Node}

/-- A child that is there is folded as a sequence. -/
theorem gives_child (hnode : s.node? id = some node) (h : Gives s (d.below [id]) [folded] t) :
    Gives s (d.child id) folded t := by
  unfold child
  rw [Store.isAbsent_of_node? hnode]
  exact h.bind (gives_pure t _)

theorem gives_children_cons {rest others : List NodeId} (h : Gives s (d.child id) folded t)
    (k : Gives t (d.children rest) others u) :
    Gives s (d.children (id :: rest)) (folded :: others) u :=
  h.bind (k.bind (gives_pure u _))

/-- A conditional whose condition is a literal is folded to one of its branches. -/
theorem gives_conditional {condition yes no folded' : NodeId} {truth : Bool}
    (hcondition : Gives s (d.child condition) folded t)
    (htruth : t.literalTruth? (t.unwrap folded) = some truth)
    (hpresent : (if truth then yes else no).isAbsent = false)
    (hbranch : Gives t (d.child (if truth then yes else no)) folded' u) (id : NodeId) :
    Gives s (d.conditional id (.branch .ifThen [condition, yes, no])) (u.unwrap folded') u := by
  unfold conditional
  refine hcondition.bind ((gives_get t).bind ?_)
  rw [htruth]
  show Gives t (if (if truth then yes else no).isAbsent then _ else _) _ u
  rw [hpresent]
  exact hbranch.bind (gives_pure u _)

/-- A term that takes no others. -/
theorem gives_term_single {stand : Stand} {take : Nat → Fold (List NodeId × Nat)}
    (hnode : s.node? id = some node) (hlt : id.index < d.bound)
    (htag : node.tag ≠ .ident ∧ node.tag ≠ .lambda ∧ node.tag ≠ .paren)
    (h : Gives s (d.single id node) folded t) :
    Gives s (d.term stand take id) (folded, 0) t := by
  unfold term
  refine (gives_get s).bind ?_
  rw [hnode]
  dsimp only
  rw [if_neg (Nat.not_le_of_lt hlt)]
  split
  · rename_i hident
    exact absurd hident htag.1
  · rename_i hlambda
    exact absurd hlambda htag.2.1
  · rename_i hparen
    exact absurd hparen htag.2.2
  · exact h.bind (gives_pure t _)

/-- A term and those after it. -/
theorem gives_terms_cons {stand : Stand} {rest others : List NodeId} {count taken more : Nat}
    (h : Gives s (d.term stand (fun count => d.terms rest .argument count 0) id) (folded, taken) t)
    (k : Gives t (d.terms rest stand count taken) (others, more) u) :
    Gives s (d.terms (id :: rest) stand (count + 1) 0) (folded :: others, 1 + taken + more) u := by
  unfold terms
  exact h.bind (k.bind (gives_pure u _))

end Descent

section

open Fold

variable {s t : Store} {env : Environment} {bound : Nat} {id folded : NodeId} {node : Node}
  {inside : (name : String) → (parent : Option Nat) → List Word → NodeId → Fold NodeId}

/-- A node that takes no terms, in a sequence of its own. -/
theorem gives_foldSequence (hnode : s.node? id = some node) (hid : id.index ≤ bound)
    (htag : node.tag ≠ .ident ∧ node.tag ≠ .lambda ∧ node.tag ≠ .paren)
    (h : Gives s (Descent.single ⟨env, bound + 1, foldSequence env inside bound, inside⟩ id node)
      folded t) : Gives s (foldSequence env inside (bound + 1) [id]) [folded] t := by
  have hlt : id.index < bound + 1 := Nat.lt_succ_of_le hid
  unfold foldSequence
  refine Gives.bind (a := ([folded], 1)) ?_ (gives_pure t _)
  exact (Descent.gives_term_single hnode hlt htag h).bind (gives_pure t _)

theorem gives_literal {n : Decimal} (h : s.literalNumber? id = some n) (hid : id.index ≤ bound) :
    Gives s (foldSequence env inside (bound + 1) [id]) [id] s := by
  obtain ⟨⟨tag, slots⟩, hnode, rfl, -⟩ := Store.node?_of_literalNumber? h
  exact gives_foldSequence hnode hid ⟨nofun, nofun, nofun⟩ (gives_pure s id)

/-- Literals are folded to themselves. -/
theorem gives_children {operands : List NodeId} {ns : List Decimal}
    (h : List.Forall₂ (fun id n => s.literalNumber? id = some n) operands ns)
    (hbound : ∀ operand ∈ operands, operand.index < bound) :
    Gives s (Descent.children ⟨env, bound + 1, foldSequence env inside bound, inside⟩ operands)
      operands s := by
  induction h with
  | nil => exact gives_pure s []
  | @cons operand n rest ns hfirst _ ih =>
    obtain ⟨hlt, hrest⟩ := List.forall_mem_cons.1 hbound
    obtain ⟨node, hnode, -⟩ := Store.node?_of_literalNumber? hfirst
    obtain ⟨below, rfl⟩ := Nat.exists_eq_add_one_of_ne_zero (Nat.ne_zero_of_lt hlt)
    have hfolded : Gives s (foldSequence env inside (below + 1) [operand]) [operand] s :=
      gives_literal hfirst (Nat.le_of_lt_succ hlt)
    exact Descent.gives_children_cons (Descent.gives_child hnode hfolded) (ih hrest)

/-- An operation on literals, in a sequence of its own. -/
theorem gives_operator {tag : Tag} {operands : List NodeId} {result : Node}
    (hnode : s.node? id = some (.branch tag operands)) (hid : id.index ≤ bound)
    (hlt : ∀ operand ∈ operands, operand.index < bound)
    (h : s.computed? tag operands = some result) :
    Gives s (foldSequence env inside (bound + 1) [id]) [(s.intern result none).1]
      (s.intern result none).2 := by
  obtain ⟨ns, -, hoperands, -⟩ := Store.exists_value_of_computed? h
  have htag := Store.mem_operators_of_computed? h
  have hsingle : Descent.single ⟨env, bound + 1, foldSequence env inside bound, inside⟩ id
      (.branch tag operands) = (do
        let folded ← Descent.children
          ⟨env, bound + 1, foldSequence env inside bound, inside⟩
          (Node.branch tag operands).children
        Fold.operation id tag folded) := by
    fin_cases htag <;> rfl
  refine gives_foldSequence hnode hid ?_ ?_
  · show tag ≠ .ident ∧ tag ≠ .lambda ∧ tag ≠ .paren
    fin_cases htag <;> decide
  · rw [hsingle, Node.children_branch]
    exact (gives_children hoperands hlt).bind (gives_operation h id)

/-- A node by itself. -/
theorem gives_fold (hnode : s.node? id = some node)
    (h : ∀ inside, Gives s (foldSequence env inside (id.index + 1) [id]) [folded] t) :
    Gives s (fold env id) folded t := by
  have hid := Store.isAbsent_of_node? hnode
  unfold fold
  cases env.room <;>
    · unfold foldWithin
      rw [hid]
      exact (h _).bind (gives_pure t _)

/-- An operation on literals is folded to its result. -/
theorem fold_of_computed? (hs : s.Grounded) {tag : Tag} {operands : List NodeId} {result : Node}
    (hnode : s.node? id = some (.branch tag operands))
    (h : s.computed? tag operands = some result) :
    Gives s (fold env id) (s.intern result none).1 (s.intern result none).2 := by
  have hlt := hs id _ hnode
  rw [Node.children_branch] at hlt
  exact gives_fold hnode fun _ => gives_operator hnode (Nat.le_refl _) hlt h

end

/-! ## The sign of zero -/

theorem Decimal.trimTo_zero (scale : Nat) : Decimal.trimTo 0 scale = (0, 0) := by
  induction scale with
  | zero => rfl
  | succ scale ih => simpa [Decimal.trimTo] using ih

/-- All zeros have one text, whatever their signs and scales. -/
theorem Number.format_of_isZero {n : Decimal} (h : n.isZero = true) : Number.format n = "0" := by
  have hmantissa : n.mantissa = 0 := beq_iff_eq.1 h
  have htrim : n.trim = .zero := by
    unfold Decimal.trim
    simp [hmantissa, Decimal.trimTo_zero, Decimal.zero]
  unfold Number.format
  rw [htrim]
  rfl

/-- No number is a position after it has got a sign, not even zero. -/
theorem Value.position?_neg {n : Decimal} (h : n.negative = false) :
    (Value.number n.neg).position? = none := by
  simp [position?, toDecimal?, Decimal.neg, h]

/-- A negated zero is folded to a zero without a sign. -/
theorem fold_neg_of_isZero {s : Store} (hs : s.Grounded) (env : Environment) {id operand : NodeId}
    {n : Decimal} (hnode : s.node? id = some (.branch .neg [operand]))
    (hn : s.literalNumber? operand = some n) (hzero : n.isZero = true) :
    Fold.Gives s (fold env id) (s.intern (.leaf .num "0") none).1
      (s.intern (.leaf .num "0") none).2 := by
  refine fold_of_computed? hs hnode ?_
  show (s.literalNumber? operand).map _ = _
  rw [hn, Option.map_some, Number.format_of_isZero (show n.neg.isZero = true from hzero)]

namespace Evaluator

variable {e : Evaluator} {context : Context} {id place container operand : NodeId}
  {n : Decimal} {items : List Value} {first found : List Diagnostic}

/-- The negation of a literal. -/
theorem reaches_neg (hnode : e.store.node? id = some (.branch .neg [operand]))
    (hn : e.store.literalNumber? operand = some n) :
    e.walk.Reaches context id ([], .number n.neg) := by
  refine reaches_operation hnode rfl (.cons (reaches_of_literalNumber? hn) .nil) ?_
  show e.walk.Yields (e.settle id [] (arithmetic .neg ([n].map Value.number))) _
  rw [arithmetic_neg]
  exact (Walk.yields_done_iff _ _ _ _).2 rfl

/-- The item at a position that is a number. -/
theorem reaches_nth (hnode : e.store.node? id = some (.branch .nth [place, container]))
    (hplace : e.walk.Reaches context place (first, .number n))
    (hcontainer : e.walk.Reaches context container (found, .list items)) {r : Walk.Result Value}
    (hr : e.walk.Yields (e.settle id (first ++ found)
      ((Value.list items).nth (.number n))) r) : e.walk.Reaches context id r := by
  refine reaches_operation hnode rfl (.cons hplace (.cons hcontainer .nil)) ?_
  have hfound : [(first, Value.number n), (found, .list items)].flatMap Prod.fst =
      first ++ found := by
    simp
  rw [hfound]
  exact hr

/-- Evaluation finds no item at a negated number, not even at minus zero. -/
theorem reaches_nth_neg (hnode : e.store.node? id = some (.branch .nth [place, container]))
    (hplace : e.store.node? place = some (.branch .neg [operand]))
    (hn : e.store.literalNumber? operand = some n) (hsign : n.negative = false)
    (hcontainer : e.walk.Reaches context container (found, .list items)) :
    e.walk.Reaches context id (found ++ [.at? "NTH expects a position, found a number."
      (e.store.coord? id) .evaluation], .null) := by
  refine reaches_nth hnode (reaches_neg hplace hn) hcontainer ?_
  unfold Value.nth
  dsimp only
  rw [Value.position?_neg hsign]
  exact (Walk.yields_done_iff _ _ _ _).2 rfl

/-- Evaluation finds the first item at zero. -/
theorem reaches_nth_zero {item : Value}
    (hnode : e.store.node? id = some (.branch .nth [place, container]))
    (hplace : e.walk.Reaches context place (first, .number .zero))
    (hcontainer : e.walk.Reaches context container (found, .list (item :: items))) :
    e.walk.Reaches context id (first ++ found, item) := by
  refine reaches_nth hnode hplace hcontainer ?_
  exact (Walk.yields_done_iff _ _ _ _).2 rfl

end Evaluator

/-! ## A negated zero as a position -/

/-- The list that holds zero, and its items at minus zero and at zero. -/
def Store.negatedZero : Store :=
  ((((empty.push (.leaf .num "0") none (by simp [empty])).push (.branch .list [⟨1⟩]) none
    (by simp [empty, push, Node.branch, Node.leaf])).push (.branch .neg [⟨1⟩]) none
    (by simp [empty, push, Node.branch, Node.leaf])).push (.branch .nth [⟨3⟩, ⟨2⟩]) none
    (by simp [empty, push, Node.branch, Node.leaf])).push (.branch .nth [⟨1⟩, ⟨2⟩]) none
    (by simp [empty, push, Node.branch, Node.leaf])

/-- Folding takes the sign from the position. -/
theorem fold_negatedZero (env : Environment) :
    Fold.Gives .negatedZero (fold env ⟨4⟩) ⟨5⟩ .negatedZero := by
  have hone : Store.negatedZero.node? ⟨1⟩ = some (.leaf .num "0") := rfl
  have hlist : Store.negatedZero.node? ⟨2⟩ = some (.branch .list [⟨1⟩]) := rfl
  have hneg : Store.negatedZero.node? ⟨3⟩ = some (.branch .neg [⟨1⟩]) := rfl
  have hnth : Store.negatedZero.node? ⟨4⟩ = some (.branch .nth [⟨3⟩, ⟨2⟩]) := rfl
  have hitem : Store.negatedZero.node? ⟨5⟩ = some (.branch .nth [⟨1⟩, ⟨2⟩]) := rfl
  refine gives_fold hnth fun inside => ?_
  refine gives_foldSequence hnth (Nat.le_refl 4) (by decide) ?_
  have hplace : Fold.Gives .negatedZero (foldSequence env inside 4 [⟨3⟩]) [⟨1⟩] .negatedZero := by
    have hfolded : Fold.Gives .negatedZero (foldSequence env inside 4 [⟨3⟩])
        [(Store.negatedZero.intern (.leaf .num "0") none).1]
        (Store.negatedZero.intern (.leaf .num "0") none).2 :=
      gives_operator hneg (Nat.le_refl 3) (by decide) rfl
    rwa [Store.intern_of_node? hone] at hfolded
  have hcontainer : Fold.Gives .negatedZero (foldSequence env inside 4 [⟨2⟩]) [⟨2⟩]
      .negatedZero := by
    refine gives_foldSequence hlist (Nat.le_succ 2) (by decide) ?_
    have hitems : Fold.Gives .negatedZero (foldSequence env inside 3 [⟨1⟩]) [⟨1⟩] .negatedZero :=
      gives_literal (n := .zero) rfl (Nat.le_succ 1)
    refine hitems.bind ?_
    have hbuilt := Fold.gives_rebuild .negatedZero ⟨2⟩ .list [⟨1⟩]
    rwa [Store.intern_of_node? hlist] at hbuilt
  refine (Descent.gives_children_cons (Descent.gives_child hneg hplace)
    (Descent.gives_children_cons (Descent.gives_child hlist hcontainer)
      (Fold.gives_pure _ _))).bind ?_
  have hbuilt : Fold.Gives .negatedZero (Fold.operation ⟨4⟩ .nth [⟨1⟩, ⟨2⟩])
    (Store.negatedZero.intern (.branch .nth [⟨1⟩, ⟨2⟩]) none).1
    (Store.negatedZero.intern (.branch .nth [⟨1⟩, ⟨2⟩]) none).2 :=
    Fold.gives_operation_of_none rfl ⟨4⟩
  rwa [Store.intern_of_node? hitem] at hbuilt

/-- Before folding there is no item, and a diagnostic; afterwards there is the first one. -/
theorem walk_ne_fold_negatedZero :
    Fold.Gives .negatedZero (fold (.ofLexicon .bare 8) ⟨4⟩) ⟨5⟩ .negatedZero ∧
      ∀ scheduling,
        (Evaluator.walk ⟨.negatedZero, .null, 8, .empty⟩).run scheduling 20 ⟨4⟩ .global =
            .finished [.at? "NTH expects a position, found a number." none .evaluation] .null ∧
          (Evaluator.walk ⟨.negatedZero, .null, 8, .empty⟩).run scheduling 20 ⟨5⟩ .global =
            .finished [] (.number .zero) := by
  refine ⟨fold_negatedZero _, fun scheduling => ?_⟩
  cases scheduling <;> exact ⟨rfl, rfl⟩

end Juxta
