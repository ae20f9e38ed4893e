import Juxta.Proofs.FormedFolding

/-!
# Reduced nodes

What folding leaves: operations that cannot be carried out yet, conditions and cases that cannot be
decided yet, and parentheses that may still be needed.

* `Tag.IsOperation` : kinds of nodes that are folded with their operands;
* `Store.clauses`, `Store.chosen?` : the clauses of a case as they are stored, and the one that its
  scrutinee decides on;
* `Store.NeedsParens` : single results that keep their parentheses;
* `Store.Reduced` : nodes in which nothing is left to compute or to decide;
* `Store.Reduced.extend` : they stay so when other nodes are stored;
* `Store.Reduced.unwrap` : the only element of a sequence is reduced if the sequence is.
-/

namespace Juxta

/-- Kinds of nodes that are folded with their operands. -/
structure Tag.IsOperation (tag : Tag) : Prop where
  role : tag.role = .terms
  ne_exprs : tag ≠ .exprs
  ne_list : tag ≠ .list

/-- A name has its text in its only slot. -/
theorem Node.Formed.of_name {s : Store} {node : Node} (h : node.Formed s)
    (ht : node.tag = .ident) : ∃ name, node = .leaf .ident name := by
  obtain ⟨tag, slots⟩ := node
  cases ht
  cases h with
  | leaf => exact ⟨_, rfl⟩
  | operation h => cases h
  | bare h | row h => exact absurd h (by decide)

namespace Store

variable {s t : Store} {id : NodeId} {node : Node}

/-! ## What a larger store tells of the nodes of a smaller one -/

theorem Present.node?_extend (h : s.Present id) (he : s.Extends t) : t.node? id = s.node? id := by
  obtain ⟨node, hnode⟩ := h
  rw [hnode, he.node?_of_some hnode]

theorem Present.tag?_extend (h : s.Present id) (he : s.Extends t) : t.tag? id = s.tag? id := by
  unfold tag?
  rw [h.node?_extend he]

theorem Present.unwrap_extend (h : s.Present id) (he : s.Extends t) :
    t.unwrap id = s.unwrap id := by
  unfold Store.unwrap
  rw [h.node?_extend he]

theorem Present.literalTruth?_extend (h : s.Present id) (he : s.Extends t) :
    t.literalTruth? id = s.literalTruth? id := by
  unfold literalTruth?
  rw [h.node?_extend he]

theorem Present.literalNumber?_extend (h : s.Present id) (he : s.Extends t) :
    t.literalNumber? id = s.literalNumber? id := by
  unfold literalNumber?
  rw [h.node?_extend he]

theorem AllPresent.computed?_extend {operands : List NodeId} (h : s.AllPresent operands)
    (he : s.Extends t) (tag : Tag) : t.computed? tag operands = s.computed? tag operands := by
  unfold computed?
  split
  · rename_i left right
    rw [(h left List.mem_cons_self).literalNumber?_extend he,
      (h right (List.mem_cons_of_mem _ List.mem_cons_self)).literalNumber?_extend he]
  · rename_i operand
    rw [(h operand List.mem_cons_self).literalNumber?_extend he]
  · rfl

/-- No operation is carried out on a pattern and a body. -/
theorem computed?_clause (s : Store) (pattern body : NodeId) :
    s.computed? .clause [pattern, body] = none := by
  unfold computed?
  dsimp only
  cases s.literalNumber? pattern with
  | none => rfl
  | some _ => cases s.literalNumber? body <;> rfl

/-! ## Clauses -/

/-- The clauses of a case as they are stored. -/
def clauses (s : Store) (ids : List NodeId) : List Descent.Clause :=
  ids.filterMap fun id => (s.node? id).map fun clause => ⟨id, clause.child 0, clause.child 1⟩

theorem clauses_cons (h : s.node? id = some node) (rest : List NodeId) :
    s.clauses (id :: rest) = ⟨id, node.child 0, node.child 1⟩ :: s.clauses rest := by
  unfold clauses
  rw [List.filterMap_cons, h]
  rfl

/-- An id that stands for a literal. -/
def isLiteral (s : Store) (id : NodeId) : Bool :=
  match s.tag? id with
  | some tag => tag.isLiteral
  | none => false

/-- The clause that a case is decided for, if its scrutinee is a literal. -/
def chosen? (s : Store) (value : NodeId) (clauses : List Descent.Clause) : Option Descent.Clause :=
  if s.isLiteral value then Descent.decided? s value clauses else none

theorem Present.decide?_extend {value pattern : NodeId} (hv : s.Present value)
    (hp : s.Present pattern) (he : s.Extends t) :
    t.decide? value pattern = s.decide? value pattern := by
  unfold decide?
  rw [hv.node?_extend he, hp.node?_extend he]

theorem Present.chosen?_extend {value : NodeId} {clauses : List Descent.Clause}
    (hv : s.Present value) (hc : ∀ clause ∈ clauses, s.Present clause.pattern) (he : s.Extends t) :
    t.chosen? value clauses = s.chosen? value clauses := by
  have hdecided : Descent.decided? t value clauses = Descent.decided? s value clauses := by
    induction clauses with
    | nil => rfl
    | cons clause rest ih =>
      obtain ⟨hfirst, hrest⟩ := List.forall_mem_cons.1 hc
      unfold Descent.decided?
      rw [hv.decide?_extend hfirst he, ih hrest]
  unfold chosen? isLiteral
  rw [hv.tag?_extend he, hdecided]

/-- Which clause a case is decided for depends on the patterns alone. -/
theorem chosen?_eq_none_of_patterns {value : NodeId} {clauses clauses' : List Descent.Clause}
    (hp : clauses.map Descent.Clause.pattern = clauses'.map Descent.Clause.pattern)
    (h : s.chosen? value clauses = none) : s.chosen? value clauses' = none := by
  have hdecided : ∀ clauses clauses' : List Descent.Clause,
      clauses.map Descent.Clause.pattern = clauses'.map Descent.Clause.pattern →
      Descent.decided? s value clauses = none → Descent.decided? s value clauses' = none := by
    intro clauses clauses' hp h
    induction clauses generalizing clauses' with
    | nil =>
      rw [List.map_eq_nil_iff.1 hp.symm]
      rfl
    | cons clause rest ih =>
      obtain ⟨clause', rest', rfl, hfirst, hrest⟩ := List.map_eq_cons_iff.1 hp.symm
      unfold Descent.decided? at h ⊢
      rw [hfirst]
      split at h
      · cases h
      · exact ih rest' hrest.symm h
      · rfl
  unfold chosen? at h ⊢
  split at h
  · rename_i hliteral
    rw [if_pos hliteral]
    exact hdecided clauses clauses' hp h
  · rename_i hliteral
    exact if_neg hliteral

/-! ## Nodes -/

/-- Single results that keep their parentheses, as they could take terms again. -/
def NeedsParens (s : Store) (id : NodeId) : Prop :=
  s.tag? id = some .ident ∨ s.tag? id = some .exprs ∨ s.tag? id = some .paren

/-- Nodes in which nothing is left to compute or to decide. -/
inductive Reduced (s : Store) : NodeId → Prop where
  | scalar {id : NodeId} {node : Node} (h : s.node? id = some node)
      (ht : node.tag.role = .scalar) : Reduced s id
  | name {id : NodeId} {name : String} (h : s.node? id = some (.leaf .ident name)) : Reduced s id
  | row {id : NodeId} {tag : Tag} {ids : List NodeId} (h : s.node? id = some (.branch tag ids))
      (ht : tag = .exprs ∨ tag = .list) (hi : ∀ element ∈ ids, Reduced s element) : Reduced s id
  | paren {id sequence : NodeId} {ids : List NodeId}
      (h : s.node? id = some (.branch .paren [sequence]))
      (hs : s.node? sequence = some (.branch .exprs ids)) (hi : ∀ element ∈ ids, Reduced s element)
      (hk : ∀ only, ids = [only] → s.NeedsParens only) : Reduced s id
  | lambda {id list body : NodeId} (h : s.node? id = some (.branch .lambda [list, body]))
      (hb : Reduced s body) : Reduced s id
  | binding {id key value : NodeId} (h : s.node? id = some (.branch .binding [key, value]))
      (hv : Reduced s value) : Reduced s id
  | choice {id condition yes no : NodeId}
      (h : s.node? id = some (.branch .ifThen [condition, yes, no])) (hc : Reduced s condition)
      (hy : Reduced s yes) (hn : no ≠ .absent → Reduced s no)
      (ho : s.literalTruth? (s.unwrap condition) = none) : Reduced s id
  | clause {id pattern body : NodeId} (h : s.node? id = some (.branch .clause [pattern, body]))
      (hp : Reduced s pattern) (hb : Reduced s body) : Reduced s id
  | case {id scrutinee : NodeId} {ids : List NodeId}
      (h : s.node? id = some (.branch .case (scrutinee :: ids))) (hs : Reduced s scrutinee)
      (hc : ∀ clause ∈ ids, Reduced s clause) (ht : ∀ clause ∈ ids, s.tag? clause = some .clause)
      (ho : s.chosen? (s.unwrap scrutinee) (s.clauses ids) = none) : Reduced s id
  | operation {id : NodeId} {tag : Tag} {operands : List NodeId}
      (h : s.node? id = some (.branch tag operands)) (ht : tag.IsOperation)
      (hi : ∀ operand ∈ operands, Reduced s operand) (ho : s.computed? tag operands = none) :
      Reduced s id

/-- Nodes in which nothing is left to compute or to decide. -/
abbrev AllReduced (s : Store) (ids : List NodeId) : Prop := ∀ id ∈ ids, s.Reduced id

namespace Reduced

theorem present (h : s.Reduced id) : s.Present id := by
  cases h <;> exact ⟨_, by assumption⟩

theorem of_exprs (h : s.Reduced id) (hn : s.node? id = some node) (ht : node.tag = .exprs) :
    ∃ ids, node = .branch node.tag ids ∧ s.AllReduced ids := by
  have hr : node.tag.role = .terms := ht ▸ rfl
  cases h
  case row tag ids htag hi h =>
    obtain rfl := Option.some.inj (hn.symm.trans h)
    exact ⟨ids, rfl, hi⟩
  case operation htag hi ho h =>
    obtain rfl := Option.some.inj (hn.symm.trans h)
    exact absurd ht htag.ne_exprs
  all_goals cases role_inj hn (by assumption) hr (by first | assumption | rfl)

theorem of_clause (h : s.Reduced id) (hn : s.node? id = some node) (ht : node.tag = .clause) :
    ∃ pattern body, node = .branch .clause [pattern, body] ∧ s.Reduced pattern ∧
      s.Reduced body := by
  have hr : node.tag.role = .clause := ht ▸ rfl
  cases h
  case clause pattern body hp hb h => exact ⟨_, _, Option.some.inj (hn.symm.trans h), hp, hb⟩
  case row tag ids htag hi h =>
    obtain rfl := Option.some.inj (hn.symm.trans h)
    rcases htag with rfl | rfl <;> cases ht
  case operation htag hi ho h => cases role_inj hn h hr htag.role
  all_goals cases role_inj hn (by assumption) hr (by first | assumption | rfl)

/-- The element of a sequence that has only one, or the node itself. -/
theorem unwrap (h : s.Reduced id) : s.Reduced (s.unwrap id) :=
  unwrap_of_branches (fun _ hn ht => h.of_exprs hn ht) h

/-- The patterns of clauses. -/
theorem pattern_of_mem_clauses {ids : List NodeId} (h : s.AllReduced ids)
    (ht : ∀ id ∈ ids, s.tag? id = some .clause) :
    ∀ clause ∈ s.clauses ids, s.Reduced clause.pattern := by
  intro clause hm
  obtain ⟨id, hid, hclause⟩ := List.mem_filterMap.1 hm
  obtain ⟨node, hnode, rfl⟩ := Option.map_eq_some_iff.1 hclause
  have htag : node.tag = .clause :=
    Option.some.inj ((tag?_of_node? hnode).symm.trans (ht id hid))
  obtain ⟨pattern, body, rfl, hpattern, -⟩ := (h id hid).of_clause hnode htag
  exact hpattern

end Reduced

theorem AllPresent.clauses_extend {ids : List NodeId} (h : s.AllPresent ids) (he : s.Extends t) :
    t.clauses ids = s.clauses ids := by
  refine List.filterMap_congr fun id hm => ?_
  rw [(h id hm).node?_extend he]

theorem NeedsParens.extend (h : s.NeedsParens id) (he : s.Extends t) : t.NeedsParens id :=
  h.imp he.tag?_of_some (Or.imp he.tag?_of_some he.tag?_of_some)

theorem Reduced.extend (h : s.Reduced id) (he : s.Extends t) : t.Reduced id := by
  induction h with
  | scalar h ht => exact .scalar (he.node?_of_some h) ht
  | name h => exact .name (he.node?_of_some h)
  | row h ht _ ih => exact .row (he.node?_of_some h) ht ih
  | paren h hs _ hk ih =>
    exact .paren (he.node?_of_some h) (he.node?_of_some hs) ih fun only hone =>
      (hk only hone).extend he
  | lambda h _ ih => exact .lambda (he.node?_of_some h) ih
  | binding h _ ih => exact .binding (he.node?_of_some h) ih
  | choice h hc _ _ ho ihc ihy ihn =>
    refine .choice (he.node?_of_some h) ihc ihy ihn ?_
    rw [hc.present.unwrap_extend he, hc.unwrap.present.literalTruth?_extend he, ho]
  | clause h _ _ ihp ihb => exact .clause (he.node?_of_some h) ihp ihb
  | case h hs hc ht ho ihs ihc =>
    refine .case (he.node?_of_some h) ihs ihc (fun clause hm => he.tag?_of_some (ht clause hm)) ?_
    rw [hs.present.unwrap_extend he, AllPresent.clauses_extend (fun id hm => (hc id hm).present) he,
      hs.unwrap.present.chosen?_extend (fun clause hm =>
        (pattern_of_mem_clauses hc ht clause hm).present) he, ho]
  | operation h ht hi ho ih =>
    refine .operation (he.node?_of_some h) ht ih ?_
    rw [AllPresent.computed?_extend (fun id hm => (hi id hm).present) he, ho]

theorem AllReduced.extend {ids : List NodeId} (h : s.AllReduced ids) (he : s.Extends t) :
    t.AllReduced ids := fun id hm => (h id hm).extend he

end Store

end Juxta
