import Juxta.Proofs.Canonical
import Juxta.Proofs.Scopes

/-!
# Free names

The names that a node needs from outside. A lambda binds its parameters in its body; whatever else
occurs there has to come from where the lambda stands.

* `Store.Free` : a name that occurs outside of every lambda that has it among its parameters;
* `Store.Scoped` : nodes as parsing and folding make them, whose free names are among some names
  (`Store.Scoped.of_free`). Unlike `Store.Free` it speaks of what is missing, too: a node below one
  that is well formed is there;
* `Store.Scoped.mono`, `Store.Scoped.extend` : more names, and more nodes;
* `Store.Scoped.children`, `Store.Scoped.body`, … : what is known below a node.
-/

namespace Juxta

/-- What folding may expect of a node of some kind. -/
inductive Tag.Role where
  /-- It stands for itself. -/
  | scalar
  | name
  /-- All its children are terms, however many there are. -/
  | terms
  | paren | binding | clause | choice | case | lambda
deriving DecidableEq

def Tag.role : Tag → Tag.Role
  | .num | .str | .bool | .null | .wildcard => .scalar
  | .ident => .name
  | .paren => .paren
  | .binding => .binding
  | .clause => .clause
  | .ifThen => .choice
  | .case => .case
  | .lambda => .lambda
  | _ => .terms

/-- Some names together with those in a list. -/
def NamesWith (names : String → Prop) (more : List String) (name : String) : Prop :=
  names name ∨ name ∈ more

theorem NamesWith.mono {names names' : String → Prop} (h : ∀ name, names name → names' name)
    {more more' : List String} (hm : more ⊆ more') {name : String} :
    NamesWith names more name → NamesWith names' more' name :=
  Or.imp (h name) fun hin => hm hin

namespace Store

variable {s t : Store} {names names' : String → Prop} {id : NodeId} {node : Node}

/-! ## Occurrences of names -/

/-- A name that occurs in a node without being bound there. Parameters are not occurrences. -/
inductive Free (s : Store) (name : String) : NodeId → Prop where
  | ident {id : NodeId} {node : Node} : s.node? id = some node → node.tag = .ident →
      node.text? = some name → Free s name id
  | child {id child : NodeId} {node : Node} : s.node? id = some node → node.tag ≠ .lambda →
      child ∈ node.children → Free s name child → Free s name id
  | body {id : NodeId} {node : Node} : s.node? id = some node → node.tag = .lambda →
      name ∉ s.params id → Free s name (node.child 1) → Free s name id

theorem Free.isAbsent {name : String} (h : s.Free name id) : id.isAbsent = false := by
  cases h <;> exact isAbsent_of_node? (by assumption)

/-- Nodes as parsing and folding make them, with all free names among `names`. -/
inductive Scoped (s : Store) : (names : String → Prop) → NodeId → Prop where
  | scalar {names : String → Prop} {id : NodeId} {node : Node} (h : s.node? id = some node)
      (hr : node.tag.role = .scalar) (hc : node.children = []) : Scoped s names id
  | ident {names : String → Prop} {id : NodeId} {name : String}
      (h : s.node? id = some (.leaf .ident name)) (hn : names name) : Scoped s names id
  | terms {names : String → Prop} {id : NodeId} {tag : Tag} {children : List NodeId}
      (h : s.node? id = some (.branch tag children)) (hr : tag.role = .terms)
      (hc : ∀ child ∈ children, Scoped s names child) : Scoped s names id
  | paren {names : String → Prop} {id inner : NodeId}
      (h : s.node? id = some (.branch .paren [inner])) (hi : Scoped s names inner) :
      Scoped s names id
  | binding {names : String → Prop} {id key value : NodeId}
      (h : s.node? id = some (.branch .binding [key, value]))
      (hk : Scoped s (fun _ => False) key) (hv : Scoped s names value) : Scoped s names id
  | clause {names : String → Prop} {id pattern body : NodeId}
      (h : s.node? id = some (.branch .clause [pattern, body])) (hp : Scoped s names pattern)
      (hb : Scoped s names body) : Scoped s names id
  | choice {names : String → Prop} {id condition yes no : NodeId}
      (h : s.node? id = some (.branch .ifThen [condition, yes, no]))
      (hc : Scoped s names condition) (hy : yes.isAbsent = false → Scoped s names yes)
      (hn : no.isAbsent = false → Scoped s names no) : Scoped s names id
  | case {names : String → Prop} {id scrutinee : NodeId} {clauses : List NodeId}
      (h : s.node? id = some (.branch .case (scrutinee :: clauses)))
      (hs : Scoped s names scrutinee) (hc : ∀ clause ∈ clauses, Scoped s names clause)
      (ht : ∀ clause ∈ clauses, s.tag? clause = some .clause) : Scoped s names id
  | lambda {names : String → Prop} {id list body : NodeId}
      (h : s.node? id = some (.branch .lambda [list, body]))
      (hb : Scoped s (NamesWith names (s.params id)) body) : Scoped s names id

namespace Scoped

theorem node? (h : s.Scoped names id) : ∃ node, s.node? id = some node := by
  cases h <;> exact ⟨_, by assumption⟩

theorem isAbsent (h : s.Scoped names id) : id.isAbsent = false :=
  have ⟨_, hnode⟩ := h.node?
  isAbsent_of_node? hnode

theorem mono (h : s.Scoped names id) (hle : ∀ name, names name → names' name) :
    s.Scoped names' id := by
  induction h generalizing names' with
  | scalar h ht hc => exact .scalar h ht hc
  | ident h hn => exact .ident h (hle _ hn)
  | terms h ht _ ih => exact .terms h ht fun child hm => ih child hm hle
  | paren h _ ih => exact .paren h (ih hle)
  | binding h hk _ _ ih => exact .binding h hk (ih hle)
  | clause h _ _ ihp ihb => exact .clause h (ihp hle) (ihb hle)
  | choice h _ _ _ ihc ihy ihn =>
    exact .choice h (ihc hle) (fun ha => ihy ha hle) fun ha => ihn ha hle
  | case h _ _ ht ihs ihc => exact .case h (ihs hle) (fun clause hm => ihc clause hm hle) ht
  | lambda h _ ih => exact .lambda h (ih fun _ => NamesWith.mono hle (List.Subset.refl _))

end Scoped

/-! ## More nodes -/

theorem Extends.node?_of_some (h : s.Extends t) (hn : s.node? id = some node) :
    t.node? id = some node :=
  (h id (hn ▸ Option.some_ne_none node)).1.trans hn

theorem Extends.tag?_of_some (h : s.Extends t) {tag : Tag} (ht : s.tag? id = some tag) :
    t.tag? id = some tag := by
  obtain ⟨node, hnode, rfl⟩ := Option.map_eq_some_iff.1 ht
  unfold tag?
  rw [h.node?_of_some hnode]
  rfl

/-- A lambda keeps its parameters. -/
theorem Extends.params_subset (h : s.Extends t) (id : NodeId) : s.params id ⊆ t.params id := by
  intro param hm
  unfold params at hm ⊢
  split at hm
  · rename_i list hlist
    obtain ⟨node, hnode, hchild⟩ := Option.bind_eq_some_iff.1 hlist
    rw [h.node?_of_some hnode, Option.bind_some, h.node?_of_some hchild]
    obtain ⟨child, hc, htext⟩ := List.mem_filterMap.1 hm
    obtain ⟨leaf, hleaf, htext⟩ := Option.bind_eq_some_iff.1 htext
    refine List.mem_filterMap.2 ⟨child, hc, ?_⟩
    rw [h.node?_of_some hleaf]
    exact htext
  · cases hm

theorem Scoped.extend (h : s.Scoped names id) (he : s.Extends t) : t.Scoped names id := by
  induction h with
  | scalar h ht hc => exact .scalar (he.node?_of_some h) ht hc
  | ident h hn => exact .ident (he.node?_of_some h) hn
  | terms h ht _ ih => exact .terms (he.node?_of_some h) ht ih
  | paren h _ ih => exact .paren (he.node?_of_some h) ih
  | binding h _ _ ihk ihv => exact .binding (he.node?_of_some h) ihk ihv
  | clause h _ _ ihp ihb => exact .clause (he.node?_of_some h) ihp ihb
  | choice h _ _ _ ihc ihy ihn => exact .choice (he.node?_of_some h) ihc ihy ihn
  | case h _ _ ht ihs ihc =>
    exact .case (he.node?_of_some h) ihs ihc fun clause hm => he.tag?_of_some (ht clause hm)
  | lambda h _ ih =>
    exact .lambda (he.node?_of_some h)
      (ih.mono fun _ => NamesWith.mono (fun _ hin => hin) (he.params_subset _))

/-! ## What is below a node -/

/-- What holds of a node and, if it is a sequence, of those below it holds of the node unwrapped. -/
theorem unwrap_of_branches {P : NodeId → Prop}
    (hseq : ∀ node, s.node? id = some node → node.tag = .exprs →
      ∃ children, node = .branch node.tag children ∧ ∀ child ∈ children, P child)
    (h : P id) : P (s.unwrap id) := by
  unfold Store.unwrap
  split
  · rename_i only hn
    obtain ⟨children, hnode, hc⟩ := hseq _ hn rfl
    have hone := congrArg Node.children hnode
    rw [Node.children_branch] at hone
    exact hc only (hone ▸ List.mem_cons_self)
  · rename_i slot hnot hn
    obtain ⟨children, hnode, -⟩ := hseq _ hn rfl
    -- a branch has nothing but ids in its slots
    have hslots : [slot] = children.map Slot.node := congrArg Node.slots hnode
    obtain ⟨only, -, hslot⟩ := List.mem_map.1 (hslots ▸ List.mem_singleton_self slot)
    exact absurd hslot.symm (hnot only)
  · exact h

theorem role_inj {other : Node} (hn : s.node? id = some node) (ho : s.node? id = some other)
    {role role' : Tag.Role} (hr : node.tag.role = role) (hr' : other.tag.role = role') :
    role = role' := by
  rw [← hr, ← hr', Option.some.inj (hn.symm.trans ho)]

namespace Scoped

/-- What stands for itself needs no names. -/
theorem of_scalar (h : s.Scoped names id) (hn : s.node? id = some node)
    (hr : node.tag.role = .scalar) (names' : String → Prop) : s.Scoped names' id := by
  cases h
  case scalar _ hr hc h => exact .scalar h hr hc
  all_goals cases role_inj hn (by assumption) hr (by first | assumption | rfl)

theorem children_of_scalar (h : s.Scoped names id) (hn : s.node? id = some node)
    (hr : node.tag.role = .scalar) : node.children = [] := by
  cases h
  case scalar hr hc h => exact Option.some.inj (hn.symm.trans h) ▸ hc
  all_goals cases role_inj hn (by assumption) hr (by first | assumption | rfl)

theorem of_name (h : s.Scoped names id) (hn : s.node? id = some node)
    (hr : node.tag.role = .name) : ∃ name, node = .leaf .ident name ∧ names name := by
  cases h
  case ident name hname h => exact ⟨name, Option.some.inj (hn.symm.trans h), hname⟩
  all_goals cases role_inj hn (by assumption) hr (by first | assumption | rfl)

theorem of_terms (h : s.Scoped names id) (hn : s.node? id = some node)
    (hr : node.tag.role = .terms) :
    ∃ children, node = .branch node.tag children ∧ ∀ child ∈ children, s.Scoped names child := by
  cases h
  case terms tag children hr hc h =>
    obtain rfl := Option.some.inj (hn.symm.trans h)
    exact ⟨children, rfl, hc⟩
  all_goals cases role_inj hn (by assumption) hr (by first | assumption | rfl)

theorem of_paren (h : s.Scoped names id) (hn : s.node? id = some node)
    (hr : node.tag.role = .paren) :
    ∃ inner, node = .branch .paren [inner] ∧ s.Scoped names inner := by
  cases h
  case paren inner hi h => exact ⟨inner, Option.some.inj (hn.symm.trans h), hi⟩
  all_goals cases role_inj hn (by assumption) hr (by first | assumption | rfl)

theorem of_binding (h : s.Scoped names id) (hn : s.node? id = some node)
    (hr : node.tag.role = .binding) :
    ∃ key value, node = .branch .binding [key, value] ∧ s.Scoped (fun _ => False) key ∧
      s.Scoped names value := by
  cases h
  case binding key value hk hv h =>
    exact ⟨key, value, Option.some.inj (hn.symm.trans h), hk, hv⟩
  all_goals cases role_inj hn (by assumption) hr (by first | assumption | rfl)

theorem of_clause (h : s.Scoped names id) (hn : s.node? id = some node)
    (hr : node.tag.role = .clause) :
    ∃ pattern body, node = .branch .clause [pattern, body] ∧ s.Scoped names pattern ∧
      s.Scoped names body := by
  cases h
  case clause pattern body hp hb h =>
    exact ⟨pattern, body, Option.some.inj (hn.symm.trans h), hp, hb⟩
  all_goals cases role_inj hn (by assumption) hr (by first | assumption | rfl)

theorem of_choice (h : s.Scoped names id) (hn : s.node? id = some node)
    (hr : node.tag.role = .choice) :
    ∃ condition yes no, node = .branch .ifThen [condition, yes, no] ∧ s.Scoped names condition ∧
      (yes.isAbsent = false → s.Scoped names yes) ∧
      (no.isAbsent = false → s.Scoped names no) := by
  cases h
  case choice condition yes no hc hy hn' h =>
    exact ⟨condition, yes, no, Option.some.inj (hn.symm.trans h), hc, hy, hn'⟩
  all_goals cases role_inj hn (by assumption) hr (by first | assumption | rfl)

theorem of_case (h : s.Scoped names id) (hn : s.node? id = some node)
    (hr : node.tag.role = .case) :
    ∃ scrutinee clauses, node = .branch .case (scrutinee :: clauses) ∧
      s.Scoped names scrutinee ∧ (∀ clause ∈ clauses, s.Scoped names clause) ∧
      ∀ clause ∈ clauses, s.tag? clause = some .clause := by
  cases h
  case case scrutinee clauses ht hs hc h =>
    exact ⟨scrutinee, clauses, Option.some.inj (hn.symm.trans h), hs, hc, ht⟩
  all_goals cases role_inj hn (by assumption) hr (by first | assumption | rfl)

theorem of_lambda (h : s.Scoped names id) (hn : s.node? id = some node)
    (hr : node.tag.role = .lambda) :
    ∃ list body, node = .branch .lambda [list, body] ∧
      s.Scoped (NamesWith names (s.params id)) body := by
  cases h
  case lambda list body h hb => exact ⟨list, body, Option.some.inj (hn.symm.trans h), hb⟩
  all_goals cases role_inj hn (by assumption) hr (by first | assumption | rfl)

/-- Every child of a node that is no lambda, unless it is a branch that is missing. -/
theorem child (h : s.Scoped names id) (hn : s.node? id = some node) (ht : node.tag ≠ .lambda)
    {child : NodeId} (hm : child ∈ node.children) (hp : child.isAbsent = false) :
    s.Scoped names child := by
  cases hrole : node.tag.role with
  | scalar =>
    rw [h.children_of_scalar hn hrole] at hm
    cases hm
  | name =>
    obtain ⟨name, rfl, -⟩ := h.of_name hn hrole
    cases hm
  | terms =>
    obtain ⟨children, hnode, hc⟩ := h.of_terms hn hrole
    rw [hnode, Node.children_branch] at hm
    exact hc child hm
  | paren =>
    obtain ⟨inner, rfl, hi⟩ := h.of_paren hn hrole
    exact List.mem_singleton.1 hm ▸ hi
  | binding =>
    obtain ⟨key, value, rfl, hk, hv⟩ := h.of_binding hn hrole
    rcases List.mem_pair.1 hm with rfl | rfl
    · exact hk.mono fun _ => False.elim
    · exact hv
  | clause =>
    obtain ⟨pattern, body, rfl, hpattern, hb⟩ := h.of_clause hn hrole
    rcases List.mem_pair.1 hm with rfl | rfl
    · exact hpattern
    · exact hb
  | choice =>
    obtain ⟨condition, yes, no, rfl, hc, hy, hno⟩ := h.of_choice hn hrole
    rcases List.mem_cons.1 hm with rfl | hm
    · exact hc
    rcases List.mem_pair.1 hm with rfl | rfl
    · exact hy hp
    · exact hno hp
  | case =>
    obtain ⟨scrutinee, clauses, rfl, hs, hc, -⟩ := h.of_case hn hrole
    rw [Node.children_branch] at hm
    rcases List.mem_cons.1 hm with rfl | hm
    · exact hs
    · exact hc child hm
  | lambda =>
    obtain ⟨list, body, rfl, -⟩ := h.of_lambda hn hrole
    exact absurd rfl ht

/-- The free names of a node are among the names that it may use. -/
theorem of_free (h : s.Scoped names id) {name : String} (hf : s.Free name id) : names name := by
  induction hf generalizing names with
  | ident hn ht htext =>
    obtain ⟨name, rfl, hname⟩ := h.of_name hn (ht ▸ rfl)
    cases htext
    exact hname
  | child hn ht hm hf ih => exact ih (h.child hn ht hm hf.isAbsent)
  | body hn ht hp _ ih =>
    obtain ⟨list, body, rfl, hb⟩ := h.of_lambda hn (ht ▸ rfl)
    exact (ih hb).resolve_right hp

/-- The element of a sequence that has only one, or the node itself. -/
theorem unwrap (h : s.Scoped names id) : s.Scoped names (s.unwrap id) :=
  unwrap_of_branches (fun _ hn ht => h.of_terms hn (ht ▸ rfl)) h

end Scoped

/-! ## Lambdas -/

theorem params_eq_of_child {id' : NodeId} {node' : Node} (hn : s.node? id = some node)
    (hn' : s.node? id' = some node') (h : node.child 0 = node'.child 0) :
    s.params id = s.params id' := by
  unfold params
  rw [hn, hn', Option.bind_some, Option.bind_some, h]

/-- The leaves for some names. -/
def Idents (s : Store) (ids : List NodeId) (params : List String) : Prop :=
  List.Forall₂ (fun id name => s.node? id = some (.leaf .ident name)) ids params

/-- A lambda over the names of some leaves. -/
theorem params_eq {list body : NodeId} {ids : List NodeId} {params : List String}
    (hn : s.node? id = some (.branch .lambda [list, body]))
    (hlist : s.node? list = some (.branch .list ids)) (h : s.Idents ids params) :
    s.params id = params := by
  have hlist' : s.node? (Node.child (.branch .lambda [list, body]) 0) = some (.branch .list ids) :=
    hlist
  unfold Store.params
  rw [hn, Option.bind_some, hlist']
  dsimp only
  rw [Node.children_branch]
  clear hlist hlist'
  induction h with
  | nil => rfl
  | cons hid _ ih =>
    rw [List.filterMap_cons, hid, ih]
    rfl

/-- Leaves keep their names. -/
theorem Idents.extend {ids : List NodeId} {params : List String} (h : s.Idents ids params)
    (he : s.Extends t) : t.Idents ids params :=
  List.Forall₂.imp (fun _ _ => he.node?_of_some) h

/-- The leaves for some names need these names. -/
theorem Idents.scoped {ids : List NodeId} {params : List String} (h : s.Idents ids params) :
    ∀ id ∈ ids, s.Scoped (NamesWith names params) id := by
  induction h with
  | nil => exact List.forall_mem_nil _
  | @cons id param ids rest hid _ ih =>
    have hrest : ∀ name, NamesWith names rest name → NamesWith names (param :: rest) name :=
      fun _ => NamesWith.mono (fun _ hname => hname) (List.subset_cons_self param rest)
    exact List.forall_mem_cons.2
      ⟨.ident hid (.inr List.mem_cons_self), fun other hm => (ih other hm).mono hrest⟩

end Store

end Juxta
