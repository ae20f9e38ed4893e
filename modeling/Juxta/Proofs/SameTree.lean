import Juxta.Proofs.Canonical
import Juxta.Proofs.Scheduling
import Juxta.Proofs.Walk.Alike

/-!
# The same tree in two stores

The same tree can be stored with its nodes in another order. Whatever is asked of one store can be
asked of the other one by other numbers, and the answers are the same up to these numbers.

* `Node.Corresponds` : nodes that are the same but for the numbers of their children;
* `Store.Beneath` : the nodes of a program;
* `Store.SameTree` : ids for the same tree in two stores; `Store.SameTree.node` : their nodes;
* `checking_alike` : the checks of the same tree are alike.
-/

namespace Juxta

/-! ## The same tree in two stores -/

/-- Nodes of the same kind with the same scalars and with children that are related. -/
structure Node.Corresponds (R : NodeId → NodeId → Prop) (node node' : Node) : Prop where
  tag : node.tag = node'.tag
  slots : List.Forall₂ (Slot.Corresponds R) node.slots node'.slots

namespace Node.Corresponds

variable {R : NodeId → NodeId → Prop} {node node' : Node}

theorem children (h : node.Corresponds R node') :
    List.Forall₂ R node.children node'.children := by
  refine List.rel_filterMap (fun slot slot' hslot => ?_) h.slots
  cases hslot with
  | node hid => exact .some hid
  | text content => exact .none
  | flag value => exact .none

theorem child (h : node.Corresponds R node') (ha : R .absent .absent) (position : Nat) :
    R (node.child position) (node'.child position) := by
  have hslot := forall₂_getElem? h.slots position
  unfold Node.child
  generalize node.slots[position]? = slot at hslot ⊢
  generalize node'.slots[position]? = slot' at hslot ⊢
  cases hslot with
  | none => exact ha
  | some hslot =>
    cases hslot with
    | node hid => exact hid
    | text content => exact ha
    | flag value => exact ha

theorem text? (h : node.Corresponds R node') : node.text? = node'.text? := by
  have hslots := h.slots
  unfold Node.text?
  generalize node.slots = slots at hslots ⊢
  generalize node'.slots = slots' at hslots ⊢
  cases hslots with
  | nil => rfl
  | cons hslot _ => cases hslot <;> rfl

theorem flag? (h : node.Corresponds R node') : node.flag? = node'.flag? := by
  have hslots := h.slots
  unfold Node.flag?
  generalize node.slots = slots at hslots ⊢
  generalize node'.slots = slots' at hslots ⊢
  cases hslots with
  | nil => rfl
  | cons hslot _ => cases hslot <;> rfl

theorem shape (h : node.Corresponds R node') (shapes : List Shape) :
    node.shape shapes = node'.shape shapes := by
  unfold Node.shape Node.isZero
  rw [h.tag, h.text?]

end Node.Corresponds

namespace Store

/-- The ids that can be come to from a root: itself, the children of such ids, and the absent
id. -/
inductive Beneath (s : Store) (root : NodeId) : NodeId → Prop where
  | root : Beneath s root root
  | child {id child : NodeId} {node : Node} : Beneath s root id → s.node? id = some node →
      child ∈ node.children → Beneath s root child
  | absent : Beneath s root .absent

/-- Ids for the same tree in two stores, the first one in the program at a root. -/
structure SameTree (s t : Store) (root a b : NodeId) : Prop where
  beneath : s.Beneath root a
  knows : s.Knows a
  knows' : t.Knows b
  tree : s.tree? a = t.tree? b

namespace SameTree

variable {s t : Store} {root a b : NodeId}

theorem absent (s t : Store) (root : NodeId) : s.SameTree t root .absent .absent :=
  ⟨.absent, s.knows_absent, t.knows_absent,
    (treeTo_eq_none rfl _).trans (treeTo_eq_none rfl _).symm⟩

/-- The node of the one id, and the node of the other. -/
theorem node (h : s.SameTree t root a b) (hs : s.Grounded) (ht : t.Grounded) {node : Node}
    (hn : s.node? a = some node) :
    ∃ node', t.node? b = some node' ∧ node.Corresponds (s.SameTree t root) node' := by
  obtain ⟨node', hn', htag, hparts⟩ := hs.exists_node_of_tree?_eq ht h.tree hn
  refine ⟨node', hn', htag, slots_correspond_of_parts hparts fun c d hc hd hcd => ?_⟩
  have hc := Node.mem_children.2 hc
  have hd := Node.mem_children.2 hd
  exact ⟨.child h.beneath hn hc, hs.knows_of_mem hn hc, ht.knows_of_mem hn' hd, hcd⟩

/-- Where the one id has no node, the other one has none. -/
theorem node?_eq_none (h : s.SameTree t root a b) (hs : s.Grounded) (ht : t.Grounded)
    (hn : s.node? a = none) : t.node? b = none := by
  rw [← ht.tree?_eq_none_iff, ← h.tree, hs.tree?_eq_none_iff, hn]

theorem isAbsent (h : s.SameTree t root a b) (hs : s.Grounded) (ht : t.Grounded) :
    a.isAbsent = b.isAbsent := by
  cases hn : s.node? a with
  | none =>
    have hta := (hs.tree?_eq_none_iff a).2 hn
    rw [h.knows.eq_absent hta, h.knows'.eq_absent (h.tree ▸ hta)]
  | some node =>
    obtain ⟨node', hn', -⟩ := h.node hs ht hn
    rw [isAbsent_of_node? hn, isAbsent_of_node? hn']

end SameTree

/-- Numbers for texts of functions that are the same for equal lambdas of a program. -/
def ShowsAlike (s t : Store) (root : NodeId) (shown shown' : NodeId → NodeId) : Prop :=
  ∀ a b, s.Beneath root a → s.tag? a = some .lambda → s.tree? a = t.tree? b → shown a = shown' b

end Store

/-! ## The check -/

theorem SameGists.of_places (messages : List String) (place place' : Option Coord)
    (kind : DiagnosticKind) : SameGists (messages.map fun message => .at? message place kind)
      (messages.map fun message => .at? message place' kind) := by
  unfold SameGists
  rw [List.map_map, List.map_map]
  rfl

/-- What corresponds in the checks of the same tree. -/
def checkLikeness (s t : Store) (root : NodeId) :
    Walk.Likeness Unit Shape CheckFrame Unit Shape CheckFrame where
  node := s.SameTree t root
  context _ _ := True
  output := Eq
  frame frame frame' := frame.node.Corresponds (s.SameTree t root) frame'.node
  error := CompileError.Alike

/-- The checks of the same tree are alike. -/
theorem checking_alike {s t : Store} (hs : s.Grounded) (ht : t.Grounded) (root : NodeId) :
    (checking s).Alike (checking t) (checkLikeness s t root) where
  isAbsent _ _ hid := hid.isAbsent hs ht
  absent := rfl
  enter id id' hid ha := by
    obtain ⟨node, hn⟩ := Option.ne_none_iff_exists'.1 (hid.knows.node?_ne_none ha)
    obtain ⟨node', hn', hnode⟩ := hid.node hs ht hn
    exact ⟨node, node', hn, hn', fun _ _ hc => .gather hnode.children hc hnode⟩
  resume frame frame' hframe found found' hfound shapes shapes' hshapes := by
    have heq : shapes = shapes' := List.forall₂_eq_eq_eq ▸ hshapes
    subst heq
    have htag := hframe.tag
    unfold checking
    dsimp only
    rw [← htag]
    exact .done (hfound.append (.of_places _ _ _ _)) (hframe.shape shapes)

end Juxta
