import Juxta.Tree
import Juxta.Source
import Std.Data.HashMap

/-!
# Stores of nodes

A store keeps every node once. The first node to be stored has id 1, the next id 2, and storing a
node again returns its first id, so that equal nodes have equal ids.

* `Store` : the nodes in order, with the place at which each was first seen; the index from nodes
  to ids is tied to them by `Store.index_iff`;
* `Store.intern` : the id of a node, stored if it is new; `Store.internTree` stores a whole tree;
* `Store.node?`, `Store.tag?`, `Store.coord?`, `Store.tree?` : what an id stands for;
* `Store.node?_intern`, `Store.node?_intern_of_some` : the id returned stands for the node, and
  ids keep their nodes.
-/

namespace Juxta

/-- A stored node and the place at which it was first seen. -/
structure Store.Entry where
  node : Node
  coord : Option Coord
deriving Inhabited

/-- Nodes in the order in which they were first stored, each of them once. -/
structure Store where
  entries : Array Store.Entry
  index : Std.HashMap Node NodeId
  index_iff : ∀ node id, index[node]? = some id ↔
    0 < id.index ∧ entries[id.index - 1]?.map Store.Entry.node = some node

namespace Store

/-- The store without nodes. -/
def empty : Store := ⟨#[], {}, by simp⟩

instance : Inhabited Store := ⟨empty⟩

def size (s : Store) : Nat := s.entries.size

def isEmpty (s : Store) : Bool := s.entries.isEmpty

/-- What is stored under an id. -/
def entry? (s : Store) (id : NodeId) : Option Entry :=
  if id.index = 0 then none else s.entries[id.index - 1]?

/-- The node under an id. -/
def node? (s : Store) (id : NodeId) : Option Node := (s.entry? id).map Entry.node

/-- The tag of the node under an id. -/
def tag? (s : Store) (id : NodeId) : Option Tag := (s.node? id).map Node.tag

/-- The place at which the node under an id was first seen, if it is known. -/
def coord? (s : Store) (id : NodeId) : Option Coord := (s.entry? id).bind Entry.coord

/-- The id of a node that is stored already. -/
def find? (s : Store) (node : Node) : Option NodeId := s.index[node]?

theorem index_iff_push (s : Store) (node : Node) (coord : Option Coord)
    (fresh : s.index[node]? = none) (n : Node) (id : NodeId) :
    (s.index.insert node ⟨s.size + 1⟩)[n]? = some id ↔
      0 < id.index ∧ (s.entries.push ⟨node, coord⟩)[id.index - 1]?.map Entry.node = some n := by
  have known := s.index_iff n id
  have last := s.index_iff n ⟨s.size + 1⟩
  have new := s.index_iff node id
  obtain ⟨i⟩ := id
  simp only [size] at *
  rw [Std.HashMap.getElem?_insert, Array.getElem?_push]
  by_cases here : i - 1 = s.entries.size
  · have beyond : s.entries[i - 1]? = none := by simp [here]
    by_cases same : node = n
    · subst same
      simp [here]; omega
    · simp_all
  · by_cases same : node = n
    · subst same
      simp [here]
      constructor
      · intro eq; omega
      · intro h
        simp_all
    · simp_all

/-- Stores a node that is not stored yet. -/
def push (s : Store) (node : Node) (coord : Option Coord) (fresh : s.index[node]? = none) : Store :=
  ⟨s.entries.push ⟨node, coord⟩, s.index.insert node ⟨s.size + 1⟩,
    index_iff_push s node coord fresh⟩

/-- The id of a node. A node that is not stored yet is stored with the place `coord`; one that is
keeps the place it has. -/
def intern (s : Store) (node : Node) (coord : Option Coord) : NodeId × Store :=
  match h : s.index[node]? with
  | some id => (id, s)
  | none => (⟨s.size + 1⟩, s.push node coord h)

/-! ## Trees -/

mutual

/-- Stores a tree, its parts before itself, and returns the id of its root. -/
def internTree (s : Store) : Tree → NodeId × Store
  | .node tag parts =>
    let (slots, s) := internParts s parts
    s.intern ⟨tag, slots⟩ none

/-- Stores the parts of a tree from left to right. -/
def internParts (s : Store) : List Tree.Part → List Slot × Store
  | [] => ([], s)
  | part :: rest =>
    let (slot, s) := internPart s part
    let (slots, s) := internParts s rest
    (slot :: slots, s)

def internPart (s : Store) : Tree.Part → Slot × Store
  | .tree tree => let (id, s) := internTree s tree; (.node id, s)
  | .text content => (.text content, s)
  | .flag value => (.flag value, s)
  | .absent => (.node .absent, s)

end

/-- The subtree under an id, down to `depth` levels; what lies deeper is left out. -/
def treeTo (s : Store) : (depth : Nat) → NodeId → Option Tree
  | 0, _ => none
  | depth + 1, id =>
    (s.node? id).map fun node => .node node.tag <| node.slots.map fun
      | .node child => match s.treeTo depth child with
        | some tree => .tree tree
        | none => .absent
      | .text content => .text content
      | .flag value => .flag value

/-- The subtree under an id. In a store whose nodes only refer to earlier ones no path is longer
than the store. -/
def tree? (s : Store) (id : NodeId) : Option Tree := s.treeTo s.size id

/-! ## What interning returns and keeps -/

theorem node?_eq_some_iff (s : Store) (id : NodeId) (node : Node) :
    s.node? id = some node ↔ s.find? node = some id := by
  rw [find?, s.index_iff, node?, entry?]
  by_cases h : id.index = 0 <;> simp [h]; omega

theorem node?_push_of_some (s : Store) (node : Node) (coord : Option Coord)
    (fresh : s.index[node]? = none) {id : NodeId} {old : Node} (h : s.node? id = some old) :
    (s.push node coord fresh).node? id = some old := by
  simp only [node?, entry?] at *
  split at h
  · simp at h
  · rename_i present
    have bound : id.index - 1 < s.entries.size := by
      cases found : s.entries[id.index - 1]? with
      | none => simp [found] at h
      | some entry => exact (Array.getElem?_eq_some_iff.1 found).1
    simp only [present, ↓reduceIte, push, Array.getElem?_push]
    rw [if_neg (by omega)]
    exact h

theorem node?_intern (s : Store) (node : Node) (coord : Option Coord) :
    (s.intern node coord).2.node? (s.intern node coord).1 = some node := by
  unfold intern
  split
  · rename_i id found
    exact (s.node?_eq_some_iff id node).2 found
  · simp [push, node?, entry?, size]

theorem node?_intern_of_some (s : Store) (node : Node) (coord : Option Coord) {id : NodeId}
    {old : Node} (h : s.node? id = some old) : (s.intern node coord).2.node? id = some old := by
  unfold intern
  split
  · exact h
  · exact s.node?_push_of_some node coord (by assumption) h

end Store

end Juxta
