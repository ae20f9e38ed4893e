import Juxta.Tag
import Juxta.Text.Quoted

/-!
# Nodes

* `NodeId` : a number for a node of a store; zero stands for an absent node;
* `Slot` : what a node holds at a position, a node id or a scalar;
* `Node` : a tag and its slots; `Node.child`, `Node.children`, `Node.text?` and `Node.flag?`
  read them.
-/

namespace Juxta

/-- The number of a node in a store. Stored nodes count from one. -/
structure NodeId where
  index : Nat
deriving DecidableEq, Hashable, Inhabited

namespace NodeId

/-- The id of the absent node. -/
def absent : NodeId := ⟨0⟩

def isAbsent (id : NodeId) : Bool := id.index == 0

def isPresent (id : NodeId) : Bool := id.index != 0

def text (id : NodeId) : String := s!"#{id.index}"

end NodeId

/-- What a node holds at one position. -/
inductive Slot where
  | node (id : NodeId)
  | text (content : String)
  | flag (value : Bool)
deriving DecidableEq, Hashable, Inhabited

/-- A tag and what stands below it. -/
structure Node where
  tag : Tag
  slots : List Slot
deriving DecidableEq, Hashable, Inhabited

namespace Slot

/-- The node id in a slot. -/
def id? : Slot → Option NodeId
  | .node id => some id
  | _ => none

/-- How a slot reads in the text of its node. -/
def shown : Slot → String
  | .node id => id.text
  | .text content => Text.Quoted.string content
  | .flag value => if value then "true" else "false"

end Slot

namespace Node

/-- The node with the given children. -/
def branch (tag : Tag) (children : List NodeId) : Node := ⟨tag, children.map .node⟩

/-- The node that holds one text. -/
def leaf (tag : Tag) (text : String) : Node := ⟨tag, [.text text]⟩

/-- The node id at a position, absent where there is none or a scalar. -/
def child (node : Node) (position : Nat) : NodeId :=
  match node.slots[position]? with
  | some (.node id) => id
  | _ => .absent

/-- The node ids among the slots, in order. -/
def children (node : Node) : List NodeId := node.slots.filterMap Slot.id?

/-- The text in the first slot. -/
def text? (node : Node) : Option String :=
  match node.slots with
  | .text text :: _ => some text
  | _ => none

/-- The flag in the first slot. -/
def flag? (node : Node) : Option Bool :=
  match node.slots with
  | .flag flag :: _ => some flag
  | _ => none

/-- One line for a node: its tag and its slots in parentheses. -/
def shown (node : Node) : String :=
  "(" ++ " ".intercalate (node.tag.name :: node.slots.map Slot.shown) ++ ")"

@[simp] theorem children_branch (tag : Tag) (ids : List NodeId) :
    (branch tag ids).children = ids := by
  induction ids with
  | nil => rfl
  | cons id rest ih => simp_all [branch, children, Slot.id?]

end Node

end Juxta
