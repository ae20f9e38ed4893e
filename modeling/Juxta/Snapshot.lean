import Juxta.Store
import Juxta.Table

/-!
# Snapshots

The stored form of a program: its nodes by id, its root, and where its nodes were first seen.

* `Snapshot` : the data; `Store.snapshot` takes one;
* `Snapshot.load` : the store that a snapshot describes, or the first reason why there is none;
* `Snapshot.LoadError` : the reasons, with their wording.
-/

namespace Juxta

/-- A program: every node by its id, and the root. -/
structure Snapshot where
  version : String
  root : NodeId
  nodes : Table Node
  coords : Table Coord
deriving DecidableEq, Inhabited

namespace Snapshot

/-- The version that new snapshots carry. -/
def currentVersion : String := "1"

/-- Why a snapshot describes no store. -/
inductive LoadError where
  /-- The ids do not run from one without a gap. -/
  | missingNode (id : NodeId)
  | danglingChild (parent child : NodeId)
  /-- A child at or after its parent could close a circle. -/
  | forwardChild (parent child : NodeId)
  | duplicateNode (id first : NodeId)
  | missingRoot (root : NodeId)
deriving DecidableEq

def LoadError.message : LoadError → String
  | .missingNode id => s!"Program snapshot is missing node {id.text}"
  | .danglingChild parent child => s!"Node {parent.text} refers to unknown node {child.text}"
  | .forwardChild parent child =>
    s!"Node {parent.text} refers to node {child.text}, which does not come before it"
  | .duplicateNode id first => s!"Node {id.text} duplicates node {first.text}"
  | .missingRoot root => s!"Program root {root.text} does not exist"

/-- Adds the nodes of `entries` to a store; the snapshot has `total` nodes. -/
def loadNodes (coords : Table Coord) (total : Nat) : List (Nat × Node) → Store →
    Except LoadError Store
  | [], s => .ok s
  | (key, node) :: rest, s =>
    let id : NodeId := ⟨key⟩
    if key ≠ s.size + 1 then .error (.missingNode ⟨s.size + 1⟩)
    else match node.children.find? (fun child => total < child.index) with
    | some child => .error (.danglingChild id child)
    | none => match node.children.find? (fun child => id.index ≤ child.index) with
      | some child => .error (.forwardChild id child)
      | none => match h : s.index[node]? with
        | some first => .error (.duplicateNode id first)
        | none => loadNodes coords total rest (s.push node (coords.get? key) h)

/-- The store that a snapshot describes. -/
def load (snapshot : Snapshot) : Except LoadError Store := do
  let s ← loadNodes snapshot.coords snapshot.nodes.size snapshot.nodes.entries .empty
  if (s.node? snapshot.root).isNone then throw (.missingRoot snapshot.root)
  return s

end Snapshot

namespace Store

/-- The nodes with their ids, in order. -/
def toList (s : Store) : List (NodeId × Node) :=
  s.entries.toList.mapIdx fun i entry => (⟨i + 1⟩, entry.node)

/-- The program that the node `root` of a store describes. -/
def snapshot (s : Store) (root : NodeId) : Snapshot where
  version := Snapshot.currentVersion
  root := root
  nodes := .ofList (s.entries.toList.mapIdx fun i entry => (i + 1, entry.node))
  coords := .ofList ((s.entries.toList.mapIdx fun i entry => (i + 1, entry.coord)).filterMap
    fun e => e.2.map fun coord => (e.1, coord))

end Store

end Juxta
