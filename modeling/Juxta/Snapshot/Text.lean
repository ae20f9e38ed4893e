import Juxta.Snapshot
import Juxta.Diagnostic

/-!
# The text of snapshots

* `Snapshot.json`, `Snapshot.text` : a snapshot as compact JSON, its tables in ascending order of
  ids, and without a table of places if it is empty;
* `Snapshot.parse` : reads that text; of two entries with one id the later one counts;
* `Snapshot.malformed` : the wording of a failure to read it.
-/

namespace Juxta

open Json (Record Reader Failure)

def Tag.reader : Reader Tag := Reader.variant (Tag.all.map fun tag => (tag.name, tag))

def Slot.json : Slot → Json
  | .node id => .nat id.index
  | .text content => .str content
  | .flag value => .bool value

/-- The slot that a value stands for. -/
def Slot.ofJson? : Json → Option Slot
  | .whole n => if 0 ≤ n && n < Json.indexBound then some (.node ⟨n.toNat⟩) else none
  | .str content => some (.text content)
  | .bool value => some (.flag value)
  | _ => none

/-- How deep a value may nest inside a slot: a snapshot, its table, a node and its list are around
it. -/
def Slot.nesting : Nat := Reader.nesting - 4

def Slot.reader : Reader Slot := do
  match ofJson? (← Reader.value nesting) with
  | some slot => return slot
  | none => Reader.refuse (.noVariant "Elt")

def Node.json (node : Node) : Json :=
  .obj [("tag", .str node.tag.name), ("elts", .arr (node.slots.map Slot.json))]

def Node.record : Record (Option Tag × Option (List Slot)) Node where
  name := "Node"
  fields := ["tag", "elts"]
  closed := false
  read field state :=
    if field = "tag" then do return (some (← Tag.reader), state.2)
    else do return (state.1, some (← Reader.list Slot.reader))
  has field state := if field = "tag" then state.1.isSome else state.2.isSome
  optional _ := false
  finish state := do
    let some tag := state.1 | throw "tag"
    let some slots := state.2 | throw "elts"
    return ⟨tag, slots⟩

def Node.reader : Reader Node := Reader.record record (none, none)

namespace Snapshot

/-- A table as an object with its keys as names. -/
def tableJson {α : Type} (entry : α → Json) (table : Table α) : Json :=
  .obj (table.entries.map fun e => (toString e.1, entry e.2))

def json (s : Snapshot) : Json :=
  let places := if s.coords.isEmpty then [] else [("coords", tableJson Coord.json s.coords)]
  .obj ([("version", .str s.version), ("root", .nat s.root.index),
    ("nodes", tableJson Node.json s.nodes)] ++ places)

/-- The compact JSON text of a snapshot. -/
def text (s : Snapshot) : String := s.json.text

/-- The fields of a snapshot as far as they have been read. -/
structure Draft where
  version : Option String
  root : Option Nat
  nodes : Option (Table Node)
  coords : Option (Table Coord)

/-- Reads a table with ids as keys. -/
def tableReader {α : Type} (entry : Reader α) : Reader (Table α) := do
  let entries ← Reader.table (Reader.numericKey Json.indexBound "u32") entry
  return Table.ofList entries.reverse

def record : Record Draft Snapshot where
  name := "Snapshot"
  fields := ["version", "root", "nodes", "coords"]
  closed := false
  read field draft := match field with
    | "version" => do return { draft with version := some (← Reader.text) }
    | "root" => do return { draft with root := some (← Reader.index) }
    | "nodes" => do return { draft with nodes := some (← tableReader Node.reader) }
    | _ => do return { draft with coords := some (← tableReader Coord.reader) }
  has field draft := match field with
    | "version" => draft.version.isSome
    | "root" => draft.root.isSome
    | "nodes" => draft.nodes.isSome
    | _ => draft.coords.isSome
  optional field := field = "coords"
  finish draft := do
    let some version := draft.version | throw "version"
    let some root := draft.root | throw "root"
    let some nodes := draft.nodes | throw "nodes"
    return ⟨version, ⟨root⟩, nodes, draft.coords.getD .empty⟩

/-- The snapshot that a text stands for. -/
def parse (text : String) : Except Failure Snapshot :=
  Reader.readAll (Reader.record record ⟨none, none, none, none⟩) text

/-- What is said of a text that stands for no snapshot. -/
def malformed (failure : Failure) : String := "Malformed program snapshot: " ++ failure.message

end Snapshot

end Juxta
