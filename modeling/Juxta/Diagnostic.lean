import Juxta.Source
import Juxta.Json.Typed

/-!
# Diagnostics

* `DiagnosticKind` : the phase that a problem belongs to;
* `Diagnostic` : a problem with its message and its place in the program text;
* `Diagnostic.shown` : one line for people, who count lines and columns from one;
* `Diagnostic.json`, `Diagnostic.parse` : the JSON form and back;
* `Position.json`, `Coord.json` and their records : the JSON form of places.
-/

namespace Juxta

open Json (Record Reader Failure)

/-! ## Places in JSON -/

/-- The first number that is no line, column or node id: one of more than 32 bits. -/
def Json.indexBound : Nat := 4294967296

/-- Reads a line, a column or a node id. -/
def Json.Reader.index : Reader Nat := natural indexBound "u32"

def Position.json (p : Position) : Json :=
  .obj [("line", .nat p.line), ("column", .nat p.column)]

def Coord.json (c : Coord) : Json := .obj [("from", c.start.json), ("to", c.stop.json)]

def Position.record : Record (Option Nat × Option Nat) Position where
  name := "Position"
  fields := ["line", "column"]
  closed := false
  read field state := do
    let n ← Reader.index
    return if field = "line" then (some n, state.2) else (state.1, some n)
  has field state := if field = "line" then state.1.isSome else state.2.isSome
  optional _ := false
  finish state := do
    let some line := state.1 | throw "line"
    let some column := state.2 | throw "column"
    return ⟨line, column⟩

def Position.reader : Reader Position := Reader.record record (none, none)

def Coord.record : Record (Option Position × Option Position) Coord where
  name := "Coord"
  fields := ["from", "to"]
  closed := false
  read field state := do
    let p ← Position.reader
    return if field = "from" then (some p, state.2) else (state.1, some p)
  has field state := if field = "from" then state.1.isSome else state.2.isSome
  optional _ := false
  finish state := do
    let some start := state.1 | throw "from"
    let some stop := state.2 | throw "to"
    return ⟨start, stop⟩

def Coord.reader : Reader Coord := Reader.record record (none, none)

/-! ## Diagnostics -/

/-- The phase that a problem belongs to. -/
inductive DiagnosticKind where
  | lexical | syntactic | check | evaluation | internal
deriving DecidableEq, Inhabited

namespace DiagnosticKind

def all : List DiagnosticKind := [.lexical, .syntactic, .check, .evaluation, .internal]

def name : DiagnosticKind → String
  | .lexical => "lexical"
  | .syntactic => "syntax"
  | .check => "check"
  | .evaluation => "evaluation"
  | .internal => "internal"

def ofName? (text : String) : Option DiagnosticKind := all.find? (fun kind => kind.name == text)

theorem ofName?_name (kind : DiagnosticKind) : ofName? kind.name = some kind := by
  cases kind <;> decide

end DiagnosticKind

/-- A problem in a program. -/
structure Diagnostic where
  message : String
  start : Position
  stop : Position
  kind : DiagnosticKind
deriving DecidableEq, Inhabited

namespace Diagnostic

/-- A problem at a place, or at the beginning of the text where no place is known. -/
def at? (message : String) (coord : Option Coord) (kind : DiagnosticKind) : Diagnostic :=
  let coord := coord.getD .origin
  ⟨message, coord.start, coord.stop, kind⟩

/-- One line for people. -/
def shown (d : Diagnostic) : String :=
  s!"{d.kind.name}: {d.message} ({d.start.text}-{d.stop.text})"

def json (d : Diagnostic) : Json :=
  .obj [("message", .str d.message), ("from", d.start.json), ("to", d.stop.json),
    ("kind", .str d.kind.name)]

/-- The fields of a diagnostic as far as they have been read. -/
structure Draft where
  message : Option String
  start : Option Position
  stop : Option Position
  kind : Option DiagnosticKind

def record : Record Draft Diagnostic where
  name := "Diagnostic"
  fields := ["message", "from", "to", "kind"]
  closed := false
  read field draft := match field with
    | "message" => do return { draft with message := some (← Reader.text) }
    | "from" => do return { draft with start := some (← Position.reader) }
    | "to" => do return { draft with stop := some (← Position.reader) }
    | _ => do
      let kinds := DiagnosticKind.all.map fun kind => (kind.name, kind)
      return { draft with kind := some (← Reader.variant kinds) }
  has field draft := match field with
    | "message" => draft.message.isSome
    | "from" => draft.start.isSome
    | "to" => draft.stop.isSome
    | _ => draft.kind.isSome
  optional _ := false
  finish draft := do
    let some message := draft.message | throw "message"
    let some start := draft.start | throw "from"
    let some stop := draft.stop | throw "to"
    let some kind := draft.kind | throw "kind"
    return ⟨message, start, stop, kind⟩

/-- The diagnostic that a text stands for. -/
def parse (text : String) : Except Failure Diagnostic :=
  Reader.readAll (Reader.record record ⟨none, none, none, none⟩) text

end Diagnostic

end Juxta
