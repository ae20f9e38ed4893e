import Juxta.Value
import Juxta.Decimal.Binary
import Juxta.Json.Basic

/-!
# Values and JSON

* `Value.ofJson` : data from outside as a value;
* `Value.json` : a value for the outside. Whole numbers of 64 bits stay whole, all others become
  binary; the fields of a record are set one after another, so that a name stands once; a function
  becomes the list of the parameters it waits for.
-/

namespace Juxta.Value

mutual

/-- The value of data from outside. -/
def ofJson : Json → Value
  | .null => .null
  | .bool flag => .bool flag
  | .whole n => match Decimal.ofInt? n with
    | some d => .number d
    | none => .nan
  | .real x => match Decimal.ofBinary64? x with
    | some d => .number d
    | none => .nan
  | .str content => .string content
  | .arr items => .list (ofJsonItems items)
  | .obj fields => .record (ofJsonFields fields)

def ofJsonItems : List Json → List Value
  | [] => []
  | item :: rest => ofJson item :: ofJsonItems rest

def ofJsonFields : List (String × Json) → List (String × Value)
  | [] => []
  | (name, value) :: rest => (name, ofJson value) :: ofJsonFields rest

end

/-- A number for the outside. -/
def numberJson (n : Decimal) : Json :=
  let whole := if n.isWhole then n.toInt64? else none
  match whole with
  | some whole => .whole whole
  | none => match n.toBinary64? with
    | some x => .real x
    | none => .str "NaN"

mutual

/-- A value for the outside. -/
def json : Value → Json
  | .null => .null
  | .bool flag => .bool flag
  | .number n => numberJson n
  | .nan => .str "NaN"
  | .string content => .str content
  | .list items => .arr (jsonItems items)
  | .record fields => .obj (Fields.ofPairs (jsonFields fields))
  | .function closure => .obj [("lambda", .arr (closure.unbound.map .str))]

def jsonItems : List Value → List Json
  | [] => []
  | item :: rest => json item :: jsonItems rest

def jsonFields : List (String × Value) → List (String × Json)
  | [] => []
  | (name, value) :: rest => (name, json value) :: jsonFields rest

end

end Juxta.Value
