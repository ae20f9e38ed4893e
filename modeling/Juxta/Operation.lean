import Juxta.Json.Reader
import Juxta.Value.Json

/-!
# Operations on values

What the nodes of operators and builtin functions compute from the values of their children.

* `Computed` : a value, or another value in its place and a message that says why;
* `arithmetic`, `comparison`, `progression` : numbers;
* `Value.hd`, …, `Value.set` : lists, strings and records;
* `Surroundings` : what an operation may read besides its operands;
* `Tag.operate` : the operation of a node.
-/

namespace Juxta

/-- The result of an operation. -/
inductive Computed where
  | value (value : Value)
  /-- An operation that cannot do its job: a message unless it was given already, and a value. -/
  | fallback (message : Option String) (value : Value)
  /-- The operation never ends. -/
  | endless

namespace Computed

/-- A fallback with a message. -/
def instead (message : String) (value : Value) : Computed := .fallback (some message) value

/-- A fallback without a message. -/
def silent (value : Value) : Computed := .fallback none value

/-- The fallback of an operation that expects something else. -/
def expects (tag : Tag) (what : String) (found fallback : Value) : Computed :=
  instead s!"{tag.name} expects {what}, found {found.type.phrase}." fallback

end Computed

/-! ## Numbers -/

/-- The numbers that values stand for, or the first value that stands for none. -/
def numbers : List Value → Except Value (List Decimal)
  | [] => .ok []
  | value :: rest => match value.toDecimal? with
    | some n => (numbers rest).map (n :: ·)
    | none => .error value

/-- Whether a value comes from arithmetic that failed. -/
def Value.isNaN : Value → Bool
  | .nan => true
  | _ => false

/-- An operator on numbers. What has failed already fails again, without another message. -/
def arithmetic (tag : Tag) (values : List Value) : Computed :=
  if values.any Value.isNaN then .silent .nan
  else match numbers values with
    | .error found => .expects tag "numbers" found .nan
    | .ok operands =>
      let result : Option (Except ArithmeticError Decimal) := match operands with
        | [operand] => if tag = .neg then some (.ok operand.neg) else none
        | [left, right] => some (Number.apply tag left right)
        | _ => none
      match result with
      | none => .instead s!"{tag.name} got {operands.length} operands." .nan
      | some (.ok n) => .value (.number n)
      | some (.error error) => .instead s!"{tag.name} failed: {error.message}." .nan

/-- A comparison of numbers. -/
def comparison (tag : Tag) (values : List Value) : Computed :=
  if values.any Value.isNaN then .silent (.bool false)
  else match numbers values with
    | .error found => .expects tag "numbers" found (.bool false)
    | .ok [left, right] => match Number.compare? tag left right with
      | some holds => .value (.bool holds)
      | none => .instead s!"{tag.name} is not a comparison." (.bool false)
    | .ok operands => .instead s!"{tag.name} got {operands.length} operands." (.bool false)

/-- Equality of primitive values of one type; values of all other types differ. -/
def equivalent : Value → Value → Bool
  | .null, .null => true
  | .bool a, .bool b => a == b
  | .number a, .number b => a.eq b
  | .string a, .string b => a == b
  | _, _ => false

/-! ## Progressions -/

/-- The most items that a progression may have. -/
def progressionLimit : Nat := 1000000

/-- Whether one number comes before another, in ascending or descending order. -/
def Decimal.before (ascending : Bool) (a b : Decimal) : Bool := if ascending then a.lt b else b.lt a

/-- The distance from one number to another one after it, in units of the last place. -/
def Decimal.distance (ascending : Bool) (a b : Decimal) : Nat :=
  if ascending then (b.units - a.units).toNat else (a.units - b.units).toNat

theorem Decimal.distance_lt {ascending : Bool} {a b c : Decimal}
    (before : a.before ascending c = true) (after : a.before ascending b = true) :
    b.distance ascending c < a.distance ascending c := by
  cases ascending <;> simp [Decimal.before, Decimal.distance, Decimal.lt] at * <;> omega

/-- The numbers from `current` on before `stop`, each greater than the last by `step`. Those found
are kept in reverse. A step that rounding takes away leaves the number where it is. -/
def progressionFrom (step stop : Decimal) (items : List Value) (current : Decimal) : Computed :=
  let ascending := !step.negative
  if current.before ascending stop then
    let items := .number current :: items
    match current.add? step with
    | none => .instead "RANGE overflowed." (.list [])
    | some next =>
      if current.before ascending next then progressionFrom step stop items next else .endless
  else .value (.list items.reverse)
termination_by current.distance (!step.negative) stop
decreasing_by
  rename_i before after
  exact Decimal.distance_lt before after

/-- How many steps lead from `start` to `stop`, rounded up. -/
def stepCount? (start stop step : Decimal) : Option Int := do
  return (← (← stop.sub? start).div? step).ceil

/-- The numbers from a start to before an end in equal steps. -/
def progression (values : List Value) : Computed :=
  match numbers values with
  | .error found => .expects .range "numbers" found (.list [])
  | .ok [start, stop, step] =>
    if step.isZero then .instead "RANGE step cannot be zero." (.list [])
    else
      let fits := match stepCount? start stop step with
        | some count => decide (count ≤ progressionLimit)
        | none => false
      if fits then progressionFrom step stop [] start
      else .instead s!"RANGE would produce more than {progressionLimit} items." (.list [])
  | .ok _ => .instead "RANGE needs a start, an end and a step." (.list [])

/-! ## Lists, strings and records -/

namespace Value

/-- The first number that is no position: one of more than 64 bits. -/
def positionBound : Nat := 18446744073709551616

/-- A whole number without a sign, as a position. -/
def position? (value : Value) : Option Nat :=
  value.toDecimal?.bind fun n =>
    if n.isWhole && !n.negative && n.whole < positionBound then some n.whole else none

def hd : Value → Computed
  | .list (first :: _) => .value first
  | .list [] => .instead "HD of an empty list." .null
  | found => .expects .hd "a list" found .null

def tl : Value → Computed
  | .list (_ :: rest) => .value (.list rest)
  | .list [] => .instead "TL of an empty list." (.list [])
  | found => .expects .tl "a list" found (.list [])

/-- The item of a list at a position. -/
def nth (container position : Value) : Computed :=
  match container with
  | .list items => match position.position? with
    | none => .expects .nth "a position" position .null
    | some index => match items[index]? with
      | some item => .value item
      | none => .instead s!"NTH position {index} is out of range." .null
  | found => .expects .nth "a list" found .null

/-- A natural number as a value. -/
def ofNat (n : Nat) : Value :=
  match Decimal.ofNat? n with
  | some d => .number d
  | none => .nan

/-- The number of items, characters or fields. -/
def len : Value → Computed
  | .list items => .value (ofNat items.length)
  | .string content => .value (ofNat content.length)
  | .record fields => .value (ofNat fields.length)
  | found => .expects .len "a list, a string or a record" found (.number .zero)

/-- The field of a record with a key, or null; a list also has its positions as keys where `tag`
allows it. -/
def lookup (container : Value) (tag : Tag) (key : Value) : Computed :=
  match container with
  | .record fields => .value ((Fields.get? fields key.text).getD .null)
  | found => match tag, found with
    | .val, .list items => .value ((key.position?.bind fun i => items[i]?).getD .null)
    | _, _ => .expects tag "a record" found .null

/-- The key of a record at a position, or null. -/
def keyAt (container position : Value) : Computed :=
  match container with
  | .record fields => .value (match position.position?.bind fun i => fields[i]? with
    | some (name, _) => .string name
    | none => .null)
  | found => .expects .key "a record" found .null

/-- A record with another value for a key. -/
def set (container key value : Value) : Computed :=
  match container with
  | .record fields => .value (.record (Fields.set fields key.text value))
  | found => .expects .set "a record" found (.record [])

/-- The texts of the items of a list in a row, or the text of any other value. -/
def concat : Value → Value
  | .list items => .string (String.join (items.map text))
  | found => .string found.text

/-- The value of a JSON text. -/
def readJson : Value → Computed
  | .string content => match Json.parse content with
    | .ok json => .value (ofJson json)
    | .error failure =>
      .instead s!"JSON could not read its text: {failure.message}." .null
  | found => .expects .json "a string" found .null

/-- The fields of several records in one; a later value of a key takes the place of an earlier
one. -/
def merge (records : List Value) : Value :=
  .record <| Fields.ofPairs <| records.flatMap fun record => record.fields?.getD []

/-- The data from outside in place of defaults: field by field if both are records. -/
def overlay (defaults data : Value) : Value :=
  match defaults, data with
  | defaults, .null => defaults
  | .record fields, .record overrides =>
    .record (overrides.foldl (fun fields field => Fields.set fields field.1 field.2) fields)
  | _, data => data

end Value

/-! ## All operations -/

/-- What an operation may read besides its operands: the data from outside, and the arguments of
the function that is called, if one is. -/
structure Surroundings where
  data : Value
  arguments : Option (List Value)

/-- The argument at a position. -/
def Surroundings.argument (s : Surroundings) (position : Value) : Computed :=
  match s.arguments with
  | none => .instead "ARG used outside of a function." .null
  | some arguments => match position.position? with
    | none => .expects .arg "a position" position .null
    | some index => match arguments[index]? with
      | some argument => .value argument
      | none => .instead s!"ARG position {index} is out of range." .null

/-- What a node computes from the values of its children. -/
def Tag.operate (tag : Tag) (s : Surroundings) (values : List Value) : Computed :=
  match tag with
  | .exprs => match values with
    | [] => .value .null
    | [only] => .value only
    | _ => .value (.list values)
  | .list => .value (.list values)
  | .binding => .value (.record [((values.headD .null).text, (values.drop 1).headD .null)])
  | .record => .value (.merge values)
  | .not => .value (.bool (!values.any Value.isTruthy))
  | .equiv => match values with
    | [left, right] => .value (.bool (equivalent left right))
    | _ => .instead "EQUIV needs two operands." (.bool false)
  | .eq | .ne | .lt | .gt | .le | .ge => comparison tag values
  | .add | .sub | .mul | .div | .mod | .pow | .min | .max | .neg => arithmetic tag values
  | .concat => .value (values.headD .null).concat
  | .range => progression values
  | .hd => (values.headD .null).hd
  | .tl => (values.headD .null).tl
  | .len => (values.headD .null).len
  | .nth => match values with
    | [place, container] => container.nth place
    | _ => .instead "NTH needs a position and a list." .null
  | .get | .val => match values with
    | [place, container] => container.lookup tag place
    | _ => .instead s!"{tag.name} needs a key and a record." .null
  | .key => match values with
    | [place, container] => container.keyAt place
    | _ => .instead "KEY needs a position and a record." .null
  | .set => match values with
    | [place, value, container] => container.set place value
    | _ => .instead "SET needs a key, a value and a record." (.record [])
  | .data => .value ((values.getLastD .null).overlay s.data)
  | .arg => s.argument (values.headD .null)
  | .json => (values.headD .null).readJson
  | .print => .value (.record [("print", values.getLastD .null)])
  | _ => .value .null

end Juxta
