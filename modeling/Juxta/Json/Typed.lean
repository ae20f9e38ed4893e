import Juxta.Json.Reader

/-!
# Reading JSON text as values of a type

* `Reader.text`, `Reader.natural`, `Reader.variant` : strings, bounded numbers, and names of an
  enumeration;
* `Reader.list`, `Reader.table` : lists, and objects whose keys are numbers;
* `Record`, `Reader.record` : objects with known fields, which may also be written as lists of
  the field values in order;
* `Reader.skipValue` : passes over the value of an unknown field.

A failure that a value itself does not place is placed where the enclosing value ends, as far as
its end can be read.
-/

namespace Juxta.Json

/-- How a record of type `α` is read into a state of type `σ`: field by field, then as a whole. -/
structure Record (σ α : Type) where
  name : String
  fields : List String
  /-- Whether fields of other names are refused. -/
  closed : Bool
  /-- Reads the value of a field. -/
  read : (field : String) → σ → Reader σ
  /-- Whether a field has been read. -/
  has : (field : String) → σ → Bool
  /-- Whether a record written as a list may end before a field. -/
  optional : (field : String) → Bool
  /-- The record, unless a field is missing. -/
  finish : σ → Except String α

/-- The record that has been read. -/
def Record.done {σ α : Type} (record : Record σ α) (state : σ) : Reader α :=
  match record.finish state with
  | .ok result => return result
  | .error field => Reader.refuse (.missingField field)

namespace Reader

/-! ## What was found instead -/

/-- A value as something that was found. -/
def foundOf : Json → Found
  | .null => .null
  | .bool value => .bool value
  | .whole value => .whole value
  | .real value => .real value
  | .str value => .str value
  | .arr _ => .sequence
  | .obj _ => .map

/-- Reads a value that is not of the type `expected`, lists and objects excepted, and fails. -/
def wrongType {α : Type} (expected : String) : Reader α := do
  let found ← match ← peek with
    | some '[' => pure Found.sequence
    | some '{' => pure Found.map
    | _ => foundOf <$> value 1
  refuse (.invalidType found expected)

/-- Runs `body` and then `close`. If `body` fails, `close` only moves the cursor. -/
def closing {α : Type} (body : Reader α) (close : Reader Unit) : Reader α := do
  let result ← tryCatch body fun failure => do
    tryCatch close fun _ => pure ()
    throw failure
  close
  return result

/-! ## Scalars -/

/-- Reads a string. -/
def text : Reader String := located do
  match ← next with
  | none => failNext .endInValue
  | some '"' => skip 1; string
  | some _ => wrongType "a string"

/-- A number as a natural number below a bound, for the type `expected`. -/
def boundedNat (bound : Nat) (expected : String) : Json → Reader Nat
  | .whole n =>
    if 0 ≤ n && n < bound then return n.toNat else refuse (.invalidValue (.whole n) expected)
  | other => refuse (.invalidType (foundOf other) expected)

/-- Reads a natural number below a bound, for the type `expected`. -/
def natural (bound : Nat) (expected : String) : Reader Nat := located do
  match ← next with
  | none => failNext .endInValue
  | some '-' => skip 1; boundedNat bound expected (← number true)
  | some c =>
    if c.isDigit then boundedNat bound expected (← number false) else wrongType expected

/-- Reads one of some names, whose opening quote is next. -/
def nameOf {α : Type} (names : List (String × α)) : Reader α := located do
  skip 1
  let name ← string
  match Fields.get? names name with
  | some result => return result
  | none => refuse (.unknownVariant name (names.map (·.1)))

/-- Reads a member of an enumeration: its name, or an object with the name as key and null as
value. -/
def variant {α : Type} (names : List (String × α)) : Reader α := do
  match ← next with
  | none => failNext .endInValue
  | some '"' => nameOf names
  | some '{' =>
    skip 1
    unless ← moreKeys true do failNext .expectedValue
    let result ← nameOf names
    colon
    located do
      match ← next with
      | none => failNext .endInValue
      | some 'n' => word "null".toList
      | some _ => wrongType "unit"
    match ← next with
    | some '}' => skip 1; return result
    | some _ => fail .expectedValue
    | none => fail .endInObject
  | some _ => failNext .expectedValue

/-- Reads null or a value. -/
def optional {α : Type} (reader : Reader α) : Reader (Option α) := do
  match ← next with
  | some 'n' => word "null".toList; return none
  | _ => some <$> reader

/-! ## Lists and tables -/

/-- Reads a list. -/
def list {α : Type} (item : Reader α) : Reader (List α) := located do
  match ← next with
  | none => failNext .endInValue
  | some '[' => skip 1; closing (items item) endList
  | some _ => wrongType "a sequence"

/-- Reads a number in quotes, whose opening quote is next. -/
def numericKey (bound : Nat) (expected : String) : Reader Nat := do
  skip 1
  match ← peek with
  | some c => unless c.isDigit || c == '-' do fail .keyNoNumber
  | none => fail .keyNoNumber
  let key ← natural bound expected
  match ← peek with
  | some '"' => skip 1; return key
  | _ => failNext .expectedQuote

/-- Reads an object whose keys are numbers. -/
def table {α : Type} (key : Reader Nat) (entry : Reader α) : Reader (List (Nat × α)) := located do
  match ← next with
  | none => failNext .endInValue
  | some '{' =>
    skip 1
    closing (iterate (fun (done : List (Nat × α)) => do
      if ← moreKeys done.isEmpty then
        let k ← key
        colon
        return .inl ((k, ← entry) :: done)
      else return .inr done.reverse) []) endObject
  | some _ => wrongType "a map"

/-! ## Values that are passed over -/

/-- Passes over a number after its sign. -/
def skipNumber : Reader Unit := do
  let digits := (← get).rest.takeWhile Char.isDigit
  if digits.isEmpty then failNext .invalidNumber
  if digits.head? = some '0' && 1 < digits.length then
    skip 1
    failNext .invalidNumber
  skip digits.length
  if (← peek) = some '.' then
    skip 1
    if (← span Char.isDigit).isEmpty then failNext .invalidNumber
  let letter ← peek
  if letter = some 'e' || letter = some 'E' then
    skip 1
    let sign ← peek
    if sign = some '+' || sign = some '-' then skip 1
    if (← span Char.isDigit).isEmpty then failNext .invalidNumber

/-- What is passed over next: a value, or what may follow one. The flags tell, from the inside
out, which of the open brackets are those of objects. -/
inductive Skipping where
  | value (brackets : List Bool)
  | rest (comma : Bool) (brackets : List Bool)

/-- Passes over the key of an object and its colon. -/
def skipKey : Reader Unit := do
  match ← next with
  | some '"' => skip 1
  | some _ => failNext .keyNoString
  | none => failNext .endInObject
  skipString
  colon

/-- Goes on inside an open bracket. -/
def enter (isObject : Bool) (rest : List Bool) : Reader (Sum Skipping Unit) := do
  if isObject then skipKey
  return .inl (.value (isObject :: rest))

/-- Passes over one piece of a value. -/
def skipStep : Skipping → Reader (Sum Skipping Unit)
  | .value brackets => do
    match ← next with
    | none => failNext .endInValue
    | some 'n' => word "null".toList; return .inl (.rest true brackets)
    | some 't' => word "true".toList; return .inl (.rest true brackets)
    | some 'f' => word "false".toList; return .inl (.rest true brackets)
    | some '-' => skip 1; skipNumber; return .inl (.rest true brackets)
    | some '"' => skip 1; skipString; return .inl (.rest true brackets)
    | some '[' => skip 1; return .inl (.rest false (false :: brackets))
    | some '{' => skip 1; return .inl (.rest false (true :: brackets))
    | some c =>
      if c.isDigit then
        skipNumber
        return .inl (.rest true brackets)
      else failNext .expectedValue
  | .rest _ [] => return .inr ()
  | .rest comma (isObject :: outer) => do
    match ← next with
    | none => failNext (if isObject then .endInObject else .endInList)
    | some c =>
      if c = (if isObject then '}' else ']') then
        skip 1
        return .inl (.rest true outer)
      else if !comma then enter isObject outer
      else if c = ',' then
        skip 1
        enter isObject outer
      else failNext (if isObject then .expectedObjectEnd else .expectedListEnd)

/-- Passes over a value of any depth. -/
def skipValue : Reader Unit := iterate skipStep (.value [])

/-! ## Records -/

variable {σ α : Type}

/-- Reads the fields of a record by their names. -/
def named (record : Record σ α) (empty : σ) : Reader α := do
  let state ← iterate (fun (first, state) => do
    if !(← moreKeys first) then return .inr state
    skip 1
    let name ← string
    if record.fields.contains name then
      if record.has name state then refuse (.duplicateField name)
      colon
      return .inl (false, ← record.read name state)
    else if record.closed then refuse (.unknownField name record.fields)
    else
      colon
      skipValue
      return .inl (false, state)) (true, empty)
  record.done state

/-- Reads the fields of a record in order. -/
def ordered (record : Record σ α) : (fields : List String) → (position : Nat) → σ → Reader α
  | [], _, state => record.done state
  | field :: rest, position, state => do
    if ← moreItems (position == 0) then
      ordered record rest (position + 1) (← record.read field state)
    else if record.optional field then ordered record rest (position + 1) state
    else refuse (.invalidLength position
      s!"struct {record.name} with {record.fields.length} elements")

/-- Reads a record, as an object or as a list of its fields in order. -/
def record (record : Record σ α) (empty : σ) : Reader α := located do
  match ← next with
  | none => failNext .endInValue
  | some '[' => skip 1; closing (ordered record record.fields 0 empty) endList
  | some '{' => skip 1; closing (named record empty) endObject
  | some _ => wrongType s!"struct {record.name}"

end Reader

end Juxta.Json
