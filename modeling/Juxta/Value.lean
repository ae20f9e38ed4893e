import Juxta.Fields
import Juxta.Number
import Juxta.Node
import Juxta.Runaway

/-!
# Values

What programs compute, and the scopes in which functions find their names.

* `Value`, `Closure`, `Scope` : the data, which refer to one another;
* `Scope.call`, `Scope.get?` : scopes of calls, bounded in depth, and their names;
* `Value.eq` : equality, by value for numbers and by origin for functions;
* `Value.isTruthy`, `Value.toDecimal?` : values as conditions and as numbers;
* `Value.shown`, `Value.text` : values as text, inside other values and on their own.
-/

namespace Juxta

mutual

/-- What a program computes. -/
inductive Value where
  | null
  | bool (flag : Bool)
  | number (number : Decimal)
  /-- The result of arithmetic that fails. -/
  | nan
  | string (content : String)
  | list (items : List Value)
  | record (fields : List (String × Value))
  | function (closure : Closure)

/-- A lambda together with the scope in which it was met and the arguments it has got so far. -/
structure Closure where
  lambda : NodeId
  params : List String
  body : NodeId
  scope : Scope
  applied : List Value

/-- The names of one call. Further names are those of the scope around it. -/
structure Scope where
  name : String
  words : List (String × Value)
  parent : Option Scope
  /-- How many calls are open. -/
  depth : Nat

end

instance : Inhabited Value := ⟨.null⟩

/-! ## Scopes -/

namespace Scope

/-- The scope of a whole program. -/
def global : Scope := ⟨"global", [], none, 0⟩

instance : Inhabited Scope := ⟨global⟩

/-- The scope of a call. Names that are not among `words` are looked up in `parent`, where the
function was met. The depth counts from the deeper of `parent` and `caller`. -/
def call (parent caller : Scope) (name : String) (words : List (String × Value)) (limit : Nat) :
    Except Runaway Scope :=
  let depth := max parent.depth caller.depth + 1
  if limit < depth then .error ⟨limit, name⟩
  else .ok ⟨name, Fields.ofPairs words, some parent, depth⟩

/-- The value of a name in the innermost scope that has one. -/
def get? : Scope → (name : String) → Option Value
  | ⟨_, words, parent, _⟩, name => match Fields.get? words name with
    | some value => some value
    | none => match parent with
      | some parent => get? parent name
      | none => none

/-- A scope on one line. -/
def shown (scope : Scope) : String :=
  let name := Text.Quoted.string scope.name
  s!"Scope \x7b name: {name}, depth: {scope.depth} \x7d"

end Scope

/-- The parameters that have no argument yet. -/
def Closure.unbound (closure : Closure) : List String :=
  closure.params.drop closure.applied.length

/-! ## Types -/

/-- The type of a value. -/
inductive ValueType where
  | null | boolean | number | string | list | record | function
deriving DecidableEq, Inhabited

namespace ValueType

def name : ValueType → String
  | .null => "null" | .boolean => "boolean" | .number => "number" | .string => "string"
  | .list => "list" | .record => "record" | .function => "function"

/-- The type in a sentence. -/
def phrase : ValueType → String
  | .null => "null"
  | type => "a " ++ type.name

end ValueType

namespace Value

def type : Value → ValueType
  | .null => .null
  | .bool _ => .boolean
  | .number _ | .nan => .number
  | .string _ => .string
  | .list _ => .list
  | .record _ => .record
  | .function _ => .function

/-! ## Equality -/

mutual

/-- Equality of values: numbers by value, failed arithmetic with itself, records with the order of
their fields, and functions by their lambda and their arguments. -/
def eq : Value → Value → Bool
  | .null, .null => true
  | .bool a, .bool b => a == b
  | .number a, .number b => a.eq b
  | .nan, .nan => true
  | .string a, .string b => a == b
  | .list a, .list b => eqItems a b
  | .record a, .record b => eqFields a b
  | .function ⟨lambda, _, _, _, applied⟩, .function other =>
    lambda == other.lambda && eqItems applied other.applied
  | _, _ => false

def eqItems : List Value → List Value → Bool
  | [], [] => true
  | a :: s, b :: t => eq a b && eqItems s t
  | _, _ => false

def eqFields : List (String × Value) → List (String × Value) → Bool
  | [], [] => true
  | (name, a) :: s, (other, b) :: t => name == other && eq a b && eqFields s t
  | _, _ => false

end

/-! ## Values as conditions, numbers and containers -/

/-- Whether a value counts as true: null, false, zero, failed arithmetic and the empty string do
not. -/
def isTruthy : Value → Bool
  | .null | .nan => false
  | .bool flag => flag
  | .number n => !n.isZero
  | .string content => content != ""
  | .list _ | .record _ | .function _ => true

/-- The number that a value stands for: numbers, and strings that spell one. -/
def toDecimal? : Value → Option Decimal
  | .number n => some n
  | .string content => Number.parse? content
  | _ => none

def items? : Value → Option (List Value)
  | .list items => some items
  | _ => none

def fields? : Value → Option (Fields Value)
  | .record fields => some fields
  | _ => none

def content? : Value → Option String
  | .string content => some content
  | _ => none

/-- The value of a field of a record. -/
def get? (value : Value) (name : String) : Option Value :=
  value.fields?.bind fun fields => fields.get? name

/-! ## Text -/

/-- How a character of a string is written inside another value: only quotes and ends of lines
have a backslash. -/
def shownChar (c : Char) : List Char :=
  match c with
  | '\n' => ['\\', 'n']
  | '"' => ['\\', '"']
  | _ => [c]

mutual

/-- A value as it is written inside another one. -/
def shown : Value → String
  | .null => "null"
  | .bool flag => if flag then "true" else "false"
  | .number n => Number.format n
  | .nan => "NaN"
  | .string content => String.ofList ('"' :: content.toList.flatMap shownChar ++ ['"'])
  | .list items => "[" ++ ", ".intercalate (shownItems items) ++ "]"
  | .record fields => "\x7b" ++ ", ".intercalate (shownFields fields) ++ "\x7d"
  | .function closure =>
    "<lambda " ++ closure.lambda.text ++ " " ++ " ".intercalate closure.unbound ++ ">"

def shownItems : List Value → List String
  | [] => []
  | item :: rest => shown item :: shownItems rest

def shownFields : List (String × Value) → List String
  | [] => []
  | (name, value) :: rest => (Text.Quoted.string name ++ ": " ++ shown value) :: shownFields rest

end

/-- A value on its own: a string without quotes, all others as inside a value. -/
def display : Value → String
  | .string content => content
  | value => value.shown

/-- What a value contributes where strings are joined; null contributes nothing. -/
def text : Value → String
  | .null => ""
  | value => value.display

end Value

end Juxta
