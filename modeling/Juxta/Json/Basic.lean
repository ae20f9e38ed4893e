import Juxta.Fields
import Juxta.Binary64.Text

/-!
# JSON values

* `Json` : the values; objects keep their fields in order, numbers are whole or binary;
* `Json.text` : the compact text of a value.
-/

namespace Juxta

/-- A JSON value. A whole number stands for one in the range of signed or unsigned 64-bit
integers. -/
inductive Json where
  | null
  | bool (value : Bool)
  | whole (value : Int)
  | real (value : Binary64)
  | str (value : String)
  | arr (items : List Json)
  | obj (fields : List (String × Json))

namespace Json

instance : Inhabited Json := ⟨.null⟩

/-- A natural number as a value. -/
def nat (n : Nat) : Json := .whole n

/-- Four hexadecimal digits for a control character. -/
def controlCode (c : Char) : List Char :=
  let digits := Nat.toDigits 16 c.toNat
  ['\\', 'u'] ++ List.replicate (4 - digits.length) '0' ++ digits

/-- How a character is written in a string: quotes, backslashes and controls with a backslash, all
others as they are. -/
def encodeChar (c : Char) : List Char :=
  match c with
  | '"' => ['\\', '"']
  | '\\' => ['\\', '\\']
  | '\n' => ['\\', 'n']
  | '\r' => ['\\', 'r']
  | '\t' => ['\\', 't']
  | '\x08' => ['\\', 'b']
  | '\x0c' => ['\\', 'f']
  | _ => if c.toNat < 32 then controlCode c else [c]

/-- A string between quotes. -/
def quoted (s : String) : String :=
  String.ofList ('"' :: s.toList.flatMap encodeChar ++ ['"'])

mutual

/-- The text of a value without spaces. -/
def text : Json → String
  | .null => "null"
  | .bool value => if value then "true" else "false"
  | .whole value => toString value
  | .real value => value.text
  | .str value => quoted value
  | .arr items => "[" ++ ",".intercalate (texts items) ++ "]"
  | .obj fields => "\x7b" ++ ",".intercalate (fieldTexts fields) ++ "\x7d"

/-- The texts of several values. -/
def texts : List Json → List String
  | [] => []
  | item :: rest => text item :: texts rest

/-- The texts of several fields, the name before the value. -/
def fieldTexts : List (String × Json) → List String
  | [] => []
  | (name, value) :: rest => (quoted name ++ ":" ++ text value) :: fieldTexts rest

end

end Json

end Juxta
