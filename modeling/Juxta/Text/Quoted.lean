import Juxta.Text.Hidden

/-!
# Quoted text

* `Quoted.string` : a text between double quotes on one line, every character visible;
* `Quoted.char` : one character between single quotes, by the same rules.

A quote, a backslash and the four common controls are written with a backslash; any other
character that does not show is written as its code point in hexadecimal.
-/

namespace Juxta.Text.Quoted

/-- The code point of a character in hexadecimal, as it stands in an escape. -/
def code (c : Char) : List Char :=
  ['\\', 'u', '\x7b'] ++ Nat.toDigits 16 c.toNat ++ ['\x7d']

/-- How a character is written between two `quote` characters. -/
def encodeChar (quote c : Char) : List Char :=
  if c = quote then ['\\', c]
  else match c with
    | '\\' => ['\\', '\\']
    | '\n' => ['\\', 'n']
    | '\r' => ['\\', 'r']
    | '\t' => ['\\', 't']
    | '\x00' => ['\\', '0']
    | _ => if isHidden c then code c else [c]

/-- A text between double quotes. -/
def string (text : String) : String :=
  String.ofList ('"' :: text.toList.flatMap (encodeChar '"') ++ ['"'])

/-- A character between single quotes. -/
def char (c : Char) : String :=
  String.ofList ('\'' :: encodeChar '\'' c ++ ['\''])

end Juxta.Text.Quoted
