import Juxta.Decimal.Arithmetic

/-!
# The text of decimal numbers

* `Decimal.text` : digits with a point before the last `scale` of them;
* `Decimal.ofChars?` : reads digits with at most one point, a sign before them and separators
  between them; digits of the fraction that do not fit are rounded off;
* `Decimal.ofScientific?` : reads a number followed by a power of ten.
-/

namespace Juxta.Decimal

/-- The value of a decimal digit. -/
def digit? (c : Char) : Option Nat := if c.isDigit then some (c.toNat - '0'.toNat) else none

/-- The digits of a natural number. -/
def digits (n : Nat) : List Char := Nat.toDigits 10 n

/-- All digits of the scale, at least one digit before the point, and a sign below zero. -/
def chars (d : Decimal) : List Char :=
  let shown := digits d.mantissa
  let padded := List.replicate (d.scale + 1 - shown.length) '0' ++ shown
  let before := padded.length - d.scale
  let body := if d.scale = 0 then padded else padded.take before ++ '.' :: padded.drop before
  if d.negative then '-' :: body else body

def text (d : Decimal) : String := String.ofList d.chars

/-! ## Reading -/

/-- Digits and separators, as they may follow the last digit that fits. -/
def isTail (chars : List Char) : Bool := chars.all fun c => c.isDigit || c == '_'

/-- Whether the first digit of a tail, separators left out, is five or more. -/
def roundsUp (tail : List Char) : Bool :=
  match (tail.dropWhile (· == '_')).head? >>= digit? with
  | some digit => 5 ≤ digit
  | none => false

/-- Rounds at the first digit of the tail, which does not fit; half goes away from zero. -/
def roundOff (negative : Bool) (mantissa scale : Nat) (tail : List Char) : Option Decimal :=
  if !isTail tail then none
  else if !roundsUp tail then make? negative mantissa scale
  else if mantissa + 1 < bound then make? negative (mantissa + 1) scale
  else if scale = 0 then none
  else make? negative ((mantissa + 5) / 10) (scale - 1)

/-- Reads what follows a sign. `point` tells whether the point has been read, `any` whether a digit
has. -/
def readDigits (negative point any : Bool) (mantissa scale : Nat) : List Char → Option Decimal
  | [] => if any then make? negative mantissa scale else none
  | c :: rest =>
    if point && places ≤ scale then roundOff negative mantissa scale (c :: rest)
    else match digit? c with
      | some digit =>
        if mantissa * 10 + digit < bound then
          readDigits negative point true (mantissa * 10 + digit)
            (if point then scale + 1 else scale) rest
        else if point then roundOff negative mantissa scale (c :: rest)
        else none
      | none =>
        if c = '.' && !point then readDigits negative true any mantissa scale rest
        else if c = '_' && any then readDigits negative point any mantissa scale rest
        else none

/-- Reads a number: a sign if there is one, then digits with at most one point. -/
def ofChars? : List Char → Option Decimal
  | '-' :: rest => readDigits true false false 0 0 rest
  | '+' :: rest => readDigits false false false 0 0 rest
  | chars => readDigits false false false 0 0 chars

/-- Reads digits only, at least one. -/
def natOfChars? (chars : List Char) : Option Nat :=
  if chars.isEmpty then none
  else chars.foldl (fun n c => n.bind fun n => (digit? c).map fun digit => n * 10 + digit) (some 0)

/-- Reads an exponent, which may have a plus sign. -/
def exponentOfChars? : List Char → Option Nat
  | '+' :: rest => natOfChars? rest
  | chars => natOfChars? chars

/-- Reads `base` and multiplies it with the power of ten that `exponent` gives: one of at most 28
in magnitude. A negative one raises the scale; a positive one lowers it as far as it goes, and
multiplies if it goes further. -/
def ofScientific? (base exponent : List Char) : Option Decimal := do
  let d ← ofChars? base
  match exponent with
  | '-' :: rest =>
    let e ← exponentOfChars? rest
    if places < e then none
    make? d.negative d.mantissa (d.scale + e)
  | _ =>
    let e ← exponentOfChars? exponent
    if places < e then none
    if e ≤ d.scale then make? d.negative d.mantissa (d.scale - e)
    else (make? d.negative (d.mantissa * Nat.pow 10 (e - d.scale)) 0).map trim

end Juxta.Decimal
