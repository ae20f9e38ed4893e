import Juxta.Binary64.Basic

/-!
# The shortest text of a binary floating-point number

* `Binary64.shortest` : the fewest decimal digits that read back as the number, the nearest of
  those if there are several, and of two equally near the even one;
* `Binary64.text` : those digits with a point, or with an exponent outside the plain range;
* `Binary64.plainFrom`, `Binary64.plainTo` : the plain range.
-/

namespace Juxta.Binary64

/-- The number `digits * 10 ^ exponent`. -/
structure Digits where
  digits : Nat
  exponent : Int
deriving DecidableEq

/-- The exponent of the leading decimal digit of `num / den`; a quotient below one is multiplied by
ten at most `steps` times. -/
def leading (num den : Nat) : (steps : Nat) → Int
  | 0 => 0
  | steps + 1 =>
    if den ≤ num then ((Nat.toDigits 10 (num / den)).length : Int) - 1
    else leading (num * 10) den steps - 1

/-- The neighbour of the number on the grid of `10 ^ place` that reads back, the nearer one if
both do. -/
def neighbour? (x : Binary64) (place : Int) : Option Nat :=
  let quarter := 4 * x.significand
  let low := if x.significand = normalBound && x.exponent != -1074 then quarter - 1 else quarter - 2
  let high := quarter + 2
  let scale := Nat.pow 2 x.exponent.toNat * Nat.pow 10 (-place).toNat
  let grid := 4 * Nat.pow 2 (-x.exponent).toNat * Nat.pow 10 place.toNat
  -- the ends of the interval round to an even significand only
  let within (n : Nat) : Bool :=
    if x.significand % 2 = 0 then low * scale ≤ n * grid && n * grid ≤ high * scale
    else low * scale < n * grid && n * grid < high * scale
  let below := quarter * scale / grid
  match within below, within (below + 1) with
  | false, false => none
  | true, false => some below
  | false, true => some (below + 1)
  | true, true => some (nearestEven (quarter * scale) grid)

/-- Tries grids of ever more digits. -/
def searchDigits (x : Binary64) : (tries : Nat) → (place : Int) → Digits
  | 0, place => ⟨0, place⟩
  | tries + 1, place =>
    match x.neighbour? place with
    | some digits => ⟨digits, place⟩
    | none => searchDigits x tries (place - 1)

/-- Takes zeros from the end of some digits, at most `steps` of them. -/
def dropZeros (d : Digits) : (steps : Nat) → Digits
  | 0 => d
  | steps + 1 =>
    if d.digits != 0 && d.digits % 10 = 0 then
      dropZeros ⟨d.digits / 10, d.exponent + 1⟩ steps
    else d

/-- The fewest digits that read back as the number. Seventeen always do. -/
def shortest (x : Binary64) : Digits :=
  if x.isZero then ⟨0, 0⟩
  else dropZeros (x.searchDigits 18 (leading x.ratio.1 x.ratio.2 400)) 18

/-- The exponent of the leading digit from which on numbers are written without an exponent. -/
def plainFrom : Int := -5

/-- The exponent of the leading digit from which on numbers are written with an exponent again. -/
def plainTo : Int := 16

/-- Digits with a point and at least one digit on both sides of it. -/
def plainChars (shown : List Char) (exponent : Int) : List Char :=
  let padded := shown ++ List.replicate exponent.toNat '0'
  let places := (-exponent).toNat
  let filled := List.replicate (places + 1 - padded.length) '0' ++ padded
  let fraction := filled.drop (filled.length - places)
  filled.take (filled.length - places) ++ '.' :: (if fraction.isEmpty then ['0'] else fraction)

/-- One digit, the others behind a point, and the exponent with its sign. -/
def exponentChars (shown : List Char) (power : Int) : List Char :=
  let rest := shown.drop 1
  shown.take 1 ++ (if rest.isEmpty then [] else '.' :: rest) ++
    ['e', if power < 0 then '-' else '+'] ++ Nat.toDigits 10 power.natAbs

/-- The shortest text that reads back as the number. -/
def text (x : Binary64) : String :=
  let d := x.shortest
  let shown := Nat.toDigits 10 d.digits
  let power := d.exponent + shown.length - 1
  let body :=
    if plainFrom ≤ power && power < plainTo then plainChars shown d.exponent
    else exponentChars shown power
  String.ofList (if x.negative then '-' :: body else body)

end Juxta.Binary64
