import Juxta.Decimal.Basic
import Juxta.Binary64.Basic

/-!
# Decimal and binary numbers

* `Decimal.toBinary64?` : a decimal number in binary. Whole numbers go to the nearest number; of
  others the whole part and the fraction are converted one by one, and the sum is rounded again at
  the scale of the decimal number;
* `Decimal.ofBinary64?` : a binary number in decimal. The binary exponent is turned into a decimal
  one step by step within 96 bits, and digits beyond the precision of 52 bits are rounded off.
-/

namespace Juxta.Decimal

/-- A power by squaring from the low bit of the exponent on, every product rounded. -/
def binaryPower (acc power : Binary64) (exponent : Nat) : Option Binary64 := do
  let acc ← if exponent % 2 = 1 then acc.mul? power else some acc
  if h : exponent / 2 = 0 then return acc
  else binaryPower acc (← power.mul? power) (exponent / 2)
termination_by exponent
decreasing_by omega

/-- The number in binary, without its sign. -/
def magnitude64? (d : Decimal) : Option Binary64 :=
  if d.scale = 0 then Binary64.ofNat? d.mantissa
  else do
    let fraction ← (← Binary64.ofNat? d.fraction).div? (← Binary64.tenPower? d.scale)
    let whole ← Binary64.ofNat? d.whole
    if fraction.isZero then return whole
    let ten ← binaryPower (← Binary64.ofNat? 1) (← Binary64.ofNat? 10) d.scale
    let scaled ← (← whole.add? fraction).mul? ten
    (← Binary64.ofNat? scaled.roundUp).div? ten

/-- The number in binary. -/
def toBinary64? (d : Decimal) : Option Binary64 :=
  d.magnitude64?.map fun x => x.withSign d.negative

/-! ## From binary -/

/-- A number `mantissa * 10 ^ ten` on its way from a binary exponent to a decimal one. -/
structure Passage where
  mantissa : Nat
  ten : Int

/-- Turns a factor `1 / 2` into `5 / 10`: `halves` of them are left. A mantissa that has no room for
the factor loses its last bit. -/
def Passage.takeHalves : (halves : Nat) → Passage → Passage
  | 0, p => p
  | halves + 1, ⟨mantissa, ten⟩ =>
    takeHalves halves <|
      if mantissa % 2 = 0 then ⟨mantissa / 2, ten + 1⟩
      else if mantissa * 5 < bound then ⟨mantissa * 5, ten⟩
      else ⟨mantissa / 2, ten + 1⟩

/-- Turns a factor `2` into `10 / 5` when there is no room to multiply. -/
def Passage.takeDoubles : (doubles : Nat) → Passage → Option Passage
  | 0, p => some p
  | doubles + 1, ⟨mantissa, ten⟩ =>
    if mantissa * 2 < bound then takeDoubles doubles ⟨mantissa * 2, ten - 1⟩
    else if (doubles : Int) + 1 < 2 * ten then none
    else takeDoubles doubles ⟨mantissa / 5, ten⟩

/-- Multiplies by ten until no power of ten is left. -/
def Passage.takeTens : (tens : Nat) → Nat → Option Nat
  | 0, mantissa => some mantissa
  | tens + 1, mantissa =>
    if mantissa * 10 < bound then takeTens tens (mantissa * 10) else none

/-- Rounds off digits that lie behind the last place. A mantissa that has a single digit left
vanishes. -/
def Passage.takePlaces : (excess : Nat) → Nat → Nat
  | 0, mantissa => mantissa
  | excess + 1, mantissa =>
    if mantissa < 10 then 0 else takePlaces excess (nearestUp mantissa 10)

/-- Rounds off digits beyond the precision of the binary number; the result has a scale. -/
def Passage.takePrecision : (scale : Nat) → Nat → Nat × Nat
  | 0, mantissa => (mantissa, 0)
  | scale + 1, mantissa =>
    if Binary64.normalBound ≤ mantissa then takePrecision scale (nearestUp mantissa 10)
    else (mantissa, scale + 1)

/-- The number in decimal, if it is in range. A zero keeps its sign, unless it comes from
rounding. -/
def ofBinary64? (x : Binary64) : Option Decimal := do
  if x.isZero then return { zero with negative := x.negative }
  let p := Passage.takeHalves (-x.exponent).toNat ⟨x.significand, x.exponent⟩
  let p ← Passage.takeDoubles x.exponent.toNat p
  if 0 ≤ p.ten then make? x.negative (← Passage.takeTens p.ten.toNat p.mantissa) 0
  else
    let scale := (-p.ten).toNat
    let mantissa := Passage.takePlaces (scale - places) p.mantissa
    if mantissa = 0 then return zero
    let (mantissa, scale) := Passage.takePrecision (Nat.min scale places) mantissa
    (make? x.negative mantissa scale).map trim

end Juxta.Decimal
