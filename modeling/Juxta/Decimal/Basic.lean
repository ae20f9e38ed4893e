import Juxta.Rounding

/-!
# Decimal numbers

A decimal number is a sign, a mantissa of at most 96 bits and a scale, the number of its digits
that stand behind the point, of at most 28.

* `Decimal` : the data; `Decimal.units` is its value in units of the 28th place;
* `Decimal.eq`, `Decimal.lt`, `Decimal.le` : comparison by value, whatever the scales;
* `Decimal.fit?`, `Decimal.fitAway?` : a value given with any number of digits, rounded until it
  fits, to the nearest neighbour or away from zero;
* `Decimal.trim` : the same value without zeros at the end of its fraction;
* `Decimal.isWhole`, `Decimal.toInt`, `Decimal.ceil` : whole numbers.
-/

namespace Juxta

/-- The first natural number that is no mantissa: one of more than 96 bits. -/
def Decimal.bound : Nat := 79228162514264337593543950336

/-- The greatest scale. -/
def Decimal.places : Nat := 28

/-- A sign, a mantissa and the number of its digits behind the point. -/
structure Decimal where
  negative : Bool
  mantissa : Nat
  scale : Nat
  mantissa_lt : mantissa < Decimal.bound
  scale_le : scale ≤ Decimal.places
deriving DecidableEq

namespace Decimal

/-- The number without sign and fraction that is zero. -/
def zero : Decimal := ⟨false, 0, 0, by decide, by decide⟩

def one : Decimal := ⟨false, 1, 0, by decide, by decide⟩

instance : Inhabited Decimal := ⟨zero⟩

/-- The number with given parts, if they are in range. Zero gets no sign. -/
def make? (negative : Bool) (mantissa scale : Nat) : Option Decimal :=
  if h : mantissa < bound ∧ scale ≤ places then
    some ⟨negative && mantissa != 0, mantissa, scale, h.1, h.2⟩
  else none

/-- The value in units of the last possible place. -/
def units (d : Decimal) : Int :=
  let magnitude : Int := (d.mantissa * Nat.pow 10 (places - d.scale) : Nat)
  if d.negative then -magnitude else magnitude

def isZero (d : Decimal) : Bool := d.mantissa == 0

/-- Below zero; the sign of a zero does not count. -/
def isNegative (d : Decimal) : Bool := d.negative && !d.isZero

/-! ## Comparison -/

/-- Equality of values. -/
def eq (a b : Decimal) : Bool := a.units == b.units

def lt (a b : Decimal) : Bool := a.units < b.units

def le (a b : Decimal) : Bool := a.units ≤ b.units

/-- The smaller of two numbers, the first if they are equal. -/
def min (a b : Decimal) : Decimal := if b.lt a then b else a

/-- The greater of two numbers, the first if they are equal. -/
def max (a b : Decimal) : Decimal := if a.lt b then b else a

/-! ## Signs and whole numbers -/

def neg (d : Decimal) : Decimal := { d with negative := !d.negative }

def abs (d : Decimal) : Decimal := { d with negative := false }

/-- The digits before the point. -/
def whole (d : Decimal) : Nat := d.mantissa / Nat.pow 10 d.scale

/-- The digits behind the point, as a number. -/
def fraction (d : Decimal) : Nat := d.mantissa % Nat.pow 10 d.scale

def isWhole (d : Decimal) : Bool := d.fraction == 0

/-- The number without its fraction. -/
def toInt (d : Decimal) : Int := if d.negative then -(d.whole : Int) else d.whole

/-- The least whole number that is not below the number. -/
def ceil (d : Decimal) : Int :=
  if d.isWhole || d.negative then d.toInt else d.toInt + 1

/-- A whole number below the bound. -/
def ofNat? (n : Nat) : Option Decimal := make? false n 0

/-- A whole number whose magnitude is below the bound. -/
def ofInt? (n : Int) : Option Decimal := make? (n < 0) n.natAbs 0

/-! ## Fitting -/

/-- The quotient `num / den` at the greatest scale up to `scale` at which its mantissa, made whole
by `round`, is in range, if there is one. -/
def fitRatioBy? (round : Nat → Nat → Nat) (negative : Bool) (num den : Nat) :
    (scale : Nat) → Option Decimal
  | 0 => make? negative (round num den) 0
  | scale + 1 =>
    match make? negative (round (num * Nat.pow 10 (scale + 1)) den) (scale + 1) with
    | some d => some d
    | none => fitRatioBy? round negative num den scale

/-- The quotient `num / den`, rounded half to even at the greatest scale up to `scale` that fits,
if any does. -/
def fitRatio? (negative : Bool) (num den scale : Nat) : Option Decimal :=
  fitRatioBy? nearestEven negative num den scale

/-- The number `mantissa / 10 ^ scale`, rounded half to even at the greatest scale that fits, if
any does. -/
def fit? (negative : Bool) (mantissa scale : Nat) : Option Decimal :=
  fitRatio? negative mantissa (Nat.pow 10 scale) (Nat.min scale places)

/-- The number `mantissa / 10 ^ scale`, rounded away from zero at the greatest scale that fits, if
any does. -/
def fitAway? (negative : Bool) (mantissa scale : Nat) : Option Decimal :=
  fitRatioBy? leastAbove negative mantissa (Nat.pow 10 scale) (Nat.min scale places)

/-- Takes zeros from the end of a fraction, at most `scale` of them. -/
def trimTo (mantissa : Nat) : (scale : Nat) → Nat × Nat
  | 0 => (mantissa, 0)
  | scale + 1 => if mantissa % 10 = 0 then trimTo (mantissa / 10) scale else (mantissa, scale + 1)

theorem trimTo_le (mantissa scale : Nat) :
    (trimTo mantissa scale).1 ≤ mantissa ∧ (trimTo mantissa scale).2 ≤ scale := by
  induction scale generalizing mantissa with
  | zero => simp [trimTo]
  | succ scale ih =>
    simp only [trimTo]
    split
    · have := ih (mantissa / 10); omega
    · simp

theorem trimTo_mul (mantissa scale : Nat) :
    (trimTo mantissa scale).1 * Nat.pow 10 (scale - (trimTo mantissa scale).2) = mantissa := by
  induction scale generalizing mantissa with
  | zero => simp [trimTo]
  | succ scale ih =>
    simp only [trimTo]
    split
    · have bound := (trimTo_le (mantissa / 10) scale).2
      have step : scale + 1 - (trimTo (mantissa / 10) scale).2
          = scale - (trimTo (mantissa / 10) scale).2 + 1 := by omega
      have power (n : Nat) : Nat.pow 10 (n + 1) = Nat.pow 10 n * 10 := rfl
      rw [step, power, ← Nat.mul_assoc, ih]; omega
    · simp

/-- The same value without zeros at the end of its fraction; zero loses its sign. -/
def trim (d : Decimal) : Decimal :=
  let parts := trimTo d.mantissa d.scale
  have bounds := trimTo_le d.mantissa d.scale
  ⟨d.negative && parts.1 != 0, parts.1, parts.2,
    Nat.lt_of_le_of_lt bounds.1 d.mantissa_lt, Nat.le_trans bounds.2 d.scale_le⟩

end Decimal

end Juxta
