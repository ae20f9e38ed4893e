import Juxta.Rounding

/-!
# Binary floating-point numbers

Finite numbers with a significand of 53 bits, computed with natural numbers.

* `Binary64` : sign, significand and exponent in normal form, so that equal numbers have equal
  representations, apart from the two zeros;
* `Binary64.ofRatio?` : the number nearest to a quotient, a tie going to the even significand;
* `Binary64.mul?`, `Binary64.div?`, `Binary64.add?` : rounded operations on magnitudes;
* `Binary64.tenPower?` : the number nearest to a power of ten.
-/

namespace Juxta

/-- The first natural number that is no significand: one of more than 53 bits. -/
def Binary64.significandBound : Nat := 9007199254740992

/-- The first significand of 53 bits. -/
def Binary64.normalBound : Nat := 4503599627370496

/-- The number `significand * 2 ^ exponent` with a sign. The significand has 53 bits unless the
exponent is the least one. -/
structure Binary64 where
  negative : Bool
  significand : Nat
  exponent : Int
  significand_lt : significand < Binary64.significandBound
  exponent_mem : -1074 ≤ exponent ∧ exponent ≤ 971
  normal : Binary64.normalBound ≤ significand ∨ exponent = -1074
deriving DecidableEq

namespace Binary64

/-- Zero with its sign. -/
def zero (negative : Bool) : Binary64 :=
  ⟨negative, 0, -1074, by decide, by decide, Or.inr rfl⟩

instance : Inhabited Binary64 := ⟨zero false⟩

def isZero (x : Binary64) : Bool := x.significand == 0

def abs (x : Binary64) : Binary64 := { x with negative := false }

def withSign (x : Binary64) (negative : Bool) : Binary64 := { x with negative := negative }

/-- The magnitude as a quotient of natural numbers. -/
def ratio (x : Binary64) : Nat × Nat :=
  (x.significand * Nat.pow 2 x.exponent.toNat, Nat.pow 2 (-x.exponent).toNat)

/-- The number with given parts, if they are in normal form and in range. -/
def make? (significand : Nat) (exponent : Int) : Option Binary64 :=
  if h : significand < significandBound ∧ (-1074 ≤ exponent ∧ exponent ≤ 971) ∧
      (normalBound ≤ significand ∨ exponent = -1074) then
    some ⟨false, significand, exponent, h.1, h.2.1, h.2.2⟩
  else none

/-- The nearest multiple of `2 ^ exponent` to `num / den`, counted in that unit. -/
def roundAt (num den : Nat) (exponent : Int) : Nat :=
  nearestEven (num * Nat.pow 2 (-exponent).toNat) (den * Nat.pow 2 exponent.toNat)

/-- The exponent at which the whole part of `num / den` in that unit has 53 bits, or the least
one. -/
def exponentFor (num den : Nat) : Int :=
  let guess : Int := (Nat.log2 num : Int) - Nat.log2 den - 52
  -- the quotient has as many bits as the difference tells, or one less
  let short :=
    num * Nat.pow 2 (-guess).toNat < normalBound * (den * Nat.pow 2 guess.toNat)
  max (if short then guess - 1 else guess) (-1074)

/-- The number nearest to `num / den`, a tie going to the even significand; nothing beyond the
greatest number and for the denominator zero. -/
def ofRatio? (num den : Nat) : Option Binary64 :=
  if den = 0 then none
  else if num = 0 then some (zero false)
  else
    let exponent := exponentFor num den
    let significand := roundAt num den exponent
    if significand = significandBound then make? normalBound (exponent + 1)
    else make? significand exponent

def ofNat? (n : Nat) : Option Binary64 := ofRatio? n 1

/-- The product of two magnitudes. -/
def mul? (x y : Binary64) : Option Binary64 :=
  ofRatio? (x.ratio.1 * y.ratio.1) (x.ratio.2 * y.ratio.2)

/-- The quotient of two magnitudes. -/
def div? (x y : Binary64) : Option Binary64 :=
  ofRatio? (x.ratio.1 * y.ratio.2) (x.ratio.2 * y.ratio.1)

/-- The sum of two magnitudes. -/
def add? (x y : Binary64) : Option Binary64 :=
  ofRatio? (x.ratio.1 * y.ratio.2 + y.ratio.1 * x.ratio.2) (x.ratio.2 * y.ratio.2)

/-- The number nearest to a power of ten. -/
def tenPower? (exponent : Nat) : Option Binary64 := ofNat? (Nat.pow 10 exponent)

/-- The whole number nearest to a magnitude, a half going up. -/
def roundUp (x : Binary64) : Nat := nearestUp x.ratio.1 x.ratio.2

end Binary64

end Juxta
