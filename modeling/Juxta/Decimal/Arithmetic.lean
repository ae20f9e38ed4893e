import Juxta.Decimal.Basic

/-!
# Arithmetic on decimal numbers

Each operation gives the exact result, rounded half to even at the greatest scale that fits, and
nothing if none fits.

* `Decimal.add?`, `Decimal.sub?`, `Decimal.mul?` : the scale of an exact result is the greater of
  the two scales, or their sum for a product; adding zero or taking it away changes nothing, not
  even the scale;
* `Decimal.div?` : an exact quotient keeps the difference of the scales, any other has no zeros at
  the end of its fraction;
* `Decimal.rem?` : the exact remainder, with the sign of the dividend.
-/

namespace Juxta.Decimal

/-- The mantissa at a scale that is not below the number's own, with its sign. -/
def signedAt (d : Decimal) (scale : Nat) : Int :=
  let magnitude : Int := (d.mantissa * Nat.pow 10 (scale - d.scale) : Nat)
  if d.negative then -magnitude else magnitude

def add? (a b : Decimal) : Option Decimal :=
  if a.isZero then some b
  else if b.isZero then some a
  else
    let scale := Nat.max a.scale b.scale
    let sum := a.signedAt scale + b.signedAt scale
    fit? (sum < 0) sum.natAbs scale

/-- The difference; of two zeros it is the second one, whatever its sign. -/
def sub? (a b : Decimal) : Option Decimal :=
  if a.isZero && b.isZero then some b else a.add? b.neg

def mul? (a b : Decimal) : Option Decimal :=
  if a.isZero || b.isZero then some zero
  else fit? (a.negative != b.negative) (a.mantissa * b.mantissa) (a.scale + b.scale)

/-- The quotient; nothing if the divisor is zero. -/
def div? (a b : Decimal) : Option Decimal :=
  if b.isZero then none
  else if a.isZero then some zero
  else
    let negative := a.negative != b.negative
    if a.mantissa % b.mantissa = 0 && b.scale ≤ a.scale then
      make? negative (a.mantissa / b.mantissa) (a.scale - b.scale)
    else
      (fitRatio? negative (a.mantissa * Nat.pow 10 b.scale) (b.mantissa * Nat.pow 10 a.scale)
        places).map trim

/-- The remainder; nothing if the divisor is zero. -/
def rem? (a b : Decimal) : Option Decimal :=
  if b.isZero then none
  else if a.isZero then some zero
  else if a.abs.lt b.abs then some a
  else if a.abs.eq b.abs then some zero
  else
    let scale := Nat.max a.scale b.scale
    make? a.negative
      (a.mantissa * Nat.pow 10 (scale - a.scale) % (b.mantissa * Nat.pow 10 (scale - b.scale)))
      scale

end Juxta.Decimal
