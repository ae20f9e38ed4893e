import Juxta.Decimal.Arithmetic

/-!
# Powers of decimal numbers

* `Decimal.toInt64?` : a whole number in the range of 64-bit integers;
* `Decimal.powNat?` : whole powers, by squaring, every product rounded;
* `Decimal.powWhole?` : powers of either sign with a 64-bit exponent;
* `Decimal.ln?`, `Decimal.exp?`, `Decimal.powReal?` : powers with a fraction, through the logarithm.
  The series are summed in fixed point with 57 places, twice the precision of the result and one
  more, until the first 29 places stand still.
-/

namespace Juxta.Decimal

/-- The number without its fraction, if it is a 64-bit integer. -/
def toInt64? (d : Decimal) : Option Int :=
  if -9223372036854775808 ≤ d.toInt && d.toInt < 9223372036854775808 then some d.toInt else none

/-- Multiplies `acc` with `power ^ exponent`, from the low bit of the exponent on. -/
def powBits (acc power : Decimal) (exponent : Nat) : Option Decimal := do
  let acc ← if exponent % 2 = 1 then acc.mul? power else some acc
  if h : exponent / 2 = 0 then return acc
  else powBits acc (← power.mul? power) (exponent / 2)
termination_by exponent
decreasing_by omega

/-- A whole power. The powers of one, the power with exponent zero and the first two powers of
any number are exact. -/
def powNat? (base : Decimal) (exponent : Nat) : Option Decimal :=
  if exponent = 0 then some one
  else if base.isZero then some zero
  else if base.eq one then some one
  else match exponent with
    | 1 => some base
    | 2 => base.mul? base
    | _ => (powBits one base exponent).map trim

/-- A whole power of either sign; a negative one is the quotient of one and the positive one. -/
def powWhole? (base : Decimal) (exponent : Int64) : Option Decimal :=
  if exponent < 0 then do one.div? (← base.powNat? exponent.toInt.natAbs)
  else base.powNat? exponent.toInt.natAbs

/-! ## Series in fixed point -/

/-- One in fixed point with 57 places. -/
def unit57 : Int := Nat.pow 10 57

/-- The number in fixed point; 28 places leave room for 57. -/
def toFixed (d : Decimal) : Int := d.units * Nat.pow 10 29

/-- The number in fixed point, rounded away from zero. -/
def ofFixed? (a : Int) : Option Decimal := fitAway? (a < 0) a.natAbs 57

/-- A quotient of whole numbers, rounded half to even in magnitude. -/
def nearestInt (num den : Int) : Int :=
  let magnitude : Int := nearestEven num.natAbs den.natAbs
  if (num < 0) != (den < 0) then -magnitude else magnitude

def mulFixed (a b : Int) : Int := nearestInt (a * b) unit57

/-- The first 29 places of a number in fixed point, one more than a result has. -/
def leading29 (a : Int) : Nat := a.natAbs / Nat.pow 10 28

/-- Sums a series until a term leaves the first 29 places of the sum as they are; that term does
not count any more. There are `terms` of them at most: `next` gives the power after `power`, and
the `n`th term is `term power n`. -/
def series (next : Int → Nat → Int) (term : Int → Nat → Int) :
    (terms : Nat) → (sum power : Int) → (n : Nat) → Int
  | 0, sum, _, _ => sum
  | terms + 1, sum, power, n =>
    let longer := sum + term power n
    if leading29 longer = leading29 sum then sum
    else series next term terms longer (next power n) (n + 1)

/-- The inverse hyperbolic tangent: the sum of `t ^ (2 n + 1) / (2 n + 1)`. -/
def artanhFixed (t : Int) : Int :=
  let square := mulFixed t t
  series (fun power _ => mulFixed power square)
    (fun power n => nearestInt power (2 * n + 1)) 400 0 t 0

/-- The exponential of a number from zero to one: the sum of `t ^ n / n!`. -/
def expFixed (t : Int) : Int :=
  series (fun power n => nearestInt (power * t) (unit57 * (n + 1))) (fun power _ => power)
    100 0 unit57 0

/-! ## Logarithm and exponential -/

/-- The base of natural logarithms to 28 places. -/
def naturalBase : Decimal := ⟨false, 27182818284590452353602874714, 28, by decide, by decide⟩

/-- The reciprocal of the natural base to 28 places. -/
def reciprocalBase : Decimal := ⟨false, 3678794411714423215955237702, 28, by decide, by decide⟩

/-- The logarithm of ten to 27 places. -/
def lnTen : Decimal := ⟨false, 2302585092994045684017991454, 27, by decide, by decide⟩

/-- Divides by the natural base while the number is above one, and counts the divisions. -/
def descend? : (steps : Nat) → (x : Decimal) → (count : Int) → Option (Decimal × Int)
  | 0, x, count => some (x, count)
  | steps + 1, x, count =>
    if x.le one then some (x, count)
    else do descend? steps (← x.mul? reciprocalBase) (count + 1)

/-- The natural logarithm of a positive number: a power of ten and a power of the natural base are
taken out, and the logarithm of the rest `x` is twice the inverse hyperbolic tangent of
`(x - 1) / (x + 1)`. -/
def ln? (d : Decimal) : Option Decimal := do
  let digits := (Nat.toDigits 10 d.mantissa).length
  let tens : Int := (digits : Int) - 1 - d.scale
  -- the digits with the point after the first one lie between one and ten, so three divisions do
  let (x, count) ← descend? 3 (← make? false d.mantissa (digits - 1)) 0
  let quotient ← (← x.sub? one).div? (← x.add? one)
  let rest ← ofFixed? (2 * artanhFixed quotient.toFixed)
  (← rest.add? (← ofInt? count)).add? (← lnTen.mul? (← ofInt? tens))

/-- The exponential of the magnitude of a number: the power of the natural base for the digits
before the point times the series for the digits behind it, rounded away from zero. No result
beyond the 66th power is in range. -/
def expAbs? (d : Decimal) : Option Decimal :=
  if 66 < d.whole then none
  else
    let fraction := expFixed (d.fraction * Nat.pow 10 (57 - d.scale) : Nat)
    fitAway? false (Nat.pow naturalBase.mantissa d.whole * fraction.natAbs)
      (naturalBase.scale * d.whole + 57)

/-- The exponential; that of a negative number is the quotient of one and the positive one. -/
def exp? (d : Decimal) : Option Decimal :=
  if d.isNegative then do one.div? (← d.expAbs?) else d.expAbs?

/-- A power whose exponent has a fraction or is no 64-bit integer. The base is not negative. -/
def powReal? (base exponent : Decimal) : Option Decimal :=
  if base.isZero then some zero
  else if base.eq one then some one
  else if exponent.isWhole then none
  else do ((← base.ln?).mul? exponent) >>= exp?

end Juxta.Decimal
