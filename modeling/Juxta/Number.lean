import Juxta.Decimal.Text
import Juxta.Decimal.Power
import Juxta.Tag
import Juxta.Text.Blank

/-!
# Numbers of the language

* `Number.parse?` : the number that a numeral stands for;
* `Number.format` : the one text of a number, without zeros at the end of its fraction;
* `ArithmeticError` : why an operation has no result, with its wording;
* `Number.apply`, `Number.compare?` : the operators of arithmetic and comparison by their tags.
-/

namespace Juxta

/-- Why an operation on numbers has no result. -/
inductive ArithmeticError where
  | divisionByZero
  | overflow
  | notReal
  | notArithmetic
deriving DecidableEq

def ArithmeticError.message : ArithmeticError → String
  | .divisionByZero => "division by zero"
  | .overflow => "result out of range"
  | .notReal => "no real result"
  | .notArithmetic => "not an arithmetic operator"

namespace Number

/-- The letter before an exponent. -/
def marksExponent (c : Char) : Bool := c == 'e' || c == 'E'

/-- The number that a numeral without blanks stands for: digits with an exponent, or digits to
which a zero may be added in front. -/
def ofChars? (numeral : List Char) : Option Decimal :=
  if numeral.any marksExponent then
    Decimal.ofScientific? (numeral.takeWhile fun c => !marksExponent c)
      ((numeral.dropWhile fun c => !marksExponent c).drop 1)
  else if numeral.isEmpty then none
  else Decimal.ofChars? numeral <|> Decimal.ofChars? ('0' :: numeral)

/-- The number that a numeral stands for; blanks around it do not count. -/
def parse? (numeral : String) : Option Decimal := ofChars? (Text.trim numeral.toList)

/-- The text of a number, without zeros at the end of its fraction and without the sign of
zero. -/
def format (d : Decimal) : String := d.trim.text

/-- A result that is out of range if there is none. -/
def inRange (result : Option Decimal) : Except ArithmeticError Decimal :=
  match result with
  | some d => .ok d
  | none => .error .overflow

/-- An exponent as a 64-bit integer, if it is one. -/
def wholeExponent? (exponent : Decimal) : Option Int64 :=
  if exponent.isWhole then exponent.toInt64?.map Int64.ofInt else none

/-- A power. Zero has no negative powers, and a negative number only has whole ones. A negative
whole exponent is negated as a 64-bit integer, so the least of them stays as it is. -/
def power (base exponent : Decimal) : Except ArithmeticError Decimal :=
  if base.isZero && exponent.isNegative then .error .divisionByZero
  else if base.isNegative && !exponent.isWhole then .error .notReal
  else match wholeExponent? exponent with
    | some whole =>
      if whole < 0 then inRange (do Decimal.one.div? (← base.powWhole? (-whole)))
      else inRange (base.powWhole? whole)
    | none => inRange (base.powReal? exponent)

/-- The result of an operator. -/
def apply (tag : Tag) (left right : Decimal) : Except ArithmeticError Decimal :=
  match tag with
  | .add => inRange (left.add? right)
  | .sub => inRange (left.sub? right)
  | .mul => inRange (left.mul? right)
  | .div => if right.isZero then .error .divisionByZero else inRange (left.div? right)
  | .mod => if right.isZero then .error .divisionByZero else inRange (left.rem? right)
  | .pow => power left right
  | .min => .ok (left.min right)
  | .max => .ok (left.max right)
  | _ => .error .notArithmetic

/-- Whether a comparison holds, if the operator is one. -/
def compare? (tag : Tag) (left right : Decimal) : Option Bool :=
  match tag with
  | .eq => some (left.eq right)
  | .ne => some (!left.eq right)
  | .lt => some (left.lt right)
  | .gt => some (right.lt left)
  | .le => some (left.le right)
  | .ge => some (right.le left)
  | _ => none

end Number

end Juxta
