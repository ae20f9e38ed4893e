import Juxta.Proofs.Rationals
import Mathlib.Tactic.Linarith

/-!
# Arithmetic whose 64-bit operations are checked

The only 64-bit operation of arithmetic is the negation of a whole exponent. Here it stops where
the opposite of an integer has no 64 bits.

* `Number.opposite?` : the checked negation, and `Number.opposite?_eq` : it fails on one integer;
* `Number.checkedApply` : arithmetic that stops there;
* `Number.wholeExponent?_eq_minValue_iff` : which exponents are that integer;
* `Number.checkedApply_eq` : arithmetic stops at powers of numbers other than zero with that
  exponent only, and gives everywhere else what it gives without the check.
-/

namespace Juxta

namespace Number

/-- The opposite of a 64-bit integer, if it has 64 bits too. -/
def opposite? (n : Int64) : Option Int64 := if (-n).toInt = -n.toInt then some (-n) else none

/-- A power, if no 64-bit operation leaves the range. -/
def checkedPower (base exponent : Decimal) : Option (Except ArithmeticError Decimal) :=
  if base.isZero && exponent.isNegative then some (.error .divisionByZero)
  else if base.isNegative && !exponent.isWhole then some (.error .notReal)
  else match wholeExponent? exponent with
    | some whole =>
      if whole < 0 then
        (opposite? whole).map fun opposite =>
          inRange (do Decimal.one.div? (← base.powWhole? opposite))
      else some (inRange (base.powWhole? whole))
    | none => some (inRange (base.powReal? exponent))

/-- The result of an operator, if no 64-bit operation leaves the range. -/
def checkedApply (tag : Tag) (left right : Decimal) : Option (Except ArithmeticError Decimal) :=
  match tag with
  | .pow => checkedPower left right
  | _ => some (apply tag left right)

/-! ## The negation -/

theorem opposite?_eq (n : Int64) :
    opposite? n = if n = Int64.minValue then none else some (-n) := by
  unfold opposite?
  by_cases hleast : n = Int64.minValue
  · subst hleast
    decide
  · have hlower : -2 ^ 63 ≤ n.toInt := n.le_toInt
    have hupper : n.toInt < 2 ^ 63 := n.toInt_lt
    have hne : n.toInt ≠ -2 ^ 63 := fun h => hleast (Int64.toInt_inj.1 h)
    have hneg : (-n).toInt = -n.toInt := by
      rw [Int64.toInt_neg]
      exact Int.bmod_eq_of_le (by omega) (by omega)
    rw [if_pos hneg, if_neg hleast]

/-! ## Whole numbers as rational numbers -/

end Number

namespace Decimal

theorem whole_mul_of_isWhole {d : Decimal} (h : d.isWhole = true) :
    d.whole * 10 ^ d.scale = d.mantissa :=
  Nat.div_mul_cancel (Nat.dvd_of_mod_eq_zero (beq_iff_eq.1 h))

theorem value_of_isWhole {d : Decimal} (h : d.isWhole = true) : d.value = d.toInt := by
  have hpow : (10 : ℚ) ^ d.scale ≠ 0 := pow_ne_zero _ (by norm_num)
  unfold value toInt
  rw [← whole_mul_of_isWhole h, div_eq_iff hpow]
  split
  · push_cast
    ring
  · push_cast
    ring

theorem isWhole_of_value_eq {d : Decimal} {n : Int} (h : d.value = n) : d.isWhole = true := by
  have hpow : (10 : ℚ) ^ d.scale ≠ 0 := pow_ne_zero _ (by norm_num)
  have hsigned : (if d.negative then -1 else 1) * (d.mantissa : Int) = n * 10 ^ d.scale := by
    unfold value at h
    rw [div_eq_iff hpow] at h
    exact_mod_cast h
  have hdvd : (10 ^ d.scale : Int) ∣ d.mantissa := by
    split at hsigned
    · exact ⟨-n, by linarith⟩
    · exact ⟨n, by linarith⟩
  exact beq_iff_eq.2 (Nat.mod_eq_zero_of_dvd (by exact_mod_cast hdvd))

theorem isNegative_of_value_neg {d : Decimal} (h : d.value < 0) : d.isNegative = true := by
  unfold value at h
  cases hsign : d.negative with
  | false =>
    rw [hsign, if_neg Bool.false_ne_true, one_mul] at h
    exact absurd h (not_lt.2 (div_nonneg (Nat.cast_nonneg _) (pow_nonneg (by norm_num) _)))
  | true =>
    have hmantissa : d.mantissa ≠ 0 := fun hzero => by
      rw [hzero] at h
      norm_num at h
    unfold isNegative isZero
    rw [hsign, Bool.true_and, Bool.not_eq_true', beq_eq_false_iff_ne]
    exact hmantissa

end Decimal

namespace Number

/-! ## The least exponent -/

/-- The exponents that are the least 64-bit integer are the decimals of that value. -/
theorem wholeExponent?_eq_minValue_iff (exponent : Decimal) :
    wholeExponent? exponent = some Int64.minValue ↔ exponent.value = -2 ^ 63 := by
  unfold wholeExponent? Decimal.toInt64?
  constructor
  · intro h
    split at h
    · rename_i hwhole
      split at h
      · rename_i hrange
        rw [Bool.and_eq_true, decide_eq_true_eq, decide_eq_true_eq] at hrange
        have hint : (Int64.ofInt exponent.toInt).toInt = exponent.toInt :=
          Int64.toInt_ofInt_of_le (by omega) (by omega)
        rw [Option.map_some, Option.some_inj] at h
        rw [h, Int64.toInt_minValue] at hint
        rw [Decimal.value_of_isWhole hwhole, ← hint]
        norm_num
      · cases h
    · cases h
  · intro h
    have hwhole : exponent.isWhole = true :=
      Decimal.isWhole_of_value_eq (n := -2 ^ 63) (by rw [h]; norm_num)
    have hint : exponent.toInt = -2 ^ 63 := by
      have hvalue := Decimal.value_of_isWhole hwhole
      rw [h] at hvalue
      have hcast : (exponent.toInt : ℚ) = ((-2 ^ 63 : Int) : ℚ) := by
        rw [← hvalue]
        norm_num
      exact Int.cast_inj.1 hcast
    rw [if_pos hwhole, hint]
    decide

theorem isWhole_of_minValue {exponent : Decimal}
    (h : wholeExponent? exponent = some Int64.minValue) : exponent.isWhole = true :=
  Decimal.isWhole_of_value_eq (n := -2 ^ 63)
    (by rw [(wholeExponent?_eq_minValue_iff exponent).1 h]; norm_num)

/-- Where no 64-bit operation leaves the range the check changes nothing. -/
theorem checkedPower_of_ne {exponent : Decimal} (base : Decimal)
    (h : wholeExponent? exponent ≠ some Int64.minValue) :
    checkedPower base exponent = some (power base exponent) := by
  unfold checkedPower power
  split
  · rfl
  · split
    · rfl
    · cases hwhole : wholeExponent? exponent with
      | none => rfl
      | some whole =>
        have hne : whole ≠ Int64.minValue := fun hleast => h (hleast ▸ hwhole)
        dsimp only
        split
        · rw [opposite?_eq, if_neg hne, Option.map_some]
        · rfl

theorem checkedPower_of_minValue {base exponent : Decimal} (hbase : base.isZero = false)
    (h : wholeExponent? exponent = some Int64.minValue) : checkedPower base exponent = none := by
  have hwhole : exponent.isWhole = true := isWhole_of_minValue h
  unfold checkedPower
  rw [hbase, hwhole, h]
  simp [opposite?_eq, Int64.lt_iff_toInt_lt]

/-- The least exponent is its own opposite, so the reciprocal is taken twice: what comes out is near
the power with the exponent `2 ^ 63` and not its reciprocal. -/
theorem power_of_minValue {base exponent : Decimal} (hbase : base.isZero = false)
    (h : wholeExponent? exponent = some Int64.minValue) :
    power base exponent =
      inRange (do Decimal.one.div? (← Decimal.one.div? (← base.powNat? (2 ^ 63)))) := by
  have hwhole : exponent.isWhole = true := isWhole_of_minValue h
  have hneg : Int64.minValue < 0 := by decide
  have hpow : base.powWhole? (-Int64.minValue)
      = base.powNat? (2 ^ 63) >>= fun denominator => Decimal.one.div? denominator := rfl
  unfold power
  rw [hbase, hwhole, h, Bool.false_and, Bool.not_true, Bool.and_false]
  simp only [Bool.false_eq_true, if_false, if_pos hneg, hpow, bind_assoc]

/-- Zero has no power with the least exponent, whatever its opposite is. -/
theorem checkedPower_of_isZero {base exponent : Decimal} (hbase : base.isZero = true) :
    checkedPower base exponent = some (power base exponent) := by
  by_cases h : wholeExponent? exponent = some Int64.minValue
  · have hneg : exponent.isNegative = true :=
      Decimal.isNegative_of_value_neg
        (by rw [(wholeExponent?_eq_minValue_iff exponent).1 h]; norm_num)
    unfold checkedPower power
    rw [hbase, hneg]
    rfl
  · exact checkedPower_of_ne base h

/-- The only operation of arithmetic that leaves the range of 64-bit integers is the negation of
the exponent `-2 ^ 63`, of whichever scale it is written with, when a number other than zero is
raised to it. Everywhere else there is a result or an error, the one without the check. -/
theorem checkedApply_eq (tag : Tag) (left right : Decimal) :
    checkedApply tag left right =
      if tag = .pow ∧ left.isZero = false ∧ right.value = -2 ^ 63 then none
      else some (apply tag left right) := by
  by_cases htag : tag = .pow
  · subst htag
    show checkedPower left right = _
    have hiff := wholeExponent?_eq_minValue_iff right
    by_cases hleft : left.isZero = true
    · rw [if_neg (fun h => by simp [hleft] at h), checkedPower_of_isZero hleft]
      rfl
    · rw [Bool.not_eq_true] at hleft
      by_cases hright : wholeExponent? right = some Int64.minValue
      · rw [if_pos ⟨rfl, hleft, hiff.1 hright⟩, checkedPower_of_minValue hleft hright]
      · rw [if_neg (fun h => hright (hiff.2 h.2.2)), checkedPower_of_ne left hright]
        rfl
  · rw [if_neg (fun h => htag h.1)]
    cases tag <;> first | rfl | exact absurd rfl htag

/-- One to the least exponent leaves the range. -/
theorem checkedApply_one_minValue :
    checkedApply .pow .one ⟨true, 9223372036854775808, 0, by decide, by decide⟩ = none := by
  decide +kernel

end Number

end Juxta
