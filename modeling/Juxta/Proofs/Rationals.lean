import Juxta.Proofs.Numerals
import Mathlib.Data.Rat.Cast.Order
import Mathlib.Tactic.Ring

/-!
# The rational number that a decimal is

* `Decimal.value` : sign times mantissa over a power of ten;
* `Decimal.units_cast` : its value in units of the last possible place;
* `Decimal.eq_iff_value_eq` : equality of decimals is equality of the rational numbers;
* `Decimal.units_trim` : zeros at the end of the fraction do not count;
* `Number.text_canonical` : every decimal is read back from its text, up to such zeros and the sign
  of zero, and two decimals have the same text exactly if they are the same rational number.
-/

namespace Juxta

namespace Decimal

/-- The rational number: the mantissa with its sign, over a power of ten. -/
def value (d : Decimal) : ℚ := (if d.negative then -1 else 1) * d.mantissa / 10 ^ d.scale

theorem size_cast (d : Decimal) : (d.size : ℚ) = d.mantissa / 10 ^ d.scale * 10 ^ places := by
  have hsplit : d.size * 10 ^ d.scale = d.mantissa * 10 ^ places := by
    show d.mantissa * 10 ^ (places - d.scale) * 10 ^ d.scale = d.mantissa * 10 ^ places
    rw [Nat.mul_assoc, ← Nat.pow_add, Nat.sub_add_cancel d.scale_le]
  have hcast : (d.size : ℚ) * 10 ^ d.scale = d.mantissa * 10 ^ places := by exact_mod_cast hsplit
  rw [div_mul_eq_mul_div, eq_div_iff (pow_ne_zero _ (by norm_num)), hcast]

/-- A unit is one in the last possible place. -/
theorem units_cast (d : Decimal) : (d.units : ℚ) = d.value * 10 ^ places := by
  rw [units_eq]
  unfold value
  split
  · rw [Int.cast_neg, Int.cast_natCast, size_cast]
    ring
  · rw [Int.cast_natCast, size_cast]
    ring

/-- Decimals are equal exactly if they are the same rational number. -/
theorem eq_iff_value_eq {a b : Decimal} : a.eq b = true ↔ a.value = b.value := by
  have hplaces : (10 : ℚ) ^ places ≠ 0 := pow_ne_zero _ (by norm_num)
  show (a.units == b.units) = true ↔ a.value = b.value
  rw [beq_iff_eq, ← Int.cast_inj (α := ℚ), units_cast, units_cast, mul_left_inj' hplaces]

theorem units_trim (d : Decimal) : d.trim.units = d.units := by
  have hsign := d.negative_trim
  have habs := d.natAbs_units
  rw [units_eq, hsign, size_trim]
  by_cases hneg : d.units < 0
  · rw [if_pos (decide_eq_true hneg)]
    omega
  · rw [if_neg (by simpa using hneg)]
    omega

theorem eq_trim (d : Decimal) : d.trim.eq d = true := beq_iff_eq.2 d.units_trim

end Decimal

/-- The text of a number is canonical: for every sign, mantissa and scale in range it is read back
as a number equal to the one written, and it is the same text for two numbers exactly if they are
equal. -/
theorem Number.text_canonical (a b : Decimal) :
    (∃ c, Number.parse? (Number.format a) = some c ∧ c.eq a = true ∧ c.value = a.value) ∧
      (Number.format a = Number.format b ↔ a.value = b.value) := by
  constructor
  · exact ⟨a.trim, parse?_format a, a.eq_trim, Decimal.eq_iff_value_eq.1 a.eq_trim⟩
  · rw [format_eq_format_iff, Decimal.eq_iff_value_eq]

/-- Trailing zeros and the sign of zero leave no trace in the text. -/
example : Number.format ⟨true, 0, 28, by decide, by decide⟩ = "0" ∧
    Number.format ⟨true, 1500, 3, by decide, by decide⟩ = "-1.5" ∧
    Number.parse? "-1.5" = some ⟨true, 15, 1, by decide, by decide⟩ := by decide +kernel

end Juxta
