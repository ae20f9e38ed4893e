/-!
# Rounded quotients of natural numbers

* `nearestEven` : the natural number nearest to a quotient, a tie going to the even neighbour;
* `nearestUp` : the same with a tie going to the greater neighbour;
* `leastAbove` : the least natural number that is not below a quotient;
* `two_mul_nearestEven_le`, `le_two_mul_nearestEven` : the result is off by half a unit at most;
* `nearestEven_mul` : a quotient that is whole is kept;
* `le_mul_leastAbove`, `mul_leastAbove_lt` : the result is not below the quotient, and off by less
  than a unit.
-/

namespace Juxta

/-- The natural number nearest to `num / den`; of two equally near, the even one. -/
def nearestEven (num den : Nat) : Nat :=
  let quotient := num / den
  let rest := num % den
  if den < 2 * rest || (2 * rest == den && quotient % 2 == 1) then quotient + 1 else quotient

/-- The natural number nearest to `num / den`; of two equally near, the greater one. -/
def nearestUp (num den : Nat) : Nat :=
  if den ≤ 2 * (num % den) then num / den + 1 else num / den

/-- The least natural number that is not below `num / den`. -/
def leastAbove (num den : Nat) : Nat :=
  if num % den = 0 then num / den else num / den + 1

theorem two_mul_nearestEven_le (num : Nat) {den : Nat} (h : 0 < den) :
    2 * (den * nearestEven num den) ≤ 2 * num + den := by
  have split := Nat.div_add_mod num den
  have small := Nat.mod_lt num h
  simp only [nearestEven]
  split
  · rename_i up
    simp only [Bool.or_eq_true, decide_eq_true_eq, Bool.and_eq_true, beq_iff_eq] at up
    rw [Nat.mul_add]; omega
  · omega

theorem le_two_mul_nearestEven (num : Nat) {den : Nat} (h : 0 < den) :
    2 * num ≤ 2 * (den * nearestEven num den) + den := by
  have split := Nat.div_add_mod num den
  have small := Nat.mod_lt num h
  simp only [nearestEven]
  split
  · rw [Nat.mul_add]; omega
  · rename_i down
    simp only [Bool.or_eq_true, decide_eq_true_eq, Bool.and_eq_true, beq_iff_eq, not_or] at down
    omega

theorem nearestEven_mul (quotient : Nat) {den : Nat} (h : 0 < den) :
    nearestEven (quotient * den) den = quotient := by
  have zero : ¬ den < 0 := by omega
  have pos : ¬ (0 = den) := by omega
  simp [nearestEven, Nat.mul_div_cancel _ h, zero, pos]

theorem le_mul_leastAbove (num : Nat) {den : Nat} (h : 0 < den) :
    num ≤ den * leastAbove num den := by
  have split := Nat.div_add_mod num den
  have small := Nat.mod_lt num h
  simp only [leastAbove]
  split
  · omega
  · rw [Nat.mul_add]; omega

theorem mul_leastAbove_lt (num : Nat) {den : Nat} (h : 0 < den) :
    den * leastAbove num den < num + den := by
  have split := Nat.div_add_mod num den
  simp only [leastAbove]
  split
  · omega
  · rw [Nat.mul_add]; omega

end Juxta
