import Juxta.Proofs.Literals
import Juxta.Proofs.RescaledNumbers

/-!
# Zeros without a sign

Numerals and the results of arithmetic are no zeros with a sign, as long as the operands are none.
Only a sign in front of a zero makes one. So all other numbers stay what they are when zeros at the
end of their fractions are left out.

* `Decimal.NoMinusZero` : any number but a zero with a sign;
* `Decimal.NoMinusZero.rescaled_trim` : such a number without zeros at the end of its fraction;
* `Number.noMinusZero_of_parse?` : numerals;
* `Number.noMinusZero_of_apply`, `Decimal.NoMinusZero.neg` : operators and signs;
* `noMinusZero_of_operate` : the values of operations on numbers.
-/

namespace Juxta

namespace Decimal

/-- Any number but a zero with a sign. -/
def NoMinusZero (d : Decimal) : Prop := d.negative = true → d.isZero = false

variable {a b d : Decimal} {negative : Bool} {mantissa num den scale : Nat}

theorem NoMinusZero.rescaled_trim (h : d.NoMinusZero) : d.Rescaled d.trim :=
  Decimal.rescaled_trim h

theorem noMinusZero_zero : zero.NoMinusZero := nofun

theorem NoMinusZero.of_not_isZero (h : ¬ d.isZero = true) : d.NoMinusZero :=
  fun _ => Bool.not_eq_true _ ▸ h

theorem NoMinusZero.neg (h : d.isZero = false) : d.neg.NoMinusZero := fun _ => h

theorem noMinusZero_of_make? (h : make? negative mantissa scale = some d) : d.NoMinusZero := by
  obtain ⟨hm, -, hn⟩ := make?_eq_some h
  intro hsign
  rw [hn, Bool.and_eq_true, bne_iff_ne] at hsign
  exact beq_eq_false_iff_ne.2 (hm ▸ hsign.2)

theorem noMinusZero_trim (d : Decimal) : d.trim.NoMinusZero := by
  intro hsign
  have hsign : (d.negative && d.trim.mantissa != 0) = true := hsign
  rw [Bool.and_eq_true, bne_iff_ne] at hsign
  exact beq_eq_false_iff_ne.2 hsign.2

theorem noMinusZero_of_trim {x : Option Decimal} (h : x.map trim = some d) : d.NoMinusZero := by
  obtain ⟨other, -, rfl⟩ := Option.map_eq_some_iff.1 h
  exact noMinusZero_trim other

theorem noMinusZero_of_fitRatioBy? {round : Nat → Nat → Nat}
    (h : fitRatioBy? round negative num den scale = some d) : d.NoMinusZero := by
  induction scale with
  | zero => exact noMinusZero_of_make? h
  | succ scale ih =>
    unfold fitRatioBy? at h
    split at h
    · rename_i hmake
      cases h
      exact noMinusZero_of_make? hmake
    · exact ih h

/-! ## Arithmetic -/

theorem NoMinusZero.add? (ha : a.NoMinusZero) (hb : b.NoMinusZero) (h : a.add? b = some d) :
    d.NoMinusZero := by
  unfold Decimal.add? at h
  split at h
  · cases h
    exact hb
  · split at h
    · cases h
      exact ha
    · exact noMinusZero_of_fitRatioBy? h

theorem NoMinusZero.sub? (ha : a.NoMinusZero) (hb : b.NoMinusZero) (h : a.sub? b = some d) :
    d.NoMinusZero := by
  unfold Decimal.sub? at h
  split at h
  · cases h
    exact hb
  · rename_i hzeros
    by_cases hzero : b.isZero = true
    · -- taking a zero away leaves the other number, which is none
      have hother : ¬ a.isZero = true := fun hzero' => hzeros (by rw [hzero, hzero']; rfl)
      unfold Decimal.add? at h
      rw [if_neg hother, if_pos (show b.neg.isZero = true from hzero)] at h
      cases h
      exact ha
    · exact ha.add? (.neg (Bool.not_eq_true _ ▸ hzero)) h

theorem noMinusZero_of_mul? (h : a.mul? b = some d) : d.NoMinusZero := by
  unfold Decimal.mul? at h
  split at h
  · cases h
    exact noMinusZero_zero
  · exact noMinusZero_of_fitRatioBy? h

theorem noMinusZero_of_div? (h : a.div? b = some d) : d.NoMinusZero := by
  unfold Decimal.div? at h
  split at h
  · cases h
  · split at h
    · cases h
      exact noMinusZero_zero
    · dsimp only at h
      split at h
      · exact noMinusZero_of_make? h
      · exact noMinusZero_of_trim h

theorem noMinusZero_of_rem? (h : a.rem? b = some d) : d.NoMinusZero := by
  unfold Decimal.rem? at h
  split at h
  · cases h
  · split at h
    · cases h
      exact noMinusZero_zero
    · rename_i hzero
      split at h
      · cases h
        exact .of_not_isZero hzero
      · split at h
        · cases h
          exact noMinusZero_zero
        · exact noMinusZero_of_make? h

/-! ## Powers -/

theorem noMinusZero_of_powNat? {exponent : Nat} (h : a.powNat? exponent = some d) :
    d.NoMinusZero := by
  unfold powNat? at h
  split at h
  · cases h
    exact nofun
  · split at h
    · cases h
      exact noMinusZero_zero
    · rename_i hzero
      split at h
      · cases h
        exact nofun
      · split at h
        · cases h
          exact .of_not_isZero hzero
        · exact noMinusZero_of_mul? h
        · exact noMinusZero_of_trim h

theorem noMinusZero_of_powWhole? {exponent : Int64} (h : a.powWhole? exponent = some d) :
    d.NoMinusZero := by
  unfold powWhole? at h
  split at h
  · obtain ⟨power, -, hquotient⟩ := Option.bind_eq_some_iff.1 h
    exact noMinusZero_of_div? hquotient
  · exact noMinusZero_of_powNat? h

theorem noMinusZero_of_exp? (h : a.exp? = some d) : d.NoMinusZero := by
  unfold exp? at h
  split at h
  · obtain ⟨power, -, hquotient⟩ := Option.bind_eq_some_iff.1 h
    exact noMinusZero_of_div? hquotient
  · unfold expAbs? at h
    split at h
    · cases h
    · exact noMinusZero_of_fitRatioBy? h

theorem noMinusZero_of_powReal? (h : a.powReal? b = some d) : d.NoMinusZero := by
  unfold powReal? at h
  split at h
  · cases h
    exact noMinusZero_zero
  · split at h
    · cases h
      exact nofun
    · split at h
      · cases h
      · obtain ⟨log, -, h⟩ := Option.bind_eq_some_iff.1 h
        obtain ⟨product, -, hexp⟩ := Option.bind_eq_some_iff.1 h
        exact noMinusZero_of_exp? hexp

/-! ## Numerals -/

theorem noMinusZero_of_roundOff {tail : List Char}
    (h : roundOff negative mantissa scale tail = some d) : d.NoMinusZero := by
  unfold roundOff at h
  split at h
  · cases h
  · split at h
    · exact noMinusZero_of_make? h
    · split at h
      · exact noMinusZero_of_make? h
      · split at h
        · cases h
        · exact noMinusZero_of_make? h

theorem noMinusZero_of_readDigits {point any : Bool} {chars : List Char}
    (h : readDigits negative point any mantissa scale chars = some d) : d.NoMinusZero := by
  fun_induction readDigits negative point any mantissa scale chars with
  | case1 => exact noMinusZero_of_make? h
  | case2 => cases h
  | case3 => exact noMinusZero_of_roundOff h
  | case4 _ _ _ _ _ _ _ _ _ _ ih => exact ih h
  | case5 => exact noMinusZero_of_roundOff h
  | case6 => cases h
  | case7 _ _ _ _ _ _ _ _ _ ih => exact ih h
  | case8 _ _ _ _ _ _ _ _ _ _ ih => exact ih h
  | case9 => cases h

theorem noMinusZero_of_ofChars? {chars : List Char} (h : ofChars? chars = some d) :
    d.NoMinusZero := by
  unfold ofChars? at h
  split at h <;> exact noMinusZero_of_readDigits h

theorem noMinusZero_of_ofScientific? {base exponent : List Char}
    (h : ofScientific? base exponent = some d) : d.NoMinusZero := by
  unfold ofScientific? at h
  obtain ⟨base, -, h⟩ := Option.bind_eq_some_iff.1 h
  split at h
  · obtain ⟨e, -, h⟩ := Option.bind_eq_some_iff.1 h
    by_cases hlarge : places < e
    · rw [if_pos hlarge] at h
      cases h
    · rw [if_neg hlarge] at h
      exact noMinusZero_of_make? h
  · obtain ⟨e, -, h⟩ := Option.bind_eq_some_iff.1 h
    by_cases hlarge : places < e
    · rw [if_pos hlarge] at h
      cases h
    · rw [if_neg hlarge] at h
      split at h
      · exact noMinusZero_of_make? h
      · exact noMinusZero_of_trim h

end Decimal

namespace Number

open Decimal

variable {left right n : Decimal}

/-- No numeral stands for a zero with a sign. -/
theorem noMinusZero_of_parse? {numeral : String} (h : parse? numeral = some n) :
    n.NoMinusZero := by
  unfold parse? ofChars? at h
  split at h
  · exact noMinusZero_of_ofScientific? h
  · split at h
    · cases h
    · rcases (Option.orElse_eq_some _ _ _).1 h with h | ⟨-, h⟩
      · exact noMinusZero_of_ofChars? h
      · exact noMinusZero_of_ofChars? h

theorem eq_some_of_inRange {result : Option Decimal} (h : inRange result = .ok n) :
    result = some n := by
  unfold inRange at h
  split at h
  · cases h
    rfl
  · cases h

theorem noMinusZero_of_power (h : power left right = .ok n) : n.NoMinusZero := by
  unfold power at h
  split at h
  · cases h
  · split at h
    · cases h
    · split at h
      · split at h
        · obtain ⟨power, -, hquotient⟩ := Option.bind_eq_some_iff.1 (eq_some_of_inRange h)
          exact noMinusZero_of_div? hquotient
        · exact noMinusZero_of_powWhole? (eq_some_of_inRange h)
      · exact noMinusZero_of_powReal? (eq_some_of_inRange h)

/-- An operator gives a zero with a sign only if it is given one. -/
theorem noMinusZero_of_apply {tag : Tag} (hl : left.NoMinusZero) (hr : right.NoMinusZero)
    (h : apply tag left right = .ok n) : n.NoMinusZero := by
  unfold apply at h
  split at h
  · exact hl.add? hr (eq_some_of_inRange h)
  · exact hl.sub? hr (eq_some_of_inRange h)
  · exact noMinusZero_of_mul? (eq_some_of_inRange h)
  · split at h
    · cases h
    · exact noMinusZero_of_div? (eq_some_of_inRange h)
  · split at h
    · cases h
    · exact noMinusZero_of_rem? (eq_some_of_inRange h)
  · exact noMinusZero_of_power h
  · cases h
    unfold Decimal.min
    split
    · exact hr
    · exact hl
  · cases h
    unfold Decimal.max
    split
    · exact hr
    · exact hl
  · cases h

end Number

/-! ## Operations -/

section

variable {tag : Tag} {ns : List Decimal} {n : Decimal}

/-- Arithmetic gives a zero with a sign only if it is given one, or if it puts a sign in front of a
zero. -/
theorem noMinusZero_of_arithmetic (h : arithmetic tag (ns.map Value.number) = .value (.number n))
    (hns : ∀ m ∈ ns, m.NoMinusZero) (hneg : tag = .neg → ∀ m ∈ ns, m.isZero = false) :
    n.NoMinusZero := by
  unfold arithmetic at h
  rw [not_isNaN_map, numbers_map] at h
  dsimp only at h
  rcases ns with _ | ⟨left, _ | ⟨right, _ | ⟨_, _⟩⟩⟩
  · cases h
  · by_cases htag : tag = .neg
    · simp only [htag, if_true] at h
      cases h
      exact .neg (hneg htag left List.mem_cons_self)
    · simp only [htag, if_false] at h
      cases h
  · cases hresult : Number.apply tag left right with
    | ok result =>
      simp only [hresult] at h
      cases h
      exact Number.noMinusZero_of_apply (hns left List.mem_cons_self)
        (hns right (List.mem_cons_of_mem _ List.mem_cons_self)) hresult
    | error cause =>
      simp only [hresult] at h
      cases h
  · cases h

/-- A comparison comes to no number. -/
theorem comparison_ne_number (tag : Tag) (values : List Value) (n : Decimal) :
    comparison tag values ≠ .value (.number n) := by
  unfold comparison
  split
  · nofun
  · split
    · nofun
    · split <;> nofun
    · nofun

/-- The same of the operators of arithmetic and comparison. -/
theorem noMinusZero_of_operate {around : Surroundings} (ht : tag ∈ Tag.operators)
    (h : tag.operate around (ns.map Value.number) = .value (.number n))
    (hns : ∀ m ∈ ns, m.NoMinusZero) (hneg : tag = .neg → ∀ m ∈ ns, m.isZero = false) :
    n.NoMinusZero := by
  fin_cases ht
  iterate 7 · exact noMinusZero_of_arithmetic h hns hneg
  iterate 6 · exact absurd h (comparison_ne_number _ _ n)

end

end Juxta
