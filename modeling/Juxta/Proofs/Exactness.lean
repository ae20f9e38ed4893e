import Mathlib.Tactic.Ring
import Mathlib.Tactic.Linarith
import Juxta.Proofs.Numerals

/-!
# Exact and rounded results

A result is rounded at the greatest scale at which its mantissa fits. If it is a whole number of
units of some place and fits there, it is not rounded at all; if it does not fit there, rounding
takes it below no number that does.

* `Decimal.fitRatioBy?_eq_some`, `Decimal.exists_fitRatioBy?` : the scale that is taken;
* `Decimal.fit?_exact`, `Decimal.fit?_large` : results that fit at a place, and those that do not;
* `Decimal.add?_exact`, `Decimal.add?_large` : the same of sums;
* `Decimal.lt_ceil_div?` : a quotient that is greater than a number is not rounded down to it.
-/

namespace Juxta.Decimal

/-! ## The scale of a result -/

theorem make?_eq_some {negative : Bool} {mantissa scale : Nat} {d : Decimal}
    (h : make? negative mantissa scale = some d) :
    d.mantissa = mantissa ∧ d.scale = scale ∧ d.negative = (negative && mantissa != 0) := by
  unfold make? at h
  split at h
  · cases h
    exact ⟨rfl, rfl, rfl⟩
  · cases h

theorem make?_eq_none {negative : Bool} {mantissa scale : Nat} (hs : scale ≤ places)
    (h : make? negative mantissa scale = none) : bound ≤ mantissa := by
  unfold make? at h
  split at h
  · cases h
  · rename_i hout
    exact Nat.le_of_not_lt fun hlt => hout ⟨hlt, hs⟩

theorem exists_make? (negative : Bool) {mantissa scale : Nat} (hm : mantissa < bound)
    (hs : scale ≤ places) : ∃ d, make? negative mantissa scale = some d := by
  unfold make?
  rw [dif_pos ⟨hm, hs⟩]
  exact ⟨_, rfl⟩

section Ratio

variable {round : Nat → Nat → Nat} {negative : Bool} {num den scale : Nat}

/-- A quotient is taken at the greatest scale at which its rounded mantissa fits. -/
theorem fitRatioBy?_eq_some {d : Decimal} (hs : scale ≤ places)
    (h : fitRatioBy? round negative num den scale = some d) :
    d.scale ≤ scale ∧ d.mantissa = round (num * 10 ^ d.scale) den ∧
      d.negative = (negative && d.mantissa != 0) ∧
      ∀ s, d.scale < s → s ≤ scale → bound ≤ round (num * 10 ^ s) den := by
  induction scale with
  | zero =>
    obtain ⟨hm, hscale, hn⟩ := make?_eq_some h
    refine ⟨hscale.le, ?_, by rw [hm, hn], fun s hlt hle => by omega⟩
    rw [hm, hscale, Nat.pow_zero, Nat.mul_one]
  | succ scale ih =>
    unfold fitRatioBy? at h
    split at h
    · rename_i found hmake
      cases h
      obtain ⟨hm, hscale, hn⟩ := make?_eq_some hmake
      refine ⟨hscale.le, ?_, by rw [hm, hn], fun s hlt hle => by omega⟩
      rw [hm, hscale]
      rfl
    · rename_i hmake
      obtain ⟨hle, hm, hn, habove⟩ := ih (Nat.le_of_succ_le hs) h
      refine ⟨Nat.le_succ_of_le hle, hm, hn, fun s hlt hs' => ?_⟩
      rcases Nat.le_succ_iff.1 hs' with hs' | rfl
      · exact habove s hlt hs'
      · exact make?_eq_none hs hmake

/-- A quotient whose mantissa fits at some scale is taken. -/
theorem exists_fitRatioBy? (negative : Bool) (hs : scale ≤ places) {s : Nat} (hle : s ≤ scale)
    (hfits : round (num * 10 ^ s) den < bound) :
    ∃ d, fitRatioBy? round negative num den scale = some d := by
  induction scale with
  | zero =>
    rw [Nat.le_zero.1 hle, Nat.pow_zero, Nat.mul_one] at hfits
    exact exists_make? negative hfits hs
  | succ scale ih =>
    unfold fitRatioBy?
    split
    · exact ⟨_, rfl⟩
    · rename_i hmake
      refine ih (Nat.le_of_succ_le hs) ?_
      rcases Nat.le_succ_iff.1 hle with hle | rfl
      · exact hle
      · exact absurd (make?_eq_none hs hmake) (Nat.not_le_of_lt hfits)

end Ratio

/-! ## Units of a place -/

/-- A unit of a place, in units of the last place. -/
def unit (place : Nat) : Nat := 10 ^ (places - place)

theorem unit_pos (place : Nat) : 0 < unit place := Nat.pow_pos (by decide)

theorem unit_eq {place scale : Nat} (h : place ≤ scale) (hs : scale ≤ places) :
    unit place = 10 ^ (scale - place) * unit scale := by
  unfold unit
  rw [← Nat.pow_add]
  congr 1
  omega

theorem unit_zero_eq {place : Nat} (h : place ≤ places) : unit 0 = 10 ^ place * unit place :=
  unit_eq (Nat.zero_le place) h

theorem size_eq (d : Decimal) : d.size = d.mantissa * unit d.scale := rfl

section Fit

variable {negative : Bool} {mantissa scale place count : Nat}

theorem fit?_eq (hs : scale ≤ places) : fit? negative mantissa scale =
    fitRatioBy? nearestEven negative mantissa (10 ^ scale) scale := by
  unfold fit? fitRatio?
  rw [show Nat.min scale places = scale from Nat.min_eq_left hs]
  rfl

/-- A number of units of a place that fits there is a whole number at some scale. -/
theorem exists_whole (hs : scale ≤ places) (hp : place ≤ places) (hc : count < bound)
    (hm : mantissa * unit scale = count * unit place) :
    ∃ p n, p ≤ scale ∧ n < bound ∧ mantissa * 10 ^ p = n * 10 ^ scale := by
  rcases Nat.le_total place scale with hle | hle
  · refine ⟨place, count, hle, hc, ?_⟩
    rw [unit_eq hle hs, ← Nat.mul_assoc] at hm
    rw [Nat.eq_of_mul_eq_mul_right (unit_pos scale) hm, Nat.mul_assoc, ← Nat.pow_add,
      Nat.sub_add_cancel hle]
  · refine ⟨scale, mantissa, Nat.le_refl _, ?_, rfl⟩
    rw [unit_eq hle hp, ← Nat.mul_assoc] at hm
    have := Nat.eq_of_mul_eq_mul_right (unit_pos place) hm
    have := Nat.le_mul_of_pos_right mantissa (Nat.pow_pos (n := place - scale) (by decide : 0 < 10))
    omega

/-- From the scale on at which a value is a whole number it is not rounded. -/
theorem nearestEven_whole {p n s : Nat} (hmn : mantissa * 10 ^ p = n * 10 ^ scale) (hle : p ≤ s) :
    nearestEven (mantissa * 10 ^ s) (10 ^ scale) = n * 10 ^ (s - p) := by
  have hsplit : mantissa * 10 ^ s = n * 10 ^ (s - p) * 10 ^ scale := by
    calc mantissa * 10 ^ s = mantissa * 10 ^ (p + (s - p)) := by rw [Nat.add_sub_cancel' hle]
      _ = n * 10 ^ scale * 10 ^ (s - p) := by rw [Nat.pow_add, ← Nat.mul_assoc, hmn]
      _ = n * 10 ^ (s - p) * 10 ^ scale := by ring
  rw [hsplit, nearestEven_mul _ (Nat.pow_pos (by decide))]

/-- A value that is a whole number of units of a place, and fits there, is kept. -/
theorem fit?_exact (negative : Bool) (hs : scale ≤ places) (hp : place ≤ places) (hc : count < bound)
    (hm : mantissa * unit scale = count * unit place) :
    ∃ d, fit? negative mantissa scale = some d ∧ d.size = mantissa * unit scale ∧
      d.negative = (negative && mantissa != 0) := by
  obtain ⟨p, n, hps, hn, hmn⟩ := exists_whole hs hp hc hm
  have hround₀ : nearestEven (mantissa * 10 ^ p) (10 ^ scale) = n := by
    rw [nearestEven_whole hmn (Nat.le_refl p), Nat.sub_self, Nat.pow_zero, Nat.mul_one]
  rw [fit?_eq hs]
  obtain ⟨d, hd⟩ := exists_fitRatioBy? negative hs hps (hround₀.trans_lt hn)
  refine ⟨d, hd, ?_⟩
  obtain ⟨hdle, hdm, hdn, habove⟩ := fitRatioBy?_eq_some hs hd
  have hpd : p ≤ d.scale := by
    by_contra hlt
    have := habove p (by omega) hps
    omega
  have hsize : d.size = mantissa * unit scale := by
    have hscale := d.scale_le
    have hcancel : d.size * 10 ^ p = mantissa * unit scale * 10 ^ p := by
      calc d.size * 10 ^ p = n * (10 ^ (d.scale - p) * 10 ^ p) * unit d.scale := by
              rw [size_eq, hdm, nearestEven_whole hmn hpd]; ring
        _ = n * unit 0 := by
              rw [← Nat.pow_add, Nat.sub_add_cancel hpd, Nat.mul_assoc, ← unit_zero_eq hscale]
        _ = n * 10 ^ scale * unit scale := by rw [unit_zero_eq hs, Nat.mul_assoc]
        _ = mantissa * unit scale * 10 ^ p := by rw [← hmn]; ring
    exact Nat.eq_of_mul_eq_mul_right (Nat.pow_pos (by decide)) hcancel
  refine ⟨hsize, ?_⟩
  have hzero : d.mantissa = 0 ↔ mantissa = 0 := by
    rw [← size_eq_zero_iff, hsize, Nat.mul_eq_zero]
    exact or_iff_left (unit_pos scale).ne'
  rw [hdn, Bool.eq_iff_iff, Bool.and_eq_true, Bool.and_eq_true, bne_iff_ne, bne_iff_ne, Ne, Ne, hzero]

/-- A value of so many units of a place does not fit at scales beyond it. -/
theorem mul_pow_ge {s : Nat} (hm : bound * unit place ≤ mantissa * unit scale) (hps : place ≤ s)
    (hss : s ≤ scale) (hs : scale ≤ places) : 10 ^ scale * bound ≤ mantissa * 10 ^ s := by
  have hunit : unit s ≤ unit place := by
    rw [unit_eq hps (hss.trans hs)]
    exact Nat.le_mul_of_pos_left _ (Nat.pow_pos (by decide))
  have hle := (Nat.mul_le_mul_left bound hunit).trans hm
  rw [unit_eq hss hs, ← Nat.mul_assoc] at hle
  calc 10 ^ scale * bound = bound * 10 ^ (scale - s) * 10 ^ s := by
          rw [Nat.mul_assoc, ← Nat.pow_add, Nat.sub_add_cancel hss, Nat.mul_comm]
    _ ≤ mantissa * 10 ^ s :=
          Nat.mul_le_mul_right _ (Nat.le_of_mul_le_mul_right hle (unit_pos scale))

/-- A value that does not fit at a place is not rounded below those that do. -/
theorem fit?_large {d : Decimal} (hs : scale ≤ places) (hp : place ≤ places)
    (h : fit? negative mantissa scale = some d)
    (hm : bound * unit place ≤ mantissa * unit scale) :
    (bound - 1) * unit place ≤ d.size ∧ d.negative = negative := by
  have hpow : 0 < 10 ^ scale := Nat.pow_pos (by decide)
  rw [fit?_eq hs] at h
  obtain ⟨hle, hdm, hdn, habove⟩ := fitRatioBy?_eq_some hs h
  have hsize : (bound - 1) * unit place ≤ d.size := by
    rcases Nat.lt_or_eq_of_le hle with hlt | heq
    · have hnear := le_two_mul_nearestEven (mantissa * 10 ^ d.scale) hpow
      have hnext := two_mul_nearestEven_le (mantissa * 10 ^ (d.scale + 1)) hpow
      have hbound := Nat.mul_le_mul_left (10 ^ scale) (habove _ (Nat.lt_succ_self _) hlt)
      rw [← hdm] at hnear
      rw [Nat.pow_succ, ← Nat.mul_assoc mantissa] at hnext hbound
      -- the scale is below the place, as the mantissa fits
      have hscale : d.scale < place := by
        by_contra hge
        have hfar := mul_pow_ge hm (Nat.le_of_not_lt hge) hle hs
        have hsmall := Nat.mul_le_mul_left (10 ^ scale) (Nat.succ_le_of_lt d.mantissa_lt)
        rw [Nat.mul_succ] at hsmall
        omega
      have hvalue : bound = 79228162514264337593543950336 := rfl
      rw [size_eq, unit_eq hscale.le hp, ← Nat.mul_assoc]
      refine Nat.mul_le_mul_right _ ?_
      rcases Nat.lt_or_eq_of_le (Nat.succ_le_of_lt hscale) with hfar | hlast
      · have hmany : 2 * bound ≤ 20 * d.mantissa + 11 := by
          refine Nat.le_of_mul_le_mul_left ?_ hpow
          rw [Nat.mul_add, Nat.mul_left_comm, Nat.mul_left_comm _ 20]
          omega
        have hhundred : 100 ≤ 10 ^ (place - d.scale) :=
          Nat.pow_le_pow_right (n := 10) (by decide) (by omega : 2 ≤ place - d.scale)
        have := Nat.mul_le_mul_left d.mantissa hhundred
        omega
      · have hlarge := mul_pow_ge hm hlast.ge hlt hs
        rw [Nat.pow_succ, ← Nat.mul_assoc mantissa] at hlarge
        have hmany : 2 * bound ≤ 20 * d.mantissa + 10 := by
          refine Nat.le_of_mul_le_mul_left ?_ hpow
          rw [Nat.mul_add, Nat.mul_left_comm, Nat.mul_left_comm _ 20]
          omega
        rw [show place - d.scale = 1 by omega]
        omega
    · have hexact : d.mantissa = mantissa := by
        rw [hdm, heq]
        exact nearestEven_mul _ hpow
      rw [size_eq, hexact, heq]
      exact (Nat.mul_le_mul_right _ (Nat.sub_le bound 1)).trans hm
  refine ⟨hsize, ?_⟩
  have hpos : d.mantissa ≠ 0 := by
    intro hzero
    rw [size_eq, hzero, Nat.zero_mul] at hsize
    have := Nat.mul_pos (by decide : 0 < bound - 1) (unit_pos place)
    omega
  rw [hdn, bne_iff_ne.2 hpos, Bool.and_true]

end Fit

/-! ## Sums -/

theorem isZero_iff_units (d : Decimal) : d.isZero = true ↔ d.units = 0 := by
  rw [← Int.natAbs_eq_zero, natAbs_units, size_eq_zero_iff]
  exact beq_iff_eq

theorem signedAt_mul_unit (d : Decimal) {scale : Nat} (h : d.scale ≤ scale) (hs : scale ≤ places) :
    d.signedAt scale * unit scale = d.units := by
  have hmul : d.mantissa * Nat.pow 10 (scale - d.scale) * unit scale =
      d.mantissa * Nat.pow 10 (places - d.scale) := by
    rw [Nat.mul_assoc]
    exact congrArg (d.mantissa * ·) (unit_eq h hs).symm
  unfold signedAt units
  dsimp only
  rw [← hmul]
  by_cases hn : d.negative = true
  · rw [if_pos hn, if_pos hn, Int.neg_mul, Int.natCast_mul _ (unit scale)]
  · rw [if_neg hn, if_neg hn, Int.natCast_mul _ (unit scale)]

/-- A sum is one of its terms, the other being zero, or a whole number of units that is fitted. -/
theorem add?_cases (a b : Decimal) :
    (a.units = 0 ∧ a.add? b = some b) ∨ (b.units = 0 ∧ a.add? b = some a) ∨
      ∃ sum : Int, ∃ scale, scale ≤ places ∧ sum * unit scale = a.units + b.units ∧
        a.add? b = fit? (sum < 0) sum.natAbs scale := by
  unfold add?
  split
  · rename_i hzero
    exact .inl ⟨a.isZero_iff_units.1 hzero, rfl⟩
  · split
    · rename_i hzero
      exact .inr (.inl ⟨b.isZero_iff_units.1 hzero, rfl⟩)
    · have hscale : Nat.max a.scale b.scale ≤ places := Nat.max_le.2 ⟨a.scale_le, b.scale_le⟩
      refine .inr (.inr ⟨_, _, hscale, ?_, rfl⟩)
      rw [Int.add_mul, signedAt_mul_unit a (Nat.le_max_left ..) hscale,
        signedAt_mul_unit b (Nat.le_max_right ..) hscale]

theorem mul_unit_neg_iff (count : Int) (place : Nat) : count * unit place < 0 ↔ count < 0 := by
  have hunit : (0 : Int) < unit place := Int.natCast_pos.2 (unit_pos place)
  constructor
  · intro h
    by_contra hge
    exact absurd h (Int.not_lt.2 (Int.mul_nonneg (Int.not_lt.1 hge) hunit.le))
  · exact fun h => Int.mul_neg_of_neg_of_pos h hunit

theorem natAbs_mul_unit (count : Int) (place : Nat) :
    (count * unit place).natAbs = count.natAbs * unit place := by
  rw [Int.natAbs_mul, Int.natAbs_natCast]

section Sum

variable {a b : Decimal} {place : Nat} {count : Int}

/-- A sum that is a whole number of units of a place, and fits there, is exact. -/
theorem add?_exact (hp : place ≤ places) (hsum : a.units + b.units = count * unit place)
    (hc : count.natAbs < bound) : ∃ c, a.add? b = some c ∧ c.units = count * unit place := by
  rcases add?_cases a b with ⟨hzero, hadd⟩ | ⟨hzero, hadd⟩ | ⟨sum, scale, hs, hsum', hadd⟩
  · exact ⟨b, hadd, by rw [← hsum, hzero, Int.zero_add]⟩
  · exact ⟨a, hadd, by rw [← hsum, hzero, Int.add_zero]⟩
  · have hsize : sum.natAbs * unit scale = count.natAbs * unit place := by
      rw [← natAbs_mul_unit, ← natAbs_mul_unit, hsum', hsum]
    obtain ⟨d, hd, hdsize, hdn⟩ := fit?_exact (decide (sum < 0)) hs hp hc hsize
    refine ⟨d, hadd.trans hd, ?_⟩
    rw [← hsum, ← hsum', units_eq, hdsize, hdn]
    rcases Int.lt_trichotomy sum 0 with hlt | rfl | hgt
    · have hne : sum.natAbs ≠ 0 := by omega
      rw [decide_eq_true hlt, bne_iff_ne.2 hne, Bool.and_true, if_pos rfl]
      push_cast
      rw [abs_of_neg hlt, Int.neg_mul, Int.neg_neg]
    · rfl
    · rw [decide_eq_false (Int.not_lt.2 hgt.le), Bool.false_and, if_neg Bool.false_ne_true]
      push_cast
      rw [abs_of_pos hgt]

/-- A sum that does not fit at a place does not come below the numbers that do. -/
theorem add?_large {c : Decimal} (hp : place ≤ places)
    (hsum : a.units + b.units = count * unit place) (hc : bound ≤ count.natAbs)
    (hadd : a.add? b = some c) :
    (bound - 1) * unit place ≤ c.size ∧ (c.units < 0 ↔ count < 0) := by
  have hsame {d : Decimal} (h : d.units = count * unit place) :
      (bound - 1) * unit place ≤ d.size ∧ (d.units < 0 ↔ count < 0) := by
    refine ⟨?_, by rw [h, mul_unit_neg_iff]⟩
    rw [← natAbs_units, h, natAbs_mul_unit]
    exact Nat.mul_le_mul_right _ ((Nat.sub_le _ _).trans hc)
  rcases add?_cases a b with ⟨hzero, hadd'⟩ | ⟨hzero, hadd'⟩ | ⟨sum, scale, hs, hsum', hadd'⟩
  · cases hadd.symm.trans hadd'
    exact hsame (by rw [← hsum, hzero, Int.zero_add])
  · cases hadd.symm.trans hadd'
    exact hsame (by rw [← hsum, hzero, Int.add_zero])
  · have hsize : bound * unit place ≤ sum.natAbs * unit scale := by
      rw [← natAbs_mul_unit, hsum', hsum, natAbs_mul_unit]
      exact Nat.mul_le_mul_right _ hc
    obtain ⟨hlarge, hn⟩ := fit?_large hs hp (hadd'.symm.trans hadd) hsize
    refine ⟨hlarge, ?_⟩
    have hpos : 0 < c.size :=
      (Nat.mul_pos (by decide : 0 < bound - 1) (unit_pos place)).trans_le hlarge
    rw [← mul_unit_neg_iff count place, ← hsum, ← hsum', mul_unit_neg_iff, units_eq, hn]
    by_cases hneg : sum < 0
    · rw [decide_eq_true hneg, if_pos rfl]
      omega
    · rw [decide_eq_false hneg, if_neg Bool.false_ne_true]
      omega

end Sum

/-! ## Quotients -/

/-- A mantissa is greater than a number of units exactly if the value is greater than the number. -/
theorem mul_unit_lt_size_iff (d : Decimal) (n : Nat) :
    n * unit 0 < d.size ↔ n * 10 ^ d.scale < d.mantissa := by
  rw [unit_zero_eq d.scale_le, size_eq, ← Nat.mul_assoc]
  exact Nat.mul_lt_mul_right (unit_pos d.scale)

theorem lt_ceil {d : Decimal} {n : Nat} (hn : d.negative = false) (h : n * unit 0 < d.size) :
    (n : Int) < d.ceil := by
  rw [mul_unit_lt_size_iff] at h
  have hsplit : d.mantissa = 10 ^ d.scale * d.whole + d.fraction := (Nat.div_add_mod _ _).symm
  have hpow : 0 < 10 ^ d.scale := Nat.pow_pos (by decide)
  have hfraction : d.fraction < 10 ^ d.scale := Nat.mod_lt _ hpow
  have hle : n ≤ d.whole := by
    by_contra hlt
    have := Nat.mul_le_mul_left (10 ^ d.scale) (Nat.succ_le_of_lt (Nat.lt_of_not_le hlt))
    rw [Nat.mul_succ, Nat.mul_comm _ n] at this
    omega
  have htoInt : d.toInt = d.whole := by
    unfold toInt
    rw [hn]
    rfl
  unfold ceil
  rw [hn, htoInt, Bool.or_false]
  split
  · rename_i hwhole
    have hzero : d.fraction = 0 := beq_iff_eq.1 hwhole
    have hne : n ≠ d.whole := by
      rintro rfl
      rw [Nat.mul_comm] at h
      omega
    omega
  · omega

section Quotient

variable {num den steps n : Nat}

/-- A quotient that is greater than `n` by a part of a step is not rounded down to `n`. -/
theorem lt_mantissa_fitRatio? {negative : Bool} {d : Decimal} (hden : 0 < den) (hn : n ≤ 10 ^ 6)
    (hsteps : steps < 2 * 10 ^ 22) (h : (n * steps + 1) * den ≤ steps * num)
    (hfit : fitRatio? negative num den places = some d) : n * 10 ^ d.scale < d.mantissa := by
  obtain ⟨hle, hdm, -, habove⟩ := fitRatioBy?_eq_some (Nat.le_refl places) hfit
  have hnear := le_two_mul_nearestEven (num * 10 ^ d.scale) hden
  rw [← hdm] at hnear
  by_contra hge
  have hdown := Nat.mul_le_mul_left den (Nat.le_of_not_lt hge)
  rcases Nat.lt_or_ge d.scale 22 with hlt | hfar
  · -- the next scale would do as well
    have hnext := two_mul_nearestEven_le (num * 10 ^ (d.scale + 1)) hden
    have hbound := Nat.mul_le_mul_left den (habove (d.scale + 1) (Nat.lt_succ_self _) (by
      show d.scale + 1 ≤ 28
      omega))
    rw [Nat.pow_succ, ← Nat.mul_assoc num] at hnext hbound
    have hcancel : 2 * bound ≤ 20 * (n * 10 ^ d.scale) + 11 := by
      refine Nat.le_of_mul_le_mul_left ?_ hden
      rw [Nat.mul_add, Nat.mul_left_comm, Nat.mul_left_comm _ 20]
      omega
    have hpow : n * 10 ^ d.scale ≤ 10 ^ 6 * 10 ^ 21 :=
      Nat.mul_le_mul hn (Nat.pow_le_pow_right (by decide) (by omega))
    have hvalue : bound = 79228162514264337593543950336 := rfl
    omega
  · -- the part of a step is greater than half a unit
    have hhalf : 2 * 10 ^ d.scale ≤ steps := by
      refine Nat.le_of_mul_le_mul_left ?_ hden
      have hleft := Nat.mul_le_mul_right (10 ^ d.scale) h
      have hright := Nat.mul_le_mul_left steps hnear
      have hdown' := Nat.mul_le_mul_left steps hdown
      nlinarith
    have := Nat.pow_le_pow_right (n := 10) (by decide) hfar
    omega

variable {a b q : Decimal} {part : Nat}

/-- The mantissas of two numbers at their scales are in the ratio of the numbers. -/
theorem mul_size_eq (a b : Decimal) :
    a.mantissa * 10 ^ b.scale * b.size = b.mantissa * 10 ^ a.scale * a.size := by
  calc a.mantissa * 10 ^ b.scale * b.size
      = a.mantissa * b.mantissa * (10 ^ b.scale * unit b.scale) := by rw [size_eq]; ring
    _ = a.mantissa * b.mantissa * (10 ^ a.scale * unit a.scale) := by
        rw [← unit_zero_eq b.scale_le, ← unit_zero_eq a.scale_le]
    _ = b.mantissa * 10 ^ a.scale * a.size := by rw [size_eq a]; ring

/-- A quotient of mantissas that leaves no remainder. -/
theorem lt_div_of_mod_eq_zero (hbpos : 0 < b.mantissa)
    (hratio : (n * steps + 1) * (b.mantissa * 10 ^ a.scale) ≤ steps * (a.mantissa * 10 ^ b.scale))
    (hmod : a.mantissa % b.mantissa = 0) (hscale : b.scale ≤ a.scale) :
    n * 10 ^ (a.scale - b.scale) < a.mantissa / b.mantissa := by
  have hmul : a.mantissa = a.mantissa / b.mantissa * b.mantissa :=
    (Nat.div_mul_cancel (Nat.dvd_of_mod_eq_zero hmod)).symm
  have hpow : 10 ^ a.scale = 10 ^ (a.scale - b.scale) * 10 ^ b.scale := by
    rw [← Nat.pow_add, Nat.sub_add_cancel hscale]
  generalize a.mantissa / b.mantissa = quotient at *
  generalize a.scale - b.scale = scale at *
  have hcancel : (n * steps + 1) * 10 ^ scale ≤ steps * quotient := by
    refine Nat.le_of_mul_le_mul_right ?_ (Nat.mul_pos hbpos (Nat.pow_pos (by decide : 0 < 10)
      : 0 < 10 ^ b.scale))
    rw [hmul, hpow] at hratio
    calc (n * steps + 1) * 10 ^ scale * (b.mantissa * 10 ^ b.scale)
        = (n * steps + 1) * (b.mantissa * (10 ^ scale * 10 ^ b.scale)) := by ring
      _ ≤ steps * (quotient * b.mantissa * 10 ^ b.scale) := hratio
      _ = steps * quotient * (b.mantissa * 10 ^ b.scale) := by ring
  by_contra hge
  have hle := Nat.mul_le_mul_left steps (Nat.le_of_not_lt hge)
  have : 0 < 10 ^ scale := Nat.pow_pos (by decide)
  nlinarith

/-- A quotient of numbers of one sign, by `steps` parts, that is greater than `n` by one part. -/
theorem lt_size_div? (hpart : 0 < part) (hn : n ≤ 10 ^ 6) (hsteps : steps < 2 * 10 ^ 22)
    (hsign : a.negative = b.negative) (hb : b.size = steps * part)
    (ha : (n * steps + 1) * part ≤ a.size) (hq : a.div? b = some q) :
    q.negative = false ∧ n * unit 0 < q.size := by
  have hratio : (n * steps + 1) * (b.mantissa * 10 ^ a.scale) ≤
      steps * (a.mantissa * 10 ^ b.scale) := by
    refine Nat.le_of_mul_le_mul_right ?_ hpart
    calc (n * steps + 1) * (b.mantissa * 10 ^ a.scale) * part
        = b.mantissa * 10 ^ a.scale * ((n * steps + 1) * part) := by ring
      _ ≤ b.mantissa * 10 ^ a.scale * a.size := Nat.mul_le_mul_left _ ha
      _ = a.mantissa * 10 ^ b.scale * (steps * part) := by rw [← mul_size_eq, hb]
      _ = steps * (a.mantissa * 10 ^ b.scale) * part := by ring
  have hane : a.isZero = false := by
    rw [Bool.eq_false_iff, Ne, isZero_iff_units, ← Int.natAbs_eq_zero, natAbs_units]
    have hpos : 0 < (n * steps + 1) * part := Nat.mul_pos (Nat.succ_pos _) hpart
    omega
  unfold div? at hq
  rw [hane, hsign, bne_self_eq_false] at hq
  split at hq
  · cases hq
  · rename_i hbne
    have hbpos : 0 < b.mantissa := Nat.pos_of_ne_zero fun hzero => hbne (beq_iff_eq.2 hzero)
    simp only [Bool.false_eq_true, if_false] at hq
    split at hq
    · -- an exact quotient
      rename_i hexact
      simp only [Bool.and_eq_true, decide_eq_true_eq] at hexact
      obtain ⟨hm, hscale, hneg⟩ := make?_eq_some hq
      refine ⟨hneg, (mul_unit_lt_size_iff q n).2 ?_⟩
      rw [hm, hscale]
      exact lt_div_of_mod_eq_zero hbpos hratio hexact.1 hexact.2
    · obtain ⟨d, hd, rfl⟩ := Option.map_eq_some_iff.1 hq
      have hden : 0 < b.mantissa * 10 ^ a.scale := Nat.mul_pos hbpos (Nat.pow_pos (by decide))
      have hlt := lt_mantissa_fitRatio? hden hn hsteps hratio hd
      refine ⟨?_, ?_⟩
      · obtain ⟨-, -, hneg, -⟩ := fitRatioBy?_eq_some (Nat.le_refl places) hd
        show (d.negative && d.trim.mantissa != 0) = false
        rw [hneg]
        rfl
      · rwa [size_trim, mul_unit_lt_size_iff]

/-- Such a quotient is greater than `n` when it is rounded up. -/
theorem lt_ceil_div? (hpart : 0 < part) (hn : n ≤ 10 ^ 6) (hsteps : steps < 2 * 10 ^ 22)
    (hsign : a.negative = b.negative) (hb : b.size = steps * part)
    (ha : (n * steps + 1) * part ≤ a.size) (hq : a.div? b = some q) : (n : Int) < q.ceil := by
  obtain ⟨hpos, hlt⟩ := lt_size_div? hpart hn hsteps hsign hb ha hq
  exact lt_ceil hpos hlt

end Quotient

end Juxta.Decimal
