import Juxta.Operation
import Juxta.Proofs.Exactness

/-!
# Numbers at other scales

A number may be written with zeros at the end of its fraction or without them. What is computed from
it is the same number in both cases, again up to such zeros, and all that is asked of it has the
same answer. A zero keeps its sign, which is no matter of the scale.

* `Decimal.Rescaled` : the same number, with the same sign, at whatever scale;
* `Decimal.fitRatio?_ratio`, `Decimal.fitRatio?_scale` : rounding depends on the value alone;
* `Decimal.Rescaled.add?`, …, `Decimal.Rescaled.powReal?` : arithmetic;
* `Number.apply_rescaled`, `Number.compare?_rescaled` : the operators by their tags;
* `Decimal.Congruence` : relations of numbers that arithmetic respects; this is one, and equality
  is another one.
-/

namespace Juxta

/-- Computations that may fail, with results that are related. -/
theorem optionRel_bind {α α' β β' : Type} {R : α → α' → Prop} {S : β → β' → Prop} {x : Option α}
    {x' : Option α'} {f : α → Option β} {f' : α' → Option β'} (h : Option.Rel R x x')
    (k : ∀ a a', R a a' → Option.Rel S (f a) (f' a')) : Option.Rel S (x >>= f) (x' >>= f') := by
  cases h with
  | none => exact .none
  | some h => exact k _ _ h

namespace Decimal

/-- The same number at another scale. A zero has the same sign. -/
structure Rescaled (a b : Decimal) : Prop where
  negative : a.negative = b.negative
  size : a.size = b.size

/-! ## What does not depend on the scale -/

theorem whole_eq (d : Decimal) : d.whole = d.size / unit 0 := by
  rw [size_eq, unit_zero_eq d.scale_le, Nat.mul_div_mul_right _ _ (unit_pos _)]
  rfl

theorem fraction_mul_unit (d : Decimal) : d.fraction * unit d.scale = d.size % unit 0 := by
  rw [size_eq, unit_zero_eq d.scale_le, Nat.mul_mod_mul_right]
  rfl

theorem isWhole_eq (d : Decimal) : d.isWhole = (d.size % unit 0 == 0) := by
  rw [← fraction_mul_unit, Bool.eq_iff_iff, beq_iff_eq, Nat.mul_eq_zero,
    or_iff_left (unit_pos _).ne']
  exact beq_iff_eq

namespace Rescaled

variable {a b c a' b' : Decimal}

theorem refl (a : Decimal) : a.Rescaled a := ⟨rfl, rfl⟩

theorem symm (h : a.Rescaled b) : b.Rescaled a := ⟨h.negative.symm, h.size.symm⟩

theorem trans (h : a.Rescaled b) (k : b.Rescaled c) : a.Rescaled c :=
  ⟨h.negative.trans k.negative, h.size.trans k.size⟩

theorem units (h : a.Rescaled b) : a.units = b.units := by
  rw [units_eq, units_eq, h.negative, h.size]

theorem isZero (h : a.Rescaled b) : a.isZero = b.isZero := by
  rw [Bool.eq_iff_iff, isZero_iff_units, isZero_iff_units, h.units]

theorem isNegative (h : a.Rescaled b) : a.isNegative = b.isNegative := by
  unfold Decimal.isNegative
  rw [h.negative, h.isZero]

theorem whole (h : a.Rescaled b) : a.whole = b.whole := by
  rw [whole_eq, whole_eq, h.size]

theorem isWhole (h : a.Rescaled b) : a.isWhole = b.isWhole := by
  rw [isWhole_eq, isWhole_eq, h.size]

theorem toInt (h : a.Rescaled b) : a.toInt = b.toInt := by
  unfold Decimal.toInt
  rw [h.negative, h.whole]

theorem toInt64? (h : a.Rescaled b) : a.toInt64? = b.toInt64? := by
  unfold Decimal.toInt64?
  rw [h.toInt]

theorem ceil (h : a.Rescaled b) : a.ceil = b.ceil := by
  unfold Decimal.ceil
  rw [h.isWhole, h.negative, h.toInt]

theorem toFixed (h : a.Rescaled b) : a.toFixed = b.toFixed := by
  unfold Decimal.toFixed
  rw [h.units]

theorem eq (ha : a.Rescaled a') (hb : b.Rescaled b') : a.eq b = a'.eq b' := by
  unfold Decimal.eq
  rw [ha.units, hb.units]

theorem lt (ha : a.Rescaled a') (hb : b.Rescaled b') : a.lt b = a'.lt b' := by
  unfold Decimal.lt
  rw [ha.units, hb.units]

theorem le (ha : a.Rescaled a') (hb : b.Rescaled b') : a.le b = a'.le b' := by
  unfold Decimal.le
  rw [ha.units, hb.units]

theorem before (ascending : Bool) (ha : a.Rescaled a') (hb : b.Rescaled b') :
    a.before ascending b = a'.before ascending b' := by
  unfold Decimal.before
  rw [ha.lt hb, hb.lt ha]

/-- Two numbers that differ in their scales have the same text. -/
theorem format (h : a.Rescaled b) : Number.format a = Number.format b :=
  Number.format_eq_format_iff.2 (beq_iff_eq.2 h.units)

theorem neg (h : a.Rescaled b) : a.neg.Rescaled b.neg := ⟨congrArg (!·) h.negative, h.size⟩

theorem abs (h : a.Rescaled b) : a.abs.Rescaled b.abs := ⟨rfl, h.size⟩

theorem min (ha : a.Rescaled a') (hb : b.Rescaled b') : (a.min b).Rescaled (a'.min b') := by
  unfold Decimal.min
  rw [hb.lt ha]
  split
  · exact hb
  · exact ha

theorem max (ha : a.Rescaled a') (hb : b.Rescaled b') : (a.max b).Rescaled (a'.max b') := by
  unfold Decimal.max
  rw [ha.lt hb]
  split
  · exact hb
  · exact ha

theorem trim (h : a.Rescaled b) : a.trim.Rescaled b.trim := by
  rw [trim_eq_trim_iff.2 (beq_iff_eq.2 h.units)]
  exact refl _

end Rescaled

/-- Zeros at the end of the fraction are taken away; so is the sign of zero, if it has one. -/
theorem rescaled_trim {d : Decimal} (h : d.negative = true → d.isZero = false) :
    d.Rescaled d.trim := by
  refine ⟨?_, d.size_trim.symm⟩
  rw [negative_trim, units_eq]
  have hzero := d.size_eq_zero_iff
  cases hn : d.negative with
  | false => exact (decide_eq_false (by rw [if_neg Bool.false_ne_true]; omega)).symm
  | true =>
    have hne : d.mantissa ≠ 0 := fun hm => by
      have := h hn
      rw [Decimal.isZero, hm] at this
      cases this
    exact (decide_eq_true (by rw [if_pos rfl]; omega)).symm

/-! ## Results -/

section Results

variable {x y z : Option Decimal}

/-- Results that may be missing, related to a third one. -/
theorem rel_of_common (h : Option.Rel Rescaled x z) (k : Option.Rel Rescaled y z) :
    Option.Rel Rescaled x y := by
  cases h with
  | none =>
    cases k
    exact .none
  | some h =>
    cases k with
    | some k => exact .some (h.trans k.symm)

theorem rel_refl (x : Option Decimal) : Option.Rel Rescaled x x := by
  cases x with
  | none => exact .none
  | some d => exact .some (.refl d)

theorem rel_of_eq (h : x = y) : Option.Rel Rescaled x y := h ▸ rel_refl x

theorem rel_map_trim (h : Option.Rel Rescaled x y) :
    Option.Rel Rescaled (x.map trim) (y.map trim) := by
  cases h with
  | none => exact .none
  | some h => exact .some h.trim

end Results

/-! ## Rounding -/

section Ratio

variable {negative : Bool} {num den num' den' scale : Nat}

theorem nearestEven_mul_mul (num den : Nat) {k : Nat} (hk : 0 < k) :
    nearestEven (num * k) (den * k) = nearestEven num den := by
  unfold nearestEven
  have hlt : den * k < 2 * (num % den * k) ↔ den < 2 * (num % den) := by
    rw [← Nat.mul_assoc, Nat.mul_lt_mul_right hk]
  have heq : (2 * (num % den * k) == den * k) = (2 * (num % den) == den) := by
    rw [Bool.eq_iff_iff, beq_iff_eq, beq_iff_eq, ← Nat.mul_assoc, Nat.mul_left_inj hk.ne']
  simp only [Nat.mul_div_mul_right _ _ hk, Nat.mul_mod_mul_right, hlt, heq]

theorem nearestEven_ratio (hd : 0 < den) (hd' : 0 < den') (h : num * den' = num' * den) :
    nearestEven num den = nearestEven num' den' := by
  rw [← nearestEven_mul_mul num den hd', h, Nat.mul_comm den, nearestEven_mul_mul _ _ hd]

/-- A quotient is rounded by its value, whatever the numbers that it is given by. -/
theorem fitRatio?_ratio (hd : 0 < den) (hd' : 0 < den') (h : num * den' = num' * den) :
    fitRatio? negative num den scale = fitRatio? negative num' den' scale := by
  have hround (power : Nat) : nearestEven (num * power) den = nearestEven (num' * power) den' :=
    nearestEven_ratio hd hd' (by rw [Nat.mul_right_comm, h, Nat.mul_right_comm])
  unfold fitRatio?
  induction scale with
  | zero => rw [fitRatioBy?, fitRatioBy?, nearestEven_ratio hd hd' h]
  | succ scale ih => rw [fitRatioBy?, fitRatioBy?, hround, ih]

theorem fitRatio?_of_make? {d : Decimal}
    (h : make? negative (nearestEven (num * 10 ^ scale) den) scale = some d) :
    fitRatio? negative num den scale = some d := by
  unfold fitRatio?
  cases scale with
  | zero => rwa [Nat.pow_zero, Nat.mul_one] at h
  | succ scale =>
    unfold fitRatioBy?
    rw [show Nat.pow 10 (scale + 1) = 10 ^ (scale + 1) from rfl, h]

/-- A quotient that needs no more places may as well be tried at more of them. -/
theorem fitRatio?_scale (hd : 0 < den) {more : Nat} (hle : scale ≤ more) (hm : more ≤ places)
    (h : den ∣ num * 10 ^ scale) :
    Option.Rel Rescaled (fitRatio? negative num den scale)
      (fitRatio? negative num den more) := by
  induction more, hle using Nat.le_induction with
  | base => exact rel_refl _
  | succ more hle ih =>
    have ih := ih (Nat.le_of_succ_le hm)
    obtain ⟨quotient, hq⟩ : den ∣ num * 10 ^ more :=
      h.trans (Nat.mul_dvd_mul_left num (Nat.pow_dvd_pow 10 hle))
    have hround : nearestEven (num * 10 ^ more) den = quotient := by
      rw [hq, Nat.mul_comm, nearestEven_mul _ hd]
    have hround' : nearestEven (num * 10 ^ (more + 1)) den = quotient * 10 := by
      rw [Nat.pow_succ, ← Nat.mul_assoc, hq, Nat.mul_comm den, Nat.mul_right_comm,
        nearestEven_mul _ hd]
    cases hmake : make? negative (nearestEven (num * 10 ^ (more + 1)) den) (more + 1) with
    | none =>
      have hsame : fitRatio? negative num den (more + 1) = fitRatio? negative num den more := by
        unfold fitRatio?
        rw [fitRatioBy?, show Nat.pow 10 (more + 1) = 10 ^ (more + 1) from rfl, hmake]
      rw [hsame]
      exact ih
    | some d =>
      -- it fits at one place less too
      obtain ⟨hdm, hds, hdn⟩ := make?_eq_some hmake
      rw [hround'] at hdm hdn
      have hfits : quotient < bound := by
        have := d.mantissa_lt
        omega
      obtain ⟨d', hmake'⟩ := exists_make? negative hfits (Nat.le_of_succ_le hm)
      obtain ⟨hdm', hds', hdn'⟩ := make?_eq_some hmake'
      rw [← hround] at hmake'
      rw [fitRatio?_of_make? hmake'] at ih
      rw [fitRatio?_of_make? hmake]
      refine rel_of_common ih (.some ⟨?_, ?_⟩)
      · rw [hdn, hdn', Bool.eq_iff_iff, Bool.and_eq_true, Bool.and_eq_true, bne_iff_ne, bne_iff_ne,
          and_congr_right_iff]
        intro
        omega
      · have hunit : unit more = 10 * unit (more + 1) := by
          rw [unit_eq (Nat.le_add_right more 1) hm, Nat.add_sub_cancel_left, Nat.pow_one]
        rw [size_eq, size_eq, hdm, hds, hdm', hds', hunit, Nat.mul_assoc]

end Ratio

/-! ## Arithmetic -/

namespace Rescaled

variable {a b a' b' : Decimal}

/-- The sum of two numbers that are not zero, at the greatest scale that fits. -/
theorem fit?_sum (a b : Decimal) {sum : Int} {scale : Nat} (hs : scale ≤ places)
    (hsum : sum * unit scale = a.units + b.units) :
    Option.Rel Rescaled (fit? (sum < 0) sum.natAbs scale)
      (fitRatio? (a.units + b.units < 0) (a.units + b.units).natAbs (unit 0) places) := by
  have hpow : 0 < 10 ^ scale := Nat.pow_pos (by decide)
  have hneg : decide (sum < 0) = decide (a.units + b.units < 0) := by
    rw [← hsum, decide_eq_decide, mul_unit_neg_iff]
  have hratio : sum.natAbs * unit 0 = (a.units + b.units).natAbs * 10 ^ scale := by
    rw [← hsum, natAbs_mul_unit, unit_zero_eq hs, Nat.mul_assoc, Nat.mul_comm (unit scale)]
  rw [fit?_eq hs, hneg, ← fitRatio?_ratio hpow (unit_pos 0) hratio]
  exact fitRatio?_scale hpow hs (Nat.le_refl places) (Nat.dvd_mul_left ..)

theorem add? (ha : a.Rescaled a') (hb : b.Rescaled b') :
    Option.Rel Rescaled (a.add? b) (a'.add? b') := by
  have hmax (a b : Decimal) : Nat.max a.scale b.scale ≤ places :=
    Nat.max_le.2 ⟨a.scale_le, b.scale_le⟩
  have hsum (a b : Decimal) : (a.signedAt (Nat.max a.scale b.scale) +
      b.signedAt (Nat.max a.scale b.scale)) * unit (Nat.max a.scale b.scale) =
        a.units + b.units := by
    rw [Int.add_mul, signedAt_mul_unit a (Nat.le_max_left ..) (hmax a b),
      signedAt_mul_unit b (Nat.le_max_right ..) (hmax a b)]
  unfold Decimal.add?
  rw [ha.isZero, hb.isZero]
  split
  · exact .some hb
  · split
    · exact .some ha
    · have hleft := fit?_sum a b (hmax a b) (hsum a b)
      rw [ha.units, hb.units] at hleft
      exact rel_of_common hleft (fit?_sum a' b' (hmax a' b') (hsum a' b'))

theorem sub? (ha : a.Rescaled a') (hb : b.Rescaled b') :
    Option.Rel Rescaled (a.sub? b) (a'.sub? b') := by
  unfold Decimal.sub?
  rw [ha.isZero, hb.isZero]
  split
  · exact .some hb
  · exact ha.add? hb.neg

/-- The product of two numbers, at the greatest scale that fits. -/
theorem fit?_product (negative : Bool) (a b : Decimal) :
    Option.Rel Rescaled (fit? negative (a.mantissa * b.mantissa) (a.scale + b.scale))
      (fitRatio? negative (a.size * b.size) (unit 0 * unit 0) places) := by
  have hpow : 0 < 10 ^ (a.scale + b.scale) := Nat.pow_pos (by decide)
  have hratio : a.mantissa * b.mantissa * (unit 0 * unit 0) =
      a.size * b.size * 10 ^ (a.scale + b.scale) := by
    calc a.mantissa * b.mantissa * (unit 0 * unit 0)
        = a.mantissa * b.mantissa *
            (10 ^ a.scale * unit a.scale * (10 ^ b.scale * unit b.scale)) := by
          rw [← unit_zero_eq a.scale_le, ← unit_zero_eq b.scale_le]
      _ = a.size * b.size * 10 ^ (a.scale + b.scale) := by
          rw [size_eq, size_eq, Nat.pow_add]
          ring
  rw [← fitRatio?_ratio hpow (Nat.mul_pos (unit_pos 0) (unit_pos 0)) hratio]
  unfold fit?
  rw [show Nat.pow 10 (a.scale + b.scale) = 10 ^ (a.scale + b.scale) from rfl]
  rcases Nat.le_total (a.scale + b.scale) places with hle | hge
  · rw [show Nat.min (a.scale + b.scale) places = a.scale + b.scale from Nat.min_eq_left hle]
    exact fitRatio?_scale hpow hle (Nat.le_refl places) (Nat.dvd_mul_left ..)
  · rw [show Nat.min (a.scale + b.scale) places = places from Nat.min_eq_right hge]
    exact rel_refl _

theorem mul? (ha : a.Rescaled a') (hb : b.Rescaled b') :
    Option.Rel Rescaled (a.mul? b) (a'.mul? b') := by
  unfold Decimal.mul?
  rw [ha.isZero, hb.isZero, ha.negative, hb.negative]
  split
  · exact rel_refl _
  · have hleft := fit?_product (a'.negative != b'.negative) a b
    rw [ha.size, hb.size] at hleft
    exact rel_of_common hleft (fit?_product _ a' b')

/-- The quotient of two numbers, at the greatest scale that fits. -/
theorem div?_eq (hb : b.isZero = false) (ha : a.isZero = false) :
    Option.Rel Rescaled (a.div? b)
      (fitRatio? (a.negative != b.negative) a.size b.size places) := by
  have hne {d : Decimal} (h : d.isZero = false) : 0 < d.mantissa :=
    Nat.pos_of_ne_zero fun hzero => by
      rw [Decimal.isZero, hzero] at h
      cases h
  have hpos := hne hb
  have hden : 0 < b.mantissa * 10 ^ a.scale := Nat.mul_pos hpos (Nat.pow_pos (by decide))
  have hsize : 0 < b.size := Nat.mul_pos hpos (unit_pos b.scale)
  have hratio : a.mantissa * 10 ^ b.scale * b.size = a.size * (b.mantissa * 10 ^ a.scale) := by
    rw [mul_size_eq, Nat.mul_comm]
  unfold Decimal.div?
  rw [hb, ha]
  dsimp only
  rw [if_neg Bool.false_ne_true, if_neg Bool.false_ne_true, ← fitRatio?_ratio hden hsize hratio]
  split
  · -- an exact quotient needs no more places
    rename_i hexact
    rw [Bool.and_eq_true, decide_eq_true_eq, decide_eq_true_eq] at hexact
    obtain ⟨hmod, hscale⟩ := hexact
    have hplaces : a.scale - b.scale ≤ places := (Nat.sub_le ..).trans a.scale_le
    have hnum : a.mantissa * 10 ^ b.scale * 10 ^ (a.scale - b.scale) =
        a.mantissa / b.mantissa * (b.mantissa * 10 ^ a.scale) := by
      rw [← Nat.mul_assoc, Nat.div_mul_cancel (Nat.dvd_of_mod_eq_zero hmod), Nat.mul_assoc,
        ← Nat.pow_add, Nat.add_sub_cancel' hscale]
    have hfits : a.mantissa / b.mantissa < bound := (Nat.div_le_self ..).trans_lt a.mantissa_lt
    obtain ⟨d, hd⟩ := exists_make? (a.negative != b.negative) hfits hplaces
    have hround : nearestEven (a.mantissa * 10 ^ b.scale * 10 ^ (a.scale - b.scale))
        (b.mantissa * 10 ^ a.scale) = a.mantissa / b.mantissa := by
      rw [hnum, nearestEven_mul _ hden]
    have hfit : Option.Rel Rescaled (fitRatio? (a.negative != b.negative) _ _ _)
        (fitRatio? _ _ _ places) :=
      fitRatio?_scale hden hplaces (Nat.le_refl places) ⟨_, hnum.trans (Nat.mul_comm ..)⟩
    rwa [fitRatio?_of_make? (hround.symm ▸ hd), ← hd] at hfit
  · show Option.Rel Rescaled (Option.map _ (fitRatio? _ (a.mantissa * 10 ^ b.scale)
      (b.mantissa * 10 ^ a.scale) places)) _
    cases hfit : fitRatio? (a.negative != b.negative) (a.mantissa * 10 ^ b.scale)
        (b.mantissa * 10 ^ a.scale) places with
    | none => exact .none
    | some d =>
      refine .some (rescaled_trim fun hn => ?_).symm
      obtain ⟨-, -, hneg, -⟩ := fitRatioBy?_eq_some (Nat.le_refl places) hfit
      rw [hn] at hneg
      exact bne_iff_ne.1 (Bool.and_eq_true_iff.1 hneg.symm).2 |> beq_eq_false_iff_ne.2

theorem div? (ha : a.Rescaled a') (hb : b.Rescaled b') :
    Option.Rel Rescaled (a.div? b) (a'.div? b') := by
  by_cases hbzero : b.isZero = true
  · unfold Decimal.div?
    rw [← hb.isZero, if_pos hbzero, if_pos hbzero]
    exact .none
  by_cases hazero : a.isZero = true
  · unfold Decimal.div?
    rw [← hb.isZero, ← ha.isZero, if_neg hbzero, if_neg hbzero, if_pos hazero, if_pos hazero]
    exact rel_refl _
  rw [Bool.not_eq_true] at hbzero hazero
  have hleft := div?_eq hbzero hazero
  rw [ha.negative, hb.negative, ha.size, hb.size] at hleft
  exact rel_of_common hleft (div?_eq (hb.isZero ▸ hbzero) (ha.isZero ▸ hazero))

/-- The remainder of a greater number by a smaller one is always in range. -/
theorem exists_remainder (negative : Bool) (a b : Decimal) (hb : 0 < b.mantissa) :
    ∃ c, make? negative (a.mantissa * Nat.pow 10 (Nat.max a.scale b.scale - a.scale) %
        (b.mantissa * Nat.pow 10 (Nat.max a.scale b.scale - b.scale)))
        (Nat.max a.scale b.scale) = some c ∧
      c.size = a.size % b.size ∧ c.negative = (negative && c.size != 0) := by
  have hmax : Nat.max a.scale b.scale ≤ places := Nat.max_le.2 ⟨a.scale_le, b.scale_le⟩
  have hsize (d : Decimal) (hd : d.scale ≤ Nat.max a.scale b.scale) :
      d.mantissa * Nat.pow 10 (Nat.max a.scale b.scale - d.scale) *
        unit (Nat.max a.scale b.scale) = d.size := by
    rw [size_eq, unit_eq hd hmax, ← Nat.mul_assoc]
    rfl
  have hfits : a.mantissa * Nat.pow 10 (Nat.max a.scale b.scale - a.scale) %
      (b.mantissa * Nat.pow 10 (Nat.max a.scale b.scale - b.scale)) < bound := by
    rcases Nat.le_total b.scale a.scale with hle | hle
    · rw [show Nat.max a.scale b.scale = a.scale from Nat.max_eq_left hle, Nat.sub_self]
      exact (Nat.mod_le ..).trans_lt (by simpa using a.mantissa_lt)
    · rw [show Nat.max a.scale b.scale = b.scale from Nat.max_eq_right hle, Nat.sub_self b.scale]
      refine (Nat.mod_lt _ ?_).trans (?_ : b.mantissa * Nat.pow 10 0 < bound)
      · exact Nat.mul_pos hb (Nat.pow_pos (by decide))
      · simpa using b.mantissa_lt
  obtain ⟨c, hc⟩ := exists_make? negative hfits hmax
  obtain ⟨hm, hs, hn⟩ := make?_eq_some hc
  refine ⟨c, hc, ?_, ?_⟩
  · rw [size_eq, hm, hs, ← Nat.mul_mod_mul_right, hsize a (Nat.le_max_left ..),
      hsize b (Nat.le_max_right ..)]
  · rw [hn, ← hm, Bool.eq_iff_iff, Bool.and_eq_true, Bool.and_eq_true, bne_iff_ne, bne_iff_ne, Ne,
      Ne, size_eq_zero_iff]

theorem rem? (ha : a.Rescaled a') (hb : b.Rescaled b') :
    Option.Rel Rescaled (a.rem? b) (a'.rem? b') := by
  unfold Decimal.rem?
  rw [ha.isZero, hb.isZero, ha.abs.lt hb.abs, ha.abs.eq hb.abs]
  split
  · exact .none
  rename_i hzero
  split
  · exact rel_refl _
  split
  · exact .some ha
  split
  · exact rel_refl _
  have hpos {d : Decimal} (h : ¬ d.isZero = true) : 0 < d.mantissa :=
    Nat.pos_of_ne_zero fun hm => h (beq_iff_eq.2 hm)
  obtain ⟨c, hc, hsize, hneg⟩ := exists_remainder a.negative a b (hpos (hb.isZero ▸ hzero))
  obtain ⟨c', hc', hsize', hneg'⟩ := exists_remainder a'.negative a' b' (hpos hzero)
  have hsame : c.size = c'.size := by rw [hsize, hsize', ha.size, hb.size]
  dsimp only
  rw [hc, hc']
  exact .some ⟨by rw [hneg, hneg', ha.negative, hsame], hsame⟩

/-! ## Whole powers -/

theorem powBits (ha : a.Rescaled a') (hb : b.Rescaled b') (exponent : Nat) :
    Option.Rel Rescaled (a.powBits b exponent) (a'.powBits b' exponent) := by
  induction exponent using Nat.strong_induction_on generalizing a a' b b' with
  | _ exponent ih =>
    have next (acc acc' : Decimal) (hacc : acc.Rescaled acc') : Option.Rel Rescaled
        (if _h : exponent / 2 = 0 then some acc
          else b.mul? b >>= fun power => acc.powBits power (exponent / 2))
        (if _h : exponent / 2 = 0 then some acc'
          else b'.mul? b' >>= fun power => acc'.powBits power (exponent / 2)) := by
      split
      · exact .some hacc
      · exact optionRel_bind (hb.mul? hb) fun _ _ h => ih _ (by omega) hacc h
    unfold Decimal.powBits
    dsimp only
    split
    · exact optionRel_bind (ha.mul? hb) next
    · exact next a a' ha

theorem powNat? (h : a.Rescaled a') (exponent : Nat) :
    Option.Rel Rescaled (a.powNat? exponent) (a'.powNat? exponent) := by
  unfold Decimal.powNat?
  rw [h.isZero, h.eq (.refl one)]
  split
  · exact rel_refl _
  split
  · exact rel_refl _
  split
  · exact rel_refl _
  split
  · exact .some h
  · exact h.mul? h
  · exact rel_map_trim ((refl one).powBits h exponent)

theorem powWhole? (h : a.Rescaled a') (exponent : Int64) :
    Option.Rel Rescaled (a.powWhole? exponent) (a'.powWhole? exponent) := by
  unfold Decimal.powWhole?
  split
  · exact optionRel_bind (h.powNat? _) fun _ _ hpower => (refl one).div? hpower
  · exact h.powNat? _

/-! ## Other powers -/

theorem length_toDigits_mul {m : Nat} (hm : 0 < m) (k : Nat) :
    (Nat.toDigits 10 (m * 10 ^ k)).length = (Nat.toDigits 10 m).length + k := by
  induction k with
  | zero => rw [Nat.pow_zero, Nat.mul_one, Nat.add_zero]
  | succ k ih =>
    have hpos : 0 < m * 10 ^ k := Nat.mul_pos hm (Nat.pow_pos (by decide))
    rw [Nat.pow_succ, ← Nat.mul_assoc, Nat.toDigits_of_base_le (by decide) (by omega),
      Nat.mul_div_cancel _ (by decide), List.length_append, ih, List.length_singleton,
      Nat.add_assoc]

/-- The first digit of a number stands at one place. -/
theorem length_digits (h : a.Rescaled b) (ha : 0 < a.mantissa) (hb : 0 < b.mantissa) :
    (Nat.toDigits 10 a.mantissa).length + (places - a.scale) =
      (Nat.toDigits 10 b.mantissa).length + (places - b.scale) := by
  rw [← length_toDigits_mul ha, ← length_toDigits_mul hb]
  exact congrArg (fun size => (Nat.toDigits 10 size).length) h.size

/-- The digits of a number with the point after the first one. -/
theorem leading (h : a.Rescaled b) (ha : 0 < a.mantissa) (hb : 0 < b.mantissa) :
    Option.Rel Rescaled (make? false a.mantissa ((Nat.toDigits 10 a.mantissa).length - 1))
      (make? false b.mantissa ((Nat.toDigits 10 b.mantissa).length - 1)) := by
  have hlength {d : Decimal} : (Nat.toDigits 10 d.mantissa).length - 1 ≤ places ∧
      0 < (Nat.toDigits 10 d.mantissa).length := by
    have hlt : d.mantissa < 10 ^ 29 := d.mantissa_lt.trans (by decide)
    have hle := (Nat.length_toDigits_le_iff (by decide : 1 < 10) (by decide : 0 < 29)).2 hlt
    refine ⟨?_, Nat.length_toDigits_pos⟩
    show _ ≤ 28
    omega
  have hshift {d c : Decimal} (hm : c.mantissa = d.mantissa)
      (hs : c.scale = (Nat.toDigits 10 d.mantissa).length - 1) :
      c.size * 10 ^ ((Nat.toDigits 10 d.mantissa).length + (places - d.scale)) =
        d.size * 10 ^ (places + 1) := by
    obtain ⟨hle, hpos⟩ := hlength (d := d)
    rw [size_eq, size_eq, hm, hs]
    unfold unit
    rw [Nat.mul_assoc, Nat.mul_assoc, ← Nat.pow_add, ← Nat.pow_add]
    congr 2
    omega
  obtain ⟨c, hc⟩ := exists_make? false a.mantissa_lt hlength.1
  obtain ⟨c', hc'⟩ := exists_make? false b.mantissa_lt hlength.1
  obtain ⟨hm, hs, hn⟩ := make?_eq_some hc
  obtain ⟨hm', hs', hn'⟩ := make?_eq_some hc'
  rw [hc, hc']
  refine .some ⟨hn.trans hn'.symm, ?_⟩
  have heq := hshift hm hs
  rw [h.size, ← hshift hm' hs', h.length_digits ha hb] at heq
  exact Nat.eq_of_mul_eq_mul_right (Nat.pow_pos (by decide)) heq

theorem descend? (h : a.Rescaled a') (steps : Nat) (count : Int) :
    Option.Rel (fun r r' => r.1.Rescaled r'.1 ∧ r.2 = r'.2) (descend? steps a count)
      (descend? steps a' count) := by
  induction steps generalizing a a' count with
  | zero => exact .some ⟨h, rfl⟩
  | succ steps ih =>
    unfold Decimal.descend?
    rw [h.le (.refl one)]
    split
    · exact .some ⟨h, rfl⟩
    · exact optionRel_bind (h.mul? (.refl _)) fun _ _ hx => ih hx _

theorem ln? (h : a.Rescaled a') (hne : a.isZero = false) :
    Option.Rel Rescaled a.ln? a'.ln? := by
  have hpos {d : Decimal} (hd : d.isZero = false) : 0 < d.mantissa :=
    Nat.pos_of_ne_zero fun hm => by
      rw [Decimal.isZero, hm] at hd
      cases hd
  have ha := hpos hne
  have ha' := hpos (h.isZero ▸ hne)
  have htens : ((Nat.toDigits 10 a.mantissa).length : Int) - 1 - a.scale =
      (Nat.toDigits 10 a'.mantissa).length - 1 - a'.scale := by
    have := h.length_digits ha ha'
    have := a.scale_le
    have := a'.scale_le
    omega
  unfold Decimal.ln?
  dsimp only
  rw [htens]
  refine optionRel_bind (h.leading ha ha') fun x x' hx => ?_
  refine optionRel_bind (hx.descend? 3 0) fun r r' ⟨hr, hcount⟩ => ?_
  refine optionRel_bind (hr.sub? (.refl one)) fun _ _ hsub => ?_
  refine optionRel_bind (hr.add? (.refl one)) fun _ _ hadd => ?_
  refine optionRel_bind (hsub.div? hadd) fun quotient quotient' hquotient => ?_
  rw [hquotient.toFixed, hcount]
  exact rel_refl _

theorem fraction_mul_pow (d : Decimal) :
    d.fraction * Nat.pow 10 (57 - d.scale) = d.size % unit 0 * 10 ^ 29 := by
  have hsplit : 57 - d.scale = places - d.scale + 29 := by
    have : d.scale ≤ 28 := d.scale_le
    show 57 - d.scale = 28 - d.scale + 29
    omega
  rw [← fraction_mul_unit, hsplit, Nat.mul_assoc]
  exact congrArg (d.fraction * ·) (Nat.pow_add ..)

theorem expAbs? (h : a.Rescaled a') : a.expAbs? = a'.expAbs? := by
  unfold Decimal.expAbs?
  rw [h.whole, fraction_mul_pow, fraction_mul_pow, h.size]

theorem exp? (h : a.Rescaled a') : a.exp? = a'.exp? := by
  unfold Decimal.exp?
  rw [h.isNegative, h.expAbs?]

theorem powReal? (ha : a.Rescaled a') (hb : b.Rescaled b') :
    Option.Rel Rescaled (a.powReal? b) (a'.powReal? b') := by
  unfold Decimal.powReal?
  rw [← ha.isZero, ha.eq (.refl one), hb.isWhole]
  split
  · exact rel_refl _
  rename_i hzero
  split
  · exact rel_refl _
  split
  · exact .none
  refine optionRel_bind (ha.ln? (Bool.not_eq_true _ ▸ hzero)) fun _ _ hln => ?_
  refine optionRel_bind (hln.mul? hb) fun _ _ hproduct => ?_
  exact rel_of_eq hproduct.exp?

end Rescaled

end Decimal

/-! ## Operators -/

namespace Number

/-- The same error, or numbers that are related. -/
inductive SameResult (N : Decimal → Decimal → Prop) :
    (result result' : Except ArithmeticError Decimal) → Prop where
  | ok {a b : Decimal} (h : N a b) : SameResult N (.ok a) (.ok b)
  | error (error : ArithmeticError) : SameResult N (.error error) (.error error)

variable {N : Decimal → Decimal → Prop} {a b a' b' : Decimal} {result result' : Option Decimal}

theorem SameResult.refl (h : ∀ n, N n n) : ∀ result, SameResult N result result
  | .ok n => .ok (h n)
  | .error cause => .error cause

theorem sameResult_inRange_iff :
    SameResult N (inRange result) (inRange result') ↔ Option.Rel N result result' := by
  constructor
  · intro h
    cases result <;> cases result' <;> cases h
    · exact .none
    · exact .some ‹_›
  · rintro (h | _)
    · exact .ok h
    · exact .error .overflow

theorem power_rescaled (ha : a.Rescaled a') (hb : b.Rescaled b') :
    SameResult Decimal.Rescaled (power a b) (power a' b') := by
  have hwhole : wholeExponent? b = wholeExponent? b' := by
    unfold wholeExponent?
    rw [hb.isWhole, hb.toInt64?]
  unfold power
  rw [ha.isZero, hb.isNegative, ha.isNegative, hb.isWhole, hwhole]
  split
  · exact .error _
  split
  · exact .error _
  split
  · split
    · exact sameResult_inRange_iff.2 (optionRel_bind (ha.powWhole? _) fun _ _ h =>
        (Decimal.Rescaled.refl .one).div? h)
    · exact sameResult_inRange_iff.2 (ha.powWhole? _)
  · exact sameResult_inRange_iff.2 (ha.powReal? hb)

theorem apply_rescaled (tag : Tag) (ha : a.Rescaled a') (hb : b.Rescaled b') :
    SameResult Decimal.Rescaled (apply tag a b) (apply tag a' b') := by
  unfold apply
  rw [hb.isZero]
  split
  · exact sameResult_inRange_iff.2 (ha.add? hb)
  · exact sameResult_inRange_iff.2 (ha.sub? hb)
  · exact sameResult_inRange_iff.2 (ha.mul? hb)
  · split
    · exact .error _
    · exact sameResult_inRange_iff.2 (ha.div? hb)
  · split
    · exact .error _
    · exact sameResult_inRange_iff.2 (ha.rem? hb)
  · exact power_rescaled ha hb
  · exact .ok (ha.min hb)
  · exact .ok (ha.max hb)
  · exact .error _

theorem compare?_rescaled (tag : Tag) (ha : a.Rescaled a') (hb : b.Rescaled b') :
    compare? tag a b = compare? tag a' b' := by
  unfold compare?
  rw [ha.eq hb, ha.lt hb, ha.le hb, hb.lt ha, hb.le ha]

end Number

/-! ## Numbers that stand for each other -/

/-- A relation of numbers that differ in their scales at most, and that arithmetic respects. -/
structure Decimal.Congruence (N : Decimal → Decimal → Prop) : Prop where
  refl : ∀ n, N n n
  rescaled : ∀ {a b}, N a b → a.Rescaled b
  neg : ∀ {a b}, N a b → N a.neg b.neg
  apply : ∀ tag {a a' b b'}, N a a' → N b b' →
    Number.SameResult N (Number.apply tag a b) (Number.apply tag a' b')

namespace Decimal

theorem congruence_eq : Congruence Eq where
  refl _ := rfl
  rescaled h := h ▸ .refl _
  neg h := congrArg neg h
  apply tag a a' b b' ha hb := by
    rw [ha, hb]
    exact .refl (fun _ => rfl) _

theorem congruence_rescaled : Congruence Rescaled where
  refl := .refl
  rescaled h := h
  neg h := h.neg
  apply tag _ _ _ _ ha hb := Number.apply_rescaled tag ha hb

theorem Congruence.add? {N : Decimal → Decimal → Prop} (h : Congruence N) {a a' b b' : Decimal}
    (ha : N a a') (hb : N b b') : Option.Rel N (a.add? b) (a'.add? b') :=
  Number.sameResult_inRange_iff.1 (h.apply .add ha hb)

end Decimal

end Juxta
