import Juxta.Operation
import Juxta.Proofs.Exactness

/-!
# Progressions

A progression adds its step again and again until it reaches its end. How many steps that takes is
estimated by a quotient before.

* `Decimal.along` : numbers of units in the direction of a progression;
* `Decimal.Steps` : numbers in equal steps, up to the last one before an end (`Steps.length_le`);
* `Decimal.next_spec`, `progressionFrom_steps` : the numbers that are added up;
* `Decimal.le_of_stepCount?` : what the estimate says of a start, an end and a step;
* `progression_bounded` : a progression ends and is within its limit, if start, end and step are
  numbers of units of one place and the step is not of too many;
* `progression_unbounded` : near the greatest numbers a step is rounded, so that a progression may
  never end, or have more items than its limit.
-/

namespace Juxta

namespace Decimal

/-! ## Directions -/

/-- A number of units in the direction of a progression. -/
def along (ascending : Bool) (count : Int) : Int := if ascending then count else -count

@[simp] theorem along_true (count : Int) : along true count = count := rfl

@[simp] theorem along_false (count : Int) : along false count = -count := rfl

theorem before_iff (ascending : Bool) (a b : Decimal) :
    a.before ascending b = true ↔ along ascending a.units < along ascending b.units := by
  cases ascending <;> simp [before, lt, along]

theorem along_mul (ascending : Bool) (count other : Int) :
    along ascending (count * other) = along ascending count * other := by
  cases ascending <;> simp [along]

theorem along_add (ascending : Bool) (count other : Int) :
    along ascending (count + other) = along ascending count + along ascending other := by
  unfold along
  split <;> ring

theorem along_mul_unit_lt_iff (ascending : Bool) (a b : Int) (place : Nat) :
    along ascending (a * unit place) < along ascending (b * unit place) ↔
      along ascending a < along ascending b := by
  rw [along_mul, along_mul]
  exact Int.mul_lt_mul_right (Int.natCast_pos.2 (unit_pos place))

theorem units_neg (d : Decimal) : d.neg.units = -d.units := by
  show (if (!d.negative) = true then -(d.size : Int) else d.size) = -d.units
  rw [units_eq]
  cases d.negative <;> simp

theorem negative_eq {d : Decimal} (h : d.size ≠ 0) : d.negative = decide (d.units < 0) := by
  rw [units_eq]
  cases d.negative with
  | true => exact (decide_eq_true (by rw [if_pos rfl]; omega)).symm
  | false => exact (decide_eq_false (by rw [if_neg Bool.false_ne_true]; omega)).symm

/-! ## Steps -/

/-- Numbers in equal steps from a start, up to the last one before an end. -/
structure Steps (start stop step : Decimal) (items : List Decimal) : Prop where
  units : items.map units =
    (List.range items.length).map fun i : Nat => start.units + i * step.units
  before : ∀ d ∈ items, d.before (!step.negative) stop = true
  ends : along (!step.negative) stop.units ≤
    along (!step.negative) (start.units + items.length * step.units)

section Steps

variable {start stop step next : Decimal} {items : List Decimal}

theorem Steps.nil (h : ¬ start.before (!step.negative) stop = true) : Steps start stop step [] where
  units := rfl
  before := nofun
  ends := by
    rw [before_iff, Int.not_lt] at h
    simpa using h

theorem Steps.cons (h : start.before (!step.negative) stop = true)
    (hnext : next.units = start.units + step.units) (hrest : Steps next stop step items) :
    Steps start stop step (start :: items) where
  units := by
    rw [List.map_cons, hrest.units, List.length_cons, List.range_succ_eq_map, List.map_cons,
      List.map_map, hnext]
    congr 1
    · simp
    · refine List.map_congr_left fun i _ => ?_
      simp only [Function.comp, Nat.cast_succ]
      ring
  before := by
    intro d hd
    rcases List.mem_cons.1 hd with rfl | hd
    · exact h
    · exact hrest.before d hd
  ends := by
    have hends := hrest.ends
    rw [hnext] at hends
    rw [List.length_cons, Nat.cast_succ]
    convert hends using 2
    ring

/-- One number, the step from which leads to the end. -/
theorem Steps.singleton (h : start.before (!step.negative) stop = true)
    (hends : along (!step.negative) stop.units ≤
      along (!step.negative) (start.units + step.units)) : Steps start stop step [start] where
  units := by simp
  before := by simpa using h
  ends := by simpa using hends

theorem Steps.units_getElem (h : Steps start stop step items) {i : Nat} (hi : i < items.length) :
    items[i].units = start.units + i * step.units := by
  have hget := congrArg (fun l => l[i]?) h.units
  simpa [hi] using hget

/-- There are no more numbers than steps from the start to the end. -/
theorem Steps.length_le (h : Steps start stop step items) {limit : Nat}
    (hlimit : along (!step.negative) (stop.units - start.units) ≤
      limit * along (!step.negative) step.units) : items.length ≤ limit := by
  by_contra hmore
  have hlast : limit < items.length := Nat.lt_of_not_le hmore
  have hbefore := (before_iff _ _ _).1 (h.before _ (List.getElem_mem hlast))
  rw [h.units_getElem hlast] at hbefore
  unfold along at *
  split at hbefore <;> simp_all <;> linarith

end Steps

/-! ## The next number -/

section Next

variable {start stop step current next : Decimal} {place : Nat} {a b s : Int}

/-- The number after one of so many units of a place is exact, or not before any end that fits at
the place. -/
theorem next_spec (hp : place ≤ places) (hb : stop.units = b * unit place)
    (hs : step.units = s * unit place) (hbbound : b.natAbs < bound)
    (hpos : 0 < along (!step.negative) s) (ha : current.units = a * unit place)
    (habound : a.natAbs < bound) (hadd : current.add? step = some next) :
    (next.units = (a + s) * unit place ∧ (a + s).natAbs < bound) ∨
      (along (!step.negative) stop.units ≤ along (!step.negative) next.units ∧
        along (!step.negative) stop.units ≤ along (!step.negative) ((a + s) * unit place)) := by
  have hsum : current.units + step.units = (a + s) * unit place := by
    rw [ha, hs]
    ring
  have hunit : (0 : Int) ≤ unit place := Int.natCast_nonneg _
  by_cases hfits : (a + s).natAbs < bound
  · obtain ⟨c, hc, hunits⟩ := add?_exact hp hsum hfits
    cases hc.symm.trans hadd
    exact .inl ⟨hunits, hfits⟩
  · obtain ⟨hsize, hsign⟩ := add?_large hp hsum (Nat.le_of_not_lt hfits) hadd
    have hlarge : along (!step.negative) stop.units ≤ (bound - 1 : Nat) * unit place := by
      rw [hb, along_mul]
      refine Int.mul_le_mul_of_nonneg_right ?_ hunit
      cases !step.negative <;> simp only [along_true, along_false] <;> omega
    have hbeyond : (bound : Int) ≤ along (!step.negative) (a + s) := by
      cases hup : !step.negative <;> rw [hup] at hpos <;>
        simp only [along_true, along_false] at hpos ⊢ <;> omega
    have hlong : along (!step.negative) next.units = next.size := by
      have hsize := next.natAbs_units
      cases hup : !step.negative <;> rw [hup] at hbeyond <;>
        simp only [along_true, along_false] at hbeyond ⊢ <;> omega
    refine .inr ⟨hlarge.trans ?_, hlarge.trans ?_⟩
    · rw [hlong]
      exact_mod_cast hsize
    · rw [along_mul]
      exact Int.mul_le_mul_of_nonneg_right (by omega) hunit

end Next

/-! ## The estimate -/

/-- A step goes forward in its own direction. -/
theorem along_pos {step : Decimal} {place : Nat} {s : Int} (hs : step.units = s * unit place)
    (hne : s ≠ 0) : 0 < along (!step.negative) s := by
  have hsize : step.size ≠ 0 := by
    rw [← natAbs_units, hs, natAbs_mul_unit]
    exact (Nat.mul_pos (Int.natAbs_pos.2 hne) (unit_pos place)).ne'
  rw [negative_eq hsize, hs, decide_eq_decide.2 (mul_unit_neg_iff s place)]
  by_cases hneg : s < 0
  · rw [decide_eq_true hneg, Bool.not_true, along_false]
    omega
  · rw [decide_eq_false hneg, Bool.not_false, along_true]
    omega

section Estimate

variable {start stop step : Decimal} {place : Nat} {a b s : Int}

/-- The difference of two numbers of units of a place has the right sign, and is not rounded below a
number of units that fits. -/
theorem sub?_spec {d : Decimal} (hp : place ≤ places) (ha : start.units = a * unit place)
    (hb : stop.units = b * unit place) {n : Nat} (hpos : 0 < n) (hn : n < bound)
    (hle : n ≤ (b - a).natAbs) (hd : stop.sub? start = some d) :
    n * unit place ≤ d.size ∧ d.negative = decide (b - a < 0) := by
  have hunit : (unit place : Int) ≠ 0 := Int.natCast_ne_zero.2 (unit_pos place).ne'
  have hsum : stop.units + start.neg.units = (b - a) * unit place := by
    rw [units_neg, ha, hb]
    ring
  have hadd : stop.add? start.neg = some d := by
    unfold sub? at hd
    split at hd
    · rename_i hzero
      rw [Bool.and_eq_true, isZero_iff_units, isZero_iff_units, ha, hb] at hzero
      have hbzero := (Int.mul_eq_zero.1 hzero.1).resolve_right hunit
      have hazero := (Int.mul_eq_zero.1 hzero.2).resolve_right hunit
      omega
    · exact hd
  have hspec : n * unit place ≤ d.size ∧ (d.units < 0 ↔ b - a < 0) := by
    by_cases hfits : (b - a).natAbs < bound
    · obtain ⟨c, hc, hunits⟩ := add?_exact hp hsum hfits
      cases hc.symm.trans hadd
      rw [← natAbs_units, hunits, natAbs_mul_unit, mul_unit_neg_iff]
      exact ⟨Nat.mul_le_mul_right _ hle, Iff.rfl⟩
    · obtain ⟨hsize, hsign⟩ := add?_large hp hsum (Nat.le_of_not_lt hfits) hadd
      exact ⟨(Nat.mul_le_mul_right _ (Nat.le_sub_one_of_lt hn)).trans hsize, hsign⟩
  have hne : d.size ≠ 0 := by
    have := Nat.mul_pos hpos (unit_pos place)
    omega
  exact ⟨hspec.1, by rw [negative_eq hne, decide_eq_decide, hspec.2]⟩

/-- If the estimate is within the limit, so is the way from the start to the end. -/
theorem le_of_stepCount? {count : Int} (hp : place ≤ places) (ha : start.units = a * unit place)
    (hb : stop.units = b * unit place) (hs : step.units = s * unit place)
    (hsteps : s.natAbs < 2 * 10 ^ 22) (hpos : 0 < along (!step.negative) s)
    (hcount : stepCount? start stop step = some count) (hle : count ≤ progressionLimit) :
    along (!step.negative) (b - a) ≤ progressionLimit * along (!step.negative) s := by
  by_contra hfar
  unfold stepCount? at hcount
  simp only [bind, pure, Option.bind_eq_some_iff, Option.some.injEq] at hcount
  obtain ⟨d, hd, q, hq, rfl⟩ := hcount
  have hlimit : progressionLimit = 10 ^ 6 := rfl
  have hsign : step.negative = decide (s < 0) := by
    cases hn : step.negative with
    | true =>
      rw [hn, Bool.not_true, along_false] at hpos
      exact (decide_eq_true (by omega)).symm
    | false =>
      rw [hn, Bool.not_false, along_true] at hpos
      exact (decide_eq_false (by omega)).symm
  have hmore : progressionLimit * s.natAbs + 1 ≤ (b - a).natAbs ∧ (b - a < 0 ↔ s < 0) := by
    rw [hlimit] at hfar ⊢
    cases hup : !step.negative <;> rw [hup] at hpos hfar <;>
      simp only [along_true, along_false] at hpos hfar <;> omega
  have hbelow : progressionLimit * s.natAbs + 1 < bound := by
    have hvalue : bound = 79228162514264337593543950336 := rfl
    rw [hlimit]
    omega
  obtain ⟨hsize, hnegative⟩ := sub?_spec hp ha hb (Nat.succ_pos _) hbelow hmore.1 hd
  have hlt : ((10 ^ 6 : Nat) : Int) < q.ceil := by
    refine lt_ceil_div? (unit_pos place) (Nat.le_refl _) hsteps ?_ ?_ hsize hq
    · rw [hnegative, hsign, decide_eq_decide, hmore.2]
    · rw [← natAbs_units, hs, natAbs_mul_unit]
  rw [hlimit] at hle
  omega

end Estimate

end Decimal

/-! ## Adding up -/

section Loop

variable {start stop step : Decimal} {place : Nat} {a b s : Int}

open Decimal

/-- From a number of units of a place on, a progression comes to numbers in equal steps, unless the
last step leads out of range. -/
theorem progressionFrom_steps (hp : place ≤ places) (hb : stop.units = b * unit place)
    (hs : step.units = s * unit place) (hbbound : b.natAbs < bound)
    (hpos : 0 < along (!step.negative) s) (ha : start.units = a * unit place)
    (habound : a.natAbs < bound) (items : List Value) :
    progressionFrom step stop items start = .instead "RANGE overflowed." (.list []) ∨
      ∃ run, start.Steps stop step run ∧
        progressionFrom step stop items start =
          .value (.list (items.reverse ++ run.map .number)) := by
  induction hdistance : start.distance (!step.negative) stop using Nat.strongRecOn
    generalizing start a items with
  | ind distance ih =>
  rw [progressionFrom]
  dsimp only
  split
  · rename_i hbefore
    split
    · exact .inl rfl
    · rename_i next hadd
      have hsum : start.units + step.units = (a + s) * unit place := by
        rw [ha, hs]
        ring
      have hstep : along (!step.negative) start.units <
          along (!step.negative) ((a + s) * unit place) := by
        rw [ha, along_mul_unit_lt_iff, along_add]
        omega
      rcases next_spec hp hb hs hbbound hpos ha habound hadd with ⟨hnext, hfits⟩ | ⟨hnext, hends⟩
      · have hmoves : start.before (!step.negative) next = true := by
          rwa [before_iff, hnext]
        rw [if_pos hmoves]
        have hless := distance_lt hbefore hmoves
        rcases ih _ (hdistance ▸ hless) hnext hfits (.number start :: items) rfl with
          hover | ⟨run, hrun, hvalue⟩
        · exact .inl hover
        · refine .inr ⟨start :: run, .cons hbefore (hnext.trans hsum.symm) hrun, ?_⟩
          rw [hvalue, List.reverse_cons, List.append_assoc]
          rfl
      · have hmoves : start.before (!step.negative) next = true := by
          rw [before_iff] at hbefore ⊢
          exact hbefore.trans_le hnext
        have hstops : ¬ next.before (!step.negative) stop = true := by
          rw [before_iff]
          exact Int.not_lt.2 hnext
        rw [if_pos hmoves, progressionFrom]
        dsimp only
        rw [if_neg hstops]
        refine .inr ⟨[start], .singleton hbefore (by rwa [hsum]), ?_⟩
        rw [List.reverse_cons]
        rfl
  · rename_i hbefore
    exact .inr ⟨[], .nil hbefore, by rw [List.map_nil, List.append_nil]⟩

end Loop

/-! ## Progressions in range -/

/-- A progression that is estimated to be within its limit adds up its numbers. -/
theorem progression_eq {values : List Value} {start stop step : Decimal}
    (hvalues : numbers values = .ok [start, stop, step]) (hzero : ¬ step.isZero = true) {count : Int}
    (hcount : stepCount? start stop step = some count) (hle : count ≤ progressionLimit) :
    progression values = progressionFrom step stop [] start := by
  unfold progression
  rw [hvalues]
  dsimp only
  rw [if_neg hzero, hcount]
  dsimp only
  rw [if_pos (decide_eq_true hle)]

/-- A progression that is not estimated to be within its limit is refused. -/
theorem progression_eq_instead {values : List Value} {start stop step : Decimal}
    (hvalues : numbers values = .ok [start, stop, step]) (hzero : ¬ step.isZero = true)
    (hfits : ¬ ∃ count, stepCount? start stop step = some count ∧ count ≤ progressionLimit) :
    progression values =
      .instead s!"RANGE would produce more than {progressionLimit} items." (.list []) := by
  unfold progression
  rw [hvalues]
  dsimp only
  rw [if_neg hzero]
  refine if_neg fun hok => ?_
  split at hok
  · rename_i count hcount
    exact hfits ⟨count, hcount, of_decide_eq_true hok⟩
  · cases hok

open Decimal in
/-- A progression whose start, end and step are numbers of units of one place, the step of less than
2 · 10 ^ 22 of them, ends. What it comes to has its numbers in equal steps before the end, no more
of them than the limit, unless it is refused. -/
theorem progression_bounded {values : List Value} {start stop step : Decimal}
    (hvalues : numbers values = .ok [start, stop, step]) {place : Nat} (hp : place ≤ places)
    {a b s : Int} (ha : start.units = a * unit place) (hb : stop.units = b * unit place)
    (hs : step.units = s * unit place) (habound : a.natAbs < bound) (hbbound : b.natAbs < bound)
    (hsteps : s.natAbs < 2 * 10 ^ 22) :
    (∃ message, progression values = .instead message (.list [])) ∨
      ∃ items, progression values = .value (.list (items.map .number)) ∧
        items.length ≤ progressionLimit ∧ start.Steps stop step items := by
  by_cases hzero : step.isZero = true
  · refine .inl ⟨"RANGE step cannot be zero.", ?_⟩
    unfold progression
    rw [hvalues]
    exact if_pos hzero
  · have hne : s ≠ 0 := by
      rintro rfl
      exact hzero (step.isZero_iff_units.2 (by rw [hs, Int.zero_mul]))
    have hpos := along_pos hs hne
    by_cases hfits : ∃ count, stepCount? start stop step = some count ∧ count ≤ progressionLimit
    · obtain ⟨count, hcount, hle⟩ := hfits
      rw [progression_eq hvalues hzero hcount hle]
      rcases progressionFrom_steps hp hb hs hbbound hpos ha habound [] with
        hover | ⟨items, hitems, hvalue⟩
      · exact .inl ⟨_, hover⟩
      · refine .inr ⟨items, hvalue, hitems.length_le ?_, hitems⟩
        have hdistance : stop.units - start.units = (b - a) * unit place := by
          rw [ha, hb]
          ring
        rw [hdistance, hs, along_mul, along_mul, ← Int.mul_assoc]
        exact Int.mul_le_mul_of_nonneg_right
          (le_of_stepCount? hp ha hb hs hsteps hpos hcount hle) (Int.natCast_nonneg _)
    · exact .inl ⟨_, progression_eq_instead hvalues hzero hfits⟩

/-- From 1 before 2 in steps of 0.25. -/
theorem progression_bounded_quarters :
    progression [.number .one, .number ⟨false, 2, 0, by decide, by decide⟩,
      .number ⟨false, 25, 2, by decide, by decide⟩] ≠ .endless := by
  have hvalues : numbers [.number .one, .number ⟨false, 2, 0, by decide, by decide⟩,
      .number ⟨false, 25, 2, by decide, by decide⟩] =
        .ok [.one, ⟨false, 2, 0, by decide, by decide⟩, ⟨false, 25, 2, by decide, by decide⟩] := rfl
  have hstart : Decimal.one.units = 100 * Decimal.unit 2 := by decide
  rcases progression_bounded (b := 200) (s := 25) hvalues (by decide) hstart (by decide) (by decide)
    (by decide) (by decide) (by decide) with ⟨message, hrefused⟩ | ⟨items, hitems, -⟩
  · rw [hrefused]
    nofun
  · rw [hitems]
    nofun

/-! ## Near the greatest numbers -/

namespace Decimal

/-- A whole number as it is written. -/
def ofWhole (n : Nat) (h : n < bound) : Decimal := ⟨false, n, 0, h, Nat.zero_le _⟩

theorem before_ofWhole {m n : Nat} (hm : m < bound) (hn : n < bound) :
    (ofWhole m hm).before true (ofWhole n hn) = true ↔ m < n := by
  have hunits {k : Nat} (hk : k < bound) : (ofWhole k hk).units = (k : Int) * unit 0 :=
    Int.natCast_mul k (unit 0)
  rw [before_iff, hunits, hunits, along_mul_unit_lt_iff, along_true, along_true, Int.ofNat_lt]

/-- The number 1.4. -/
def oneAndTwoFifths : Decimal := ⟨false, 14, 1, by decide, by decide⟩

/-- Where no digit behind the point fits, 1.4 counts as 1. -/
theorem add?_oneAndTwoFifths {n : Nat} (hlarge : bound ≤ 10 * n + 14) (hn : n < bound)
    (hnext : n + 1 < bound) :
    (ofWhole n hn).add? oneAndTwoFifths = some (ofWhole (n + 1) hnext) := by
  have hpos : n ≠ 0 := by
    rintro rfl
    exact absurd hlarge (by decide)
  have hfit : fit? false (10 * n + 14) 1 = some (ofWhole (n + 1) hnext) := by
    have hone : nearestEven ((10 * n + 14) * 10) 10 = 10 * n + 14 := nearestEven_mul _ (by decide)
    have hzero : nearestEven (10 * n + 14) 10 = n + 1 := by
      unfold nearestEven
      rw [show (10 * n + 14) / 10 = n + 1 by omega, show (10 * n + 14) % 10 = 4 by omega]
      rfl
    rw [fit?_eq (by decide)]
    unfold fitRatioBy? fitRatioBy?
    rw [show Nat.pow 10 (0 + 1) = 10 from rfl, show 10 ^ 1 = 10 from rfl, hone, hzero]
    unfold make?
    rw [dif_neg (fun h => absurd h.1 (Nat.not_lt.2 hlarge)), dif_pos ⟨hnext, by decide⟩]
    rfl
  have hzero : (ofWhole n hn).isZero = false := beq_false_of_ne hpos
  unfold add?
  rw [hzero]
  show fit? (decide (((n * 10 : Nat) : Int) + 14 < 0)) (((n * 10 : Nat) : Int) + 14).natAbs 1 = _
  rw [decide_eq_false (by omega), show (((n * 10 : Nat) : Int) + 14).natAbs = 10 * n + 14 by omega, hfit]

end Decimal

open Decimal in
/-- There a progression in steps of 1.4 has an item for each whole number. -/
theorem progressionFrom_oneAndTwoFifths (count : Nat) {n : Nat} (hlarge : bound ≤ 10 * n + 14)
    (hn : n < bound) (hstop : n + count < bound) (items : List Value) :
    ∃ run : List Value, run.length = count ∧
      progressionFrom oneAndTwoFifths (ofWhole (n + count) hstop) items (ofWhole n hn) =
        .value (.list (items.reverse ++ run)) := by
  induction count generalizing n items with
  | zero =>
    have hends : ¬ (ofWhole n hn).before true (ofWhole n hn) = true := by
      rw [before_ofWhole]
      exact Nat.lt_irrefl n
    refine ⟨[], rfl, ?_⟩
    rw [progressionFrom, List.append_nil]
    exact if_neg hends
  | succ count ih =>
    have hnext : n + 1 < bound := by omega
    have hbefore : (ofWhole n hn).before true (ofWhole (n + (count + 1)) hstop) = true := by
      rw [before_ofWhole]
      omega
    have hmoves : (ofWhole n hn).before true (ofWhole (n + 1) hnext) = true := by
      rw [before_ofWhole]
      omega
    obtain ⟨run, hrun, hvalue⟩ :=
      ih (by omega) hnext (by omega) (.number (ofWhole n hn) :: items)
    refine ⟨.number (ofWhole n hn) :: run, by rw [List.length_cons, hrun], ?_⟩
    rw [progressionFrom]
    refine (if_pos hbefore).trans ?_
    rw [add?_oneAndTwoFifths hlarge hn hnext]
    refine (if_pos hmoves).trans ?_
    rw [List.reverse_cons, List.append_assoc] at hvalue
    simp only [Nat.add_right_comm n 1 count, Nat.add_assoc] at hvalue
    exact hvalue

open Decimal in
/-- Near the greatest numbers a progression may never end, or have more items than its limit. -/
theorem progression_unbounded :
    progression [.number (.ofWhole 79228162514264337593543950334 (by decide)),
        .number (.ofWhole 79228162514264337593543950335 (by decide)),
        .number ⟨false, 4, 1, by decide, by decide⟩] = .endless ∧
      ∃ items, progression [.number (.ofWhole 79228162514264337593542950000 (by decide)),
          .number (.ofWhole 79228162514264337593543950001 (by decide)),
          .number .oneAndTwoFifths] = .value (.list items) ∧
        progressionLimit < items.length := by
  constructor
  · have hadd : (ofWhole 79228162514264337593543950334 (by decide)).add?
        ⟨false, 4, 1, by decide, by decide⟩ =
          some (ofWhole 79228162514264337593543950334 (by decide)) := by decide +kernel
    have hcount : stepCount? (ofWhole 79228162514264337593543950334 (by decide))
        (ofWhole 79228162514264337593543950335 (by decide)) ⟨false, 4, 1, by decide, by decide⟩ =
          some 3 := by decide +kernel
    rw [progression_eq rfl (by decide) hcount (by decide), progressionFrom]
    refine (if_pos ((before_ofWhole _ _).2 (by decide))).trans ?_
    rw [hadd]
    exact if_neg fun hmoves => absurd ((before_ofWhole _ _).1 hmoves) (Nat.lt_irrefl _)
  · have hcount : stepCount? (ofWhole 79228162514264337593542950000 (by decide))
        (ofWhole 79228162514264337593543950001 (by decide)) oneAndTwoFifths =
          some 714287 := by decide +kernel
    obtain ⟨run, hrun, hvalue⟩ := progressionFrom_oneAndTwoFifths 1000001
      (n := 79228162514264337593542950000) (by decide) (by decide) (by decide) []
    refine ⟨run, ?_, ?_⟩
    · rw [progression_eq rfl (by decide) hcount (by decide)]
      exact hvalue
    · rw [hrun]
      decide

end Juxta
