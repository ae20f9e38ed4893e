import Juxta.Number

/-!
# The text of a number

A number is read back from its text, and two numbers have the same text exactly if they are equal.

* `Decimal.readDigits_append` : what reading digits does, before and behind the point;
* `Decimal.ofChars?_chars` : reading all characters of a number;
* `Number.parse?_format` : the numeral that is written for a number stands for it;
* `Decimal.trim_eq_trim_iff` : numbers without zeros at the end of their fractions are equal exactly
  if their values are;
* `Number.format_eq_format_iff` : the same of their texts.
-/

namespace Juxta

namespace Decimal

/-! ## Digits -/

theorem le_ofDigitChars (digits : List Char) (n : Nat) : n ≤ Nat.ofDigitChars 10 digits n := by
  induction digits generalizing n with
  | nil => exact Nat.le_refl n
  | cons c rest ih =>
    rw [Nat.ofDigitChars_cons]
    have := ih (10 * n + (c.toNat - '0'.toNat))
    omega

theorem ofDigitChars_replicate_zero (count : Nat) :
    Nat.ofDigitChars 10 (List.replicate count '0') 0 = 0 := by
  induction count with
  | zero => rfl
  | succ count ih =>
    rw [List.replicate_succ, Nat.ofDigitChars_cons]
    exact ih

theorem digit?_of_isDigit {c : Char} (h : c.isDigit = true) :
    digit? c = some (c.toNat - '0'.toNat) := if_pos h

/-- Reading digits adds them to the mantissa and, behind the point, to the scale. -/
theorem readDigits_append (negative point any : Bool) {mantissa scale : Nat} {ds : List Char}
    (rest : List Char) (hd : ∀ c ∈ ds, c.isDigit = true)
    (hb : Nat.ofDigitChars 10 ds mantissa < bound)
    (hs : point = true → scale + ds.length ≤ places) :
    readDigits negative point any mantissa scale (ds ++ rest) =
      readDigits negative point (any || !ds.isEmpty) (Nat.ofDigitChars 10 ds mantissa)
        (if point then scale + ds.length else scale) rest := by
  induction ds generalizing any mantissa scale with
  | nil => cases point <;> cases any <;> rfl
  | cons c ds ih =>
    obtain ⟨hc, hds⟩ := List.forall_mem_cons.1 hd
    rw [Nat.ofDigitChars_cons] at hb ⊢
    have hfits : mantissa * 10 + (c.toNat - '0'.toNat) < bound := by
      have := le_ofDigitChars ds (10 * mantissa + (c.toNat - '0'.toNat))
      omega
    have hroom : (point && decide (places ≤ scale)) = false := by
      cases point with
      | false => rfl
      | true =>
        have := hs rfl
        simp only [List.length_cons] at this
        simp only [Bool.true_and, decide_eq_false_iff_not]
        omega
    rw [List.cons_append, readDigits, hroom, digit?_of_isDigit hc]
    simp only [Bool.false_eq_true, if_false, if_pos hfits]
    rw [Nat.mul_comm mantissa 10, ih true hds hb]
    · cases point <;> simp [Nat.add_assoc, Nat.add_comm 1]
    · intro hpoint
      have := hs hpoint
      simp only [List.length_cons] at this
      simp only [hpoint, if_true]
      omega

/-- The digits before the point. -/
theorem readDigits_whole (negative : Bool) {ds : List Char} (rest : List Char) (hne : ds ≠ [])
    (hd : ∀ c ∈ ds, c.isDigit = true) (hb : Nat.ofDigitChars 10 ds 0 < bound) :
    readDigits negative false false 0 0 (ds ++ rest) =
      readDigits negative false true (Nat.ofDigitChars 10 ds 0) 0 rest := by
  have hany : (false || !ds.isEmpty) = true := by simpa using hne
  rw [readDigits_append negative false false rest hd hb nofun, hany]
  rfl

/-- The digits behind the point. -/
theorem readDigits_fraction (negative : Bool) {whole : Nat} {ds : List Char}
    (hd : ∀ c ∈ ds, c.isDigit = true) (hb : Nat.ofDigitChars 10 ds whole < bound)
    (hs : ds.length ≤ places) :
    readDigits negative true true whole 0 ds =
      make? negative (Nat.ofDigitChars 10 ds whole) ds.length := by
  have hread := readDigits_append negative true true [] hd hb fun _ => by rwa [Nat.zero_add]
  rw [List.append_nil, if_pos rfl, Nat.zero_add] at hread
  rw [hread]
  rfl

/-! ## The characters of a number -/

/-- The digits of a number, at least one of them before the point. -/
def padded (d : Decimal) : List Char :=
  List.replicate (d.scale + 1 - (digits d.mantissa).length) '0' ++ digits d.mantissa

/-- The characters of a number but for its sign. -/
def unsigned (d : Decimal) : List Char :=
  if d.scale = 0 then d.padded
  else d.padded.take (d.padded.length - d.scale) ++ '.' :: d.padded.drop (d.padded.length - d.scale)

theorem chars_eq (d : Decimal) :
    d.chars = if d.negative then '-' :: d.unsigned else d.unsigned := rfl

theorem isDigit_of_mem_padded {d : Decimal} {c : Char} (h : c ∈ d.padded) : c.isDigit = true := by
  rw [padded, List.mem_append] at h
  rcases h with h | h
  · rw [List.eq_of_mem_replicate h]
    decide
  · exact Nat.isDigit_of_mem_toDigits (by decide) (by decide) h

theorem lt_length_padded (d : Decimal) : d.scale < d.padded.length := by
  rw [padded, List.length_append, List.length_replicate]
  omega

theorem ofDigitChars_padded (d : Decimal) : Nat.ofDigitChars 10 d.padded 0 = d.mantissa := by
  rw [padded, Nat.ofDigitChars_append, ofDigitChars_replicate_zero]
  exact Nat.ofDigitChars_toDigits (by decide) (by decide)

/-- The characters without the sign begin with a digit, and only digits and a point follow. -/
theorem unsigned_spec (d : Decimal) : (∃ c rest, d.unsigned = c :: rest ∧ c.isDigit = true) ∧
    ∀ c ∈ d.unsigned, c.isDigit = true ∨ c = '.' := by
  have hpos := d.lt_length_padded
  have hdigit : ∀ c ∈ d.padded, c.isDigit = true := fun c hm => isDigit_of_mem_padded hm
  obtain ⟨c, rest, hpadded⟩ := List.exists_cons_of_length_pos (Nat.zero_lt_of_lt hpos)
  have hc : c.isDigit = true := hdigit c (by rw [hpadded]; exact List.mem_cons_self ..)
  unfold unsigned
  split
  · exact ⟨⟨c, rest, hpadded, hc⟩, fun c hm => Or.inl (hdigit c hm)⟩
  · obtain ⟨before, hbefore⟩ : ∃ n, d.padded.length - d.scale = n + 1 :=
      ⟨d.padded.length - d.scale - 1, by omega⟩
    refine ⟨⟨c, rest.take before ++ '.' :: (c :: rest).drop (before + 1), ?_, hc⟩, fun c hm => ?_⟩
    · rw [hbefore, hpadded]
      rfl
    · rw [List.mem_append, List.mem_cons] at hm
      rcases hm with hm | hm | hm
      · exact Or.inl (hdigit c (List.mem_of_mem_take hm))
      · exact Or.inr hm
      · exact Or.inl (hdigit c (List.mem_of_mem_drop hm))

/-- Reading the characters of a number gives its mantissa and its scale. -/
theorem readDigits_unsigned (d : Decimal) (negative : Bool) :
    readDigits negative false false 0 0 d.unsigned = make? negative d.mantissa d.scale := by
  have hpos := d.lt_length_padded
  have hvalue := d.ofDigitChars_padded
  have hbound := d.mantissa_lt
  have hplaces := d.scale_le
  have hdigit : ∀ c ∈ d.padded, c.isDigit = true := fun c hm => isDigit_of_mem_padded hm
  unfold unsigned
  split
  · rename_i hscale
    have hne : d.padded ≠ [] := List.ne_nil_of_length_pos (Nat.zero_lt_of_lt hpos)
    have hread := readDigits_whole negative [] hne hdigit (by rwa [hvalue])
    rw [List.append_nil, hvalue] at hread
    rw [hread, hscale]
    rfl
  · generalize hw : d.padded.take (d.padded.length - d.scale) = whole
    generalize hf : d.padded.drop (d.padded.length - d.scale) = fraction
    have hsplit : whole ++ fraction = d.padded := by
      rw [← hw, ← hf, List.take_append_drop]
    have hlength : fraction.length = d.scale := by
      rw [← hf, List.length_drop]
      omega
    have hne : whole ≠ [] := by
      rw [← hw, ← List.length_pos_iff, List.length_take]
      omega
    rw [← hsplit] at hdigit
    rw [← hsplit, Nat.ofDigitChars_append] at hvalue
    have hwhole : Nat.ofDigitChars 10 whole 0 < bound :=
      Nat.lt_of_le_of_lt (hvalue ▸ le_ofDigitChars fraction _) hbound
    have hpoint : readDigits negative false true (Nat.ofDigitChars 10 whole 0) 0
        ('.' :: fraction) =
          readDigits negative true true (Nat.ofDigitChars 10 whole 0) 0 fraction := rfl
    rw [readDigits_whole negative _ hne (fun c hm => hdigit c (List.mem_append_left _ hm)) hwhole, hpoint,
      readDigits_fraction negative (fun c hm => hdigit c (List.mem_append_right _ hm)) (by rwa [hvalue])
        (hlength ▸ hplaces), hvalue, hlength]

/-- A number is read back from its characters. -/
theorem ofChars?_chars (d : Decimal) : ofChars? d.chars = make? d.negative d.mantissa d.scale := by
  obtain ⟨⟨c, rest, hunsigned, hc⟩, -⟩ := d.unsigned_spec
  rw [chars_eq]
  cases hn : d.negative with
  | true => exact d.readDigits_unsigned true
  | false =>
    rw [← d.readDigits_unsigned false, hunsigned]
    unfold ofChars?
    split
    · rename_i heq
      cases heq
      cases hc
    · rename_i heq
      cases heq
      cases hc
    · rfl

/-! ## Numbers without zeros at the end -/

theorem trimTo_end (mantissa scale : Nat) :
    (trimTo mantissa scale).2 = 0 ∨ (trimTo mantissa scale).1 % 10 ≠ 0 := by
  induction scale generalizing mantissa with
  | zero => exact Or.inl rfl
  | succ scale ih =>
    unfold trimTo
    split
    · exact ih (mantissa / 10)
    · exact Or.inr (by assumption)

/-- The magnitude of a number in units of the last possible place. -/
def size (d : Decimal) : Nat := d.mantissa * Nat.pow 10 (places - d.scale)

theorem units_eq (d : Decimal) : d.units = if d.negative then -(d.size : Int) else d.size := rfl

theorem size_eq_zero_iff (d : Decimal) : d.size = 0 ↔ d.mantissa = 0 := by
  unfold size
  rw [Nat.mul_eq_zero]
  exact or_iff_left (Nat.ne_of_gt (Nat.pow_pos (by decide)))

theorem size_trim (d : Decimal) : d.trim.size = d.size := by
  have hle := (trimTo_le d.mantissa d.scale).2
  have hmul := trimTo_mul d.mantissa d.scale
  have hplaces := d.scale_le
  have hsplit : places - (trimTo d.mantissa d.scale).2 =
      d.scale - (trimTo d.mantissa d.scale).2 + (places - d.scale) := by omega
  have hpow (a b : Nat) : Nat.pow 10 (a + b) = Nat.pow 10 a * Nat.pow 10 b := Nat.pow_add 10 a b
  show (trimTo d.mantissa d.scale).1 * Nat.pow 10 (places - (trimTo d.mantissa d.scale).2) =
    d.mantissa * Nat.pow 10 (places - d.scale)
  rw [hsplit, hpow, ← Nat.mul_assoc, hmul]

theorem natAbs_units (d : Decimal) : d.units.natAbs = d.size := by
  rw [units_eq]
  split <;> omega

/-- What is left has a sign if the value is below zero. -/
theorem negative_trim (d : Decimal) : d.trim.negative = decide (d.units < 0) := by
  have hzero := d.trim.size_eq_zero_iff
  rw [size_trim] at hzero
  show (d.negative && d.trim.mantissa != 0) = decide (d.units < 0)
  rw [Bool.eq_iff_iff, Bool.and_eq_true, bne_iff_ne, decide_eq_true_eq, Ne, ← hzero, units_eq]
  cases d.negative with
  | true =>
    simp only [true_and, if_true]
    omega
  | false =>
    simp only [Bool.false_eq_true, false_and, if_false, false_iff]
    omega

/-- The parts of a number without zeros at its end are known from its magnitude. -/
theorem parts_unique {m m' s s' : Nat} (hs : s ≤ places) (hs' : s' ≤ places)
    (hend : s = 0 ∨ m % 10 ≠ 0) (hend' : s' = 0 ∨ m' % 10 ≠ 0)
    (h : m * Nat.pow 10 (places - s) = m' * Nat.pow 10 (places - s')) : m = m' ∧ s = s' := by
  -- the one with more places would be a multiple of ten
  have hlt {m m' s s' : Nat} (hs' : s' ≤ places) (hlt : s < s')
      (h : m * Nat.pow 10 (places - s) = m' * Nat.pow 10 (places - s')) : m' % 10 = 0 := by
    have hsplit : places - s = s' - s - 1 + 1 + (places - s') := by omega
    have hpow : Nat.pow 10 (places - s) =
        Nat.pow 10 (s' - s - 1) * 10 * Nat.pow 10 (places - s') := by
      rw [hsplit]
      exact Nat.pow_add 10 (s' - s - 1 + 1) (places - s')
    rw [hpow, ← Nat.mul_assoc, ← Nat.mul_assoc] at h
    have hm := Nat.eq_of_mul_eq_mul_right (Nat.pow_pos (by decide : 0 < 10)) h
    omega
  rcases Nat.lt_trichotomy s s' with hless | rfl | hmore
  · have := hlt hs' hless h
    omega
  · exact ⟨Nat.eq_of_mul_eq_mul_right (Nat.pow_pos (by decide : 0 < 10)) h, rfl⟩
  · have := hlt hs hmore h.symm
    omega

/-- Two numbers are equal exactly if the same is left of them. -/
theorem trim_eq_trim_iff {a b : Decimal} : a.trim = b.trim ↔ a.eq b = true := by
  show a.trim = b.trim ↔ (a.units == b.units) = true
  rw [beq_iff_eq]
  constructor
  · intro h
    have hsize : a.size = b.size := by rw [← size_trim a, h, size_trim]
    have hsign : a.units < 0 ↔ b.units < 0 := by
      rw [← decide_eq_decide, ← negative_trim, h, negative_trim]
    have ha := a.natAbs_units
    have hb := b.natAbs_units
    omega
  · intro h
    have hsize : a.trim.size = b.trim.size := by
      rw [size_trim, size_trim, ← natAbs_units, ← natAbs_units, h]
    have hsign : a.trim.negative = b.trim.negative := by
      rw [negative_trim, negative_trim, h]
    obtain ⟨hmantissa, hscale⟩ := parts_unique a.trim.scale_le b.trim.scale_le
      (trimTo_end a.mantissa a.scale) (trimTo_end b.mantissa b.scale) hsize
    rw [Decimal.mk.injEq]
    exact ⟨hsign, hmantissa, hscale⟩

/-- A number without zeros at its end is made from its own parts. -/
theorem make?_trim (d : Decimal) :
    make? d.trim.negative d.trim.mantissa d.trim.scale = some d.trim := by
  have hsign : (d.trim.negative && d.trim.mantissa != 0) = d.trim.negative := by
    show (d.negative && d.trim.mantissa != 0 && d.trim.mantissa != 0) =
      (d.negative && d.trim.mantissa != 0)
    rw [Bool.and_assoc, Bool.and_self]
  unfold make?
  rw [dif_pos ⟨d.trim.mantissa_lt, d.trim.scale_le⟩, Option.some.injEq, Decimal.mk.injEq]
  exact ⟨hsign, rfl, rfl⟩

end Decimal

namespace Number

/-! ## Numerals -/

theorem plain_of_isDigit {c : Char} (h : c.isDigit = true) :
    Text.isBlank c = false ∧ marksExponent c = false := by
  have hcode : 48 ≤ c.toNat ∧ c.toNat ≤ 57 := by
    unfold Char.isDigit at h
    simp only [Bool.and_eq_true, decide_eq_true_eq, ge_iff_le] at h
    exact h
  constructor
  · unfold Text.isBlank
    simp only [Text.blankRanges, Text.Ranges.contains, Bool.or_eq_false_iff,
      decide_eq_false_iff_not, ite_eq_left_iff]
    omega
  · have he : c ≠ 'e' := by rintro rfl; cases h
    have hE : c ≠ 'E' := by rintro rfl; cases h
    rw [marksExponent, beq_false_of_ne he, beq_false_of_ne hE]
    rfl

/-- The characters of a number are no blanks and no letters. -/
theorem plain_of_mem_chars {d : Decimal} {c : Char} (h : c ∈ d.chars) :
    Text.isBlank c = false ∧ marksExponent c = false := by
  obtain ⟨-, hunsigned⟩ := d.unsigned_spec
  have hchar : c.isDigit = true ∨ c = '.' ∨ c = '-' := by
    rw [Decimal.chars_eq] at h
    split at h
    · rcases List.mem_cons.1 h with h | h
      · exact .inr (.inr h)
      · exact (hunsigned c h).imp_right .inl
    · exact (hunsigned c h).imp_right .inl
  rcases hchar with hc | rfl | rfl
  · exact plain_of_isDigit hc
  · decide
  · decide

theorem trim_chars (d : Decimal) : Text.trim d.chars = d.chars := by
  have hblank {cs : List Char} (h : ∀ c ∈ cs, Text.isBlank c = false) :
      cs.dropWhile Text.isBlank = cs := by
    cases cs with
    | nil => rfl
    | cons c rest =>
      rw [List.dropWhile_cons_of_neg]
      rw [h c (List.mem_cons_self ..)]
      nofun
  have hchars : ∀ c ∈ d.chars, Text.isBlank c = false := fun c h => (plain_of_mem_chars h).1
  unfold Text.trim
  rw [hblank hchars, hblank fun c h => hchars c (List.mem_reverse.1 h), List.reverse_reverse]

theorem ofChars?_chars (d : Decimal) :
    ofChars? d.chars = (Decimal.make? d.negative d.mantissa d.scale <|>
      Decimal.ofChars? ('0' :: d.chars)) := by
  have hexponent : d.chars.any marksExponent = false := by
    rw [List.any_eq_false]
    intro c h
    rw [(plain_of_mem_chars h).2]
    nofun
  have hne : d.chars.isEmpty = false := by
    obtain ⟨⟨c, rest, hunsigned, -⟩, -⟩ := d.unsigned_spec
    rw [Decimal.chars_eq, hunsigned]
    split <;> rfl
  unfold ofChars?
  rw [hexponent, hne, Decimal.ofChars?_chars]
  rfl

/-- The numeral that is written for a number stands for it. -/
theorem parse?_format (d : Decimal) : parse? (format d) = some d.trim := by
  unfold parse? format Decimal.text
  rw [String.toList_ofList, trim_chars, ofChars?_chars, Decimal.make?_trim]
  rfl

theorem format_eq_format_iff {a b : Decimal} : format a = format b ↔ a.eq b = true := by
  rw [← Decimal.trim_eq_trim_iff]
  constructor
  · intro h
    have hparse := parse?_format a
    rw [h, parse?_format, Option.some.injEq] at hparse
    exact hparse.symm
  · intro h
    unfold format
    rw [h]

end Number

end Juxta
