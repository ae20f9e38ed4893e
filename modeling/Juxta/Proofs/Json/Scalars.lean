import Juxta.Proofs.Json.Reading

/-!
# Strings and numbers that are read back

* `isPlain`, `encodeChar_of_isPlain`, `gives_escape` : characters that stand for themselves, and
  the escapes of all others;
* `Reader.gives_string` : a string of any characters;
* `takeWhole_toDigits`, `Reader.gives_number` : a number of at most 64 bits.
-/

namespace Juxta.Json

open Reader

/-! ## Characters of strings -/

/-- A character that stands for itself in a string. -/
def isPlain (c : Char) : Bool := c != '"' && c != '\\' && 32 ≤ c.toNat

theorem encodeChar_of_isPlain {c : Char} (h : isPlain c = true) : encodeChar c = [c] := by
  unfold encodeChar
  split
  all_goals first
    | exact absurd h (by decide)
    | skip
  unfold isPlain at h
  rw [if_neg]
  simp only [Bool.and_eq_true, decide_eq_true_eq] at h
  omega

theorem hexDigit?_digitChar : ∀ d < 16, Reader.hexDigit? d.digitChar = some d := by decide

theorem controlCode_eq {c : Char} (h : c.toNat < 32) :
    controlCode c = ['\\', 'u', '0', '0', (c.toNat / 16).digitChar, (c.toNat % 16).digitChar] := by
  have hdigits : ∀ n < 32, List.replicate (4 - (Nat.toDigits 16 n).length) '0' ++
      Nat.toDigits 16 n = ['0', '0', (n / 16).digitChar, (n % 16).digitChar] := by decide
  unfold controlCode
  dsimp only
  rw [List.append_assoc, hdigits c.toNat h]
  rfl

theorem gives_hexEscape {n : Nat} (h : n < 32) (rest : List Char) :
    Gives hexEscape ('0' :: '0' :: (n / 16).digitChar :: (n % 16).digitChar :: rest) n rest := by
  refine gives_get_bind fun place => ?_
  have hdigits : (['0', '0', (n / 16).digitChar, (n % 16).digitChar].mapM hexDigit?) =
      some [0, 0, n / 16, n % 16] := by
    rw [List.mapM_cons, List.mapM_cons, List.mapM_cons, List.mapM_cons, List.mapM_nil,
      hexDigit?_digitChar _ (by omega), hexDigit?_digitChar _ (by omega)]
    rfl
  dsimp only [List.take_succ_cons, List.take_zero]
  rw [hdigits]
  have hvalue : ((0 * 16 + 0) * 16 + n / 16) * 16 + n % 16 = n := by omega
  dsimp only
  rw [hvalue]
  exact (gives_skip ['0', '0', (n / 16).digitChar, (n % 16).digitChar] rest).bind
    (gives_pure n rest)

theorem gives_unicodeEscape {c : Char} (h : c.toNat < 32) (rest : List Char) :
    Gives unicodeEscape ('0' :: '0' :: (c.toNat / 16).digitChar :: (c.toNat % 16).digitChar :: rest)
      c rest := by
  refine (gives_hexEscape h rest).bind ?_
  rw [if_neg (by simp; omega), if_pos (by simp; omega), Char.ofNat_toNat]
  exact gives_pure c rest

/-- What reads an escape in a string. -/
abbrev readEscape : Reader (List Char) := escape (fun c => [c]) (do return [← unicodeEscape])

theorem gives_escape_letter {letter c : Char} (h : escaped? letter = some c) (hu : letter ≠ 'u')
    (rest : List Char) : Gives readEscape (letter :: rest) [c] rest := by
  refine (gives_peek _).bind ?_
  dsimp only [List.head?_cons]
  split
  · rename_i hnone
    cases hnone
  · rename_i hletter
    cases hletter
    exact absurd rfl hu
  · rename_i hletter
    cases hletter
    rw [h]
    exact (gives_skip_one _ rest).bind (gives_pure [c] rest)

/-- A character that does not stand for itself is written as an escape that is read back. -/
theorem gives_escape {c : Char} (h : isPlain c = false) : ∃ code, encodeChar c = '\\' :: code ∧
    ∀ rest, Gives readEscape (code ++ rest) [c] rest := by
  unfold encodeChar
  split
  case h_8 =>
    have hcontrol : c.toNat < 32 := by
      unfold isPlain at h
      simp_all
    rw [if_pos hcontrol, controlCode_eq hcontrol]
    refine ⟨_, rfl, fun rest => (gives_peek _).bind ?_⟩
    refine (gives_skip_one 'u' _).bind ?_
    exact (gives_unicodeEscape hcontrol rest).bind (gives_pure [c] rest)
  all_goals exact ⟨_, rfl, gives_escape_letter rfl (by decide)⟩

/-! ## Strings -/

/-- A text is plain, or its first character that is not splits it. -/
theorem isPlain_or_split (chars : List Char) : (∀ c ∈ chars, isPlain c = true) ∨
    ∃ plain c tail, chars = plain ++ c :: tail ∧ (∀ c ∈ plain, isPlain c = true) ∧
      isPlain c = false := by
  have hplain : ∀ c ∈ chars.takeWhile isPlain, isPlain c = true :=
    List.all_eq_true.1 List.all_takeWhile
  have hchars := List.takeWhile_append_dropWhile (p := isPlain) (l := chars)
  cases htail : chars.dropWhile isPlain with
  | nil =>
    rw [htail, List.append_nil] at hchars
    exact .inl (hchars ▸ hplain)
  | cons c tail =>
    rw [htail] at hchars
    refine .inr ⟨_, c, tail, hchars.symm, hplain, ?_⟩
    have hhead := List.head?_dropWhile_not isPlain chars
    rw [htail] at hhead
    exact hhead

theorem flatMap_encodeChar_of_isPlain {plain : List Char} (h : ∀ c ∈ plain, isPlain c = true) :
    plain.flatMap encodeChar = plain := by
  induction plain with
  | nil => rfl
  | cons c rest ih =>
    obtain ⟨hc, hrest⟩ := List.forall_mem_cons.1 h
    rw [List.flatMap_cons, encodeChar_of_isPlain hc, ih hrest]
    rfl

/-- One step of reading a string: plain characters, and then an escape or the closing quote. -/
def stringStep (done : String) : Reader (Sum String String) := do
  let plain ← span fun c => c != '"' && c != '\\' && 32 ≤ c.toNat
  let done := done ++ String.ofList plain
  match ← peek with
  | none => fail .endInString
  | some '"' => skip 1; return .inr done
  | some '\\' => skip 1; return .inl (done ++ String.ofList (← readEscape))
  | some _ => failNext .controlCharacter

theorem gives_stringStep_quote {plain : List Char} (h : ∀ c ∈ plain, isPlain c = true)
    (done : String) (rest : List Char) :
    Gives (stringStep done) (plain ++ '"' :: rest) (.inr (done ++ String.ofList plain)) rest := by
  refine (gives_span h (stops_cons (by decide) rest)).bind ((gives_peek _).bind ?_)
  exact (gives_skip_one '"' rest).bind (gives_pure _ rest)

theorem gives_stringStep_escape {plain : List Char} (h : ∀ c ∈ plain, isPlain c = true) {c : Char}
    {code : List Char} (hcode : ∀ rest, Gives readEscape (code ++ rest) [c] rest) (done : String)
    (rest : List Char) : Gives (stringStep done) (plain ++ '\\' :: (code ++ rest))
      (.inl (done ++ String.ofList plain ++ String.ofList [c])) rest := by
  refine (gives_span h (stops_cons (by decide) _)).bind ((gives_peek _).bind ?_)
  exact (gives_skip_one '\\' _).bind ((hcode rest).bind (gives_pure _ rest))

theorem iterates_stringStep (chars rest : List Char) (done : String) :
    Iterates stringStep done (chars.flatMap encodeChar ++ '"' :: rest)
      (done ++ String.ofList chars) rest := by
  -- every step but the last reads the characters up to an escape and the escape
  induction hlength : chars.length using Nat.strongRecOn generalizing chars done with
  | ind length ih =>
    rcases isPlain_or_split chars with hplain | ⟨plain, c, tail, rfl, hplain, hc⟩
    · rw [flatMap_encodeChar_of_isPlain hplain]
      exact .last (gives_stringStep_quote hplain done rest)
    · obtain ⟨code, hencode, hcode⟩ := gives_escape hc
      have hchars : (plain ++ c :: tail).flatMap encodeChar ++ '"' :: rest =
          plain ++ '\\' :: (code ++ (tail.flatMap encodeChar ++ '"' :: rest)) := by
        rw [List.flatMap_append, List.flatMap_cons, flatMap_encodeChar_of_isPlain hplain, hencode]
        simp
      have hdone : done ++ String.ofList (plain ++ c :: tail) =
          done ++ String.ofList plain ++ String.ofList [c] ++ String.ofList tail := by
        show done ++ String.ofList (plain ++ ([c] ++ tail)) = _
        rw [String.ofList_append, String.ofList_append, String.append_assoc, String.append_assoc]
      rw [hchars, hdone]
      refine .more (gives_stringStep_escape hplain hcode done _) ?_ (ih tail.length ?_ tail _ rfl)
      · simp only [List.length_append, List.length_cons]
        omega
      · rw [← hlength]
        simp only [List.length_append, List.length_cons]
        omega

/-- A string is read back, whatever its characters are. -/
theorem gives_string (s : String) (rest : List Char) :
    Gives Reader.string (s.toList.flatMap encodeChar ++ '"' :: rest) s rest := by
  have h : Gives (iterate stringStep "") _ ("" ++ String.ofList s.toList) rest :=
    (iterates_stringStep s.toList rest "").gives
  rw [String.empty_append, String.ofList_toList] at h
  exact h

/-! ## Numbers -/

/-- What follows does not go on with a number. -/
abbrev EndsNumber (rest : List Char) : Prop :=
  Stops (fun c => c.isDigit || c == '.' || c == 'e' || c == 'E') rest

theorem EndsNumber.isDigit {rest : List Char} (h : EndsNumber rest) : Stops Char.isDigit rest := by
  intro c hc
  have hnone := h c hc
  simp only [Bool.or_eq_false_iff] at hnone
  exact hnone.1.1.1

theorem digitValue_digitChar {n : Nat} (h : n < 10) : digitValue n.digitChar = n :=
  Nat.toNat_digitChar_sub_48_of_lt_ten h

/-- The digits of a number of at most 64 bits stand for it. -/
theorem takeWhole_toDigits {n : Nat} (h : n < wordBound) :
    Significand.takeWhole (Nat.toDigits 10 n) = ⟨n, 0⟩ := by
  induction n using Nat.strongRecOn with
  | ind n ih =>
    have step : ∀ m, m * 10 + n % 10 = n → (if (0 : Int) = 0 && m * 10 +
        digitValue (n % 10).digitChar < wordBound then
          (⟨m * 10 + digitValue (n % 10).digitChar, 0⟩ : Significand) else ⟨m, 0 + 1⟩) =
        ⟨n, 0⟩ := by
      intro m hm
      rw [digitValue_digitChar (Nat.mod_lt n (by decide)), hm, if_pos (by simpa using h)]
    by_cases hsmall : n < 10
    · rw [Nat.toDigits_of_lt_base hsmall]
      have hn := step 0 (by omega)
      rw [Nat.mod_eq_of_lt hsmall] at hn
      exact hn
    · have hlt : n / 10 < n := by omega
      rw [Nat.toDigits_of_base_le (by decide) (Nat.le_of_not_lt hsmall)]
      unfold Significand.takeWhole at ih ⊢
      rw [List.foldl_append, ih (n / 10) hlt (Nat.lt_trans hlt h)]
      exact step (n / 10) (by omega)

theorem exists_toDigits (n : Nat) : ∃ c digits, Nat.toDigits 10 n = c :: digits ∧
    c.isDigit = true := by
  cases hdigits : Nat.toDigits 10 n with
  | nil => exact absurd hdigits Nat.toDigits_ne_nil
  | cons c digits =>
    refine ⟨c, digits, rfl, Nat.isDigit_of_mem_toDigits (b := 10) (n := n) ?_ ?_ ?_⟩
    · decide
    · decide
    · rw [hdigits]
      exact List.mem_cons_self

/-- No number but zero begins with a zero. -/
theorem head?_toDigits {n : Nat} (h : 0 < n) : (Nat.toDigits 10 n).head? ≠ some '0' := by
  induction n using Nat.strongRecOn with
  | ind n ih =>
    by_cases hsmall : n < 10
    · rw [Nat.toDigits_of_lt_base hsmall]
      intro hzero
      exact absurd (Nat.digitChar_eq_zero.1 (Option.some.inj hzero)) (Nat.ne_of_gt h)
    · have hfirst := ih (n / 10) (by omega) (by omega)
      obtain ⟨c, digits, hdigits, -⟩ := exists_toDigits (n / 10)
      rw [hdigits] at hfirst
      rw [Nat.toDigits_of_base_le (by decide) (Nat.le_of_not_lt hsmall), hdigits]
      exact hfirst

/-- What follows a number that is whole does not change it. -/
theorem gives_whole (n : Nat) {rest : List Char} (hrest : EndsNumber rest) : Gives (do
      match ← peek with
      | some '.' => skip 1; fraction false ⟨n, 0⟩
      | some 'e' | some 'E' => skip 1; exponent false ⟨n, 0⟩
      | _ => Reader.whole false ⟨n, 0⟩) rest (.nat n) rest := by
  refine (gives_peek rest).bind ?_
  split
  · rename_i hpoint
    exact absurd (hrest '.' hpoint) (by decide)
  · rename_i hpower
    exact absurd (hrest 'e' hpower) (by decide)
  · rename_i hpower
    exact absurd (hrest 'E' hpower) (by decide)
  · exact gives_pure _ rest

/-- A number of at most 64 bits is read back. -/
theorem gives_number {n : Nat} (h : n < wordBound) {rest : List Char} (hrest : EndsNumber rest) :
    Gives (number false) (Nat.toDigits 10 n ++ rest) (.nat n) rest := by
  obtain ⟨c, digits, hdigits, hc⟩ := exists_toDigits n
  have hall : ∀ d ∈ Nat.toDigits 10 n, d.isDigit = true :=
    fun d hm => Nat.isDigit_of_mem_toDigits (by decide) (by decide) hm
  have hzero : ¬ ((Nat.toDigits 10 n).head? = some '0' ∧ 1 < (Nat.toDigits 10 n).length) := by
    rintro ⟨hhead, hlength⟩
    rcases Nat.eq_zero_or_pos n with rfl | hpos
    · exact absurd hlength (by decide)
    · exact head?_toDigits hpos hhead
  unfold number
  refine (gives_peek _).bind ?_
  rw [hdigits]
  dsimp only [List.cons_append, List.head?_cons]
  rw [if_pos hc, ← List.cons_append, ← hdigits]
  refine gives_get_bind fun place => ?_
  have htaken : (Cursor.mk (Nat.toDigits 10 n ++ rest) place).rest.takeWhile Char.isDigit =
      Nat.toDigits 10 n := takeWhile_append hall hrest.isDigit
  rw [htaken, if_neg (by simpa using hzero)]
  refine (gives_skip _ rest).bind ?_
  rw [takeWhole_toDigits h]
  exact gives_whole n hrest

end Juxta.Json
