import Juxta.Token.Scan

/-!
# Tokens before the end of the text so far

What is read before the end of the text so far does not depend on the text that comes after it,
with one exception: after the digits of a number, a point at the very end may turn out to begin the
rest of the number.

* `Head.extend`, `Scan.complete` : the text that is still to come, added;
* `Head.advanceWhile_extend`, …, `Scan.token_complete` : what is read is the same with it;
* `Scan.Splits` : the exception, with `Scan.token_ne_of_splitsAt`;
* `Scan.next_complete_of_none`, `Scan.next_complete_of_some` : the next item, with and without the
  text to come.
-/

namespace Juxta

/-! ## Reading on -/

namespace Head

/-- A head with more text after it. -/
def extend (h : Head) (later : List Char) : Head := { h with rest := h.rest ++ later }

theorem skipWhile_append {condition : Char → Bool} {offset : Nat} {position : Position}
    {chars : List Char} (h : (skipWhile condition offset position chars).rest ≠ [])
    (later : List Char) :
    skipWhile condition offset position (chars ++ later) =
      (skipWhile condition offset position chars).extend later := by
  induction chars generalizing offset position with
  | nil => exact absurd rfl h
  | cons c rest ih =>
    simp only [List.cons_append, skipWhile] at h ⊢
    split
    · rename_i hc
      rw [if_pos hc] at h
      exact ih h
    · rfl

/-- Where reading stops before the end, more text changes nothing. -/
theorem advanceWhile_extend {h : Head} {condition : Char → Bool}
    (hr : (h.advanceWhile condition).rest ≠ []) (later : List Char) :
    (h.extend later).advanceWhile condition = (h.advanceWhile condition).extend later :=
  skipWhile_append hr later

/-- Where reading stops, it goes on with more text. -/
theorem advanceWhile_advanceWhile (h : Head) (condition : Char → Bool) (later : List Char) :
    ((h.advanceWhile condition).extend later).advanceWhile condition =
      (h.extend later).advanceWhile condition := by
  obtain ⟨rest, offset, position⟩ := h
  unfold advanceWhile extend
  dsimp only
  induction rest generalizing offset position with
  | nil => rfl
  | cons c rest ih =>
    rw [List.cons_append]
    by_cases hc : condition c = true
    · simp only [skipWhile, hc, if_true]
      exact ih _ _
    · simp only [skipWhile, hc, Bool.false_eq_true, if_false, List.cons_append]

theorem advance_extend {h : Head} (hr : h.rest ≠ []) (later : List Char) :
    (h.extend later).advance = h.advance.extend later := by
  obtain ⟨rest, offset, position⟩ := h
  cases rest with
  | nil => exact absurd rfl hr
  | cons c rest => rfl

theorem rest_ne_of_advance {h : Head} (hr : h.advance.rest ≠ []) : h.rest ≠ [] := by
  obtain ⟨rest, offset, position⟩ := h
  cases rest with
  | nil => exact absurd rfl hr
  | cons c rest => exact List.cons_ne_nil _ _

theorem rest_ne_of_advanceWhile {h : Head} {condition : Char → Bool}
    (hr : (h.advanceWhile condition).rest ≠ []) : h.rest ≠ [] := by
  intro hz
  have := h.length_advanceWhile condition
  rw [hz] at this
  exact hr (List.length_eq_zero_iff.1 (Nat.le_zero.1 this))

theorem textSince_extend (h start : Head) (later : List Char) :
    (h.extend later).textSince (start.extend later) = h.textSince start := by
  unfold textSince extend
  dsimp only
  rw [List.length_append, List.length_append, Nat.add_sub_add_right]
  exact List.take_append_of_le_length (Nat.sub_le _ _)

end Head

/-- A text begins with a point and a digit if its first piece does, or if that is a point alone and
the next piece begins with a digit. -/
theorem isFraction_append_iff {chars : List Char} (hc : chars ≠ []) (later : List Char) :
    isFraction (chars ++ later) = true ↔ isFraction chars = true ∨
      chars = ['.'] ∧ ∃ d, later.head? = some d ∧ d.isDigit = true := by
  obtain _ | ⟨c, _ | ⟨d, rest⟩⟩ := chars
  · exact absurd rfl hc
  · have hone : isFraction [c] = false := by
      unfold isFraction
      split
      · rename_i heq
        cases heq
      · rfl
    rw [hone]
    cases later with
    | nil => simp [hone]
    | cons d later =>
      by_cases hp : c = '.'
      · subst hp
        simp [isFraction]
      · simp [isFraction, hp]
  · have htwo : isFraction (c :: d :: rest ++ later) = isFraction (c :: d :: rest) := by
      by_cases hp : c = '.'
      · subst hp
        rfl
      · simp [isFraction, hp]
    rw [htwo]
    simp

/-- A number that ends before the end of the text so far: more text makes it longer only if a point
ends the text, and a digit comes next. -/
theorem numberEnd_extend {h : Head} (hr : (numberEnd h).rest ≠ []) {later : List Char}
    (hs : ¬ ((h.advanceWhile Char.isDigit).rest = ['.'] ∧
      ∃ d, later.head? = some d ∧ d.isDigit = true)) :
    numberEnd (h.extend later) = (numberEnd h).extend later := by
  unfold numberEnd at hr ⊢
  dsimp only at hr ⊢
  generalize hd : h.advanceWhile Char.isDigit = digits at hr hs
  have hdigits : digits.rest ≠ [] := by
    split at hr
    · exact Head.rest_ne_of_advance (Head.rest_ne_of_advanceWhile hr)
    · exact hr
  have hext : (h.extend later).advanceWhile Char.isDigit = digits.extend later := by
    rw [← hd] at hdigits ⊢
    exact Head.advanceWhile_extend hdigits later
  have hiff : isFraction (digits.extend later).rest = true ↔ isFraction digits.rest = true :=
    (isFraction_append_iff hdigits later).trans (or_iff_left hs)
  rw [hext]
  by_cases hf : isFraction digits.rest = true
  · rw [if_pos hf] at hr ⊢
    rw [if_pos (hiff.2 hf), Head.advance_extend hdigits, Head.advanceWhile_extend hr]
  · rw [if_neg hf, if_neg fun hl => hf (hiff.1 hl)]

/-- A number that a point ends at the end of the text so far, if a digit comes next, is longer with
the text to come. -/
theorem numberEnd_extend_of_digit {h : Head} (hp : (h.advanceWhile Char.isDigit).rest = ['.'])
    {later : List Char} {d : Char} (hd : later.head? = some d) (hdigit : d.isDigit = true) :
    (numberEnd h).rest = ['.'] ∧
      (numberEnd (h.extend later)).rest.length < ((numberEnd h).extend later).rest.length := by
  obtain _ | ⟨d, later⟩ := later
  · cases hd
  · cases hd
    have hne : (h.advanceWhile Char.isDigit).rest ≠ [] := by
      rw [hp]
      exact List.cons_ne_nil _ _
    have hone : ¬ isFraction ['.'] = true := by decide
    have hend : numberEnd h = h.advanceWhile Char.isDigit := by
      unfold numberEnd
      dsimp only
      rw [hp, if_neg hone]
    refine ⟨hend ▸ hp, ?_⟩
    rw [hend]
    unfold numberEnd
    dsimp only
    rw [Head.advanceWhile_extend hne]
    generalize h.advanceWhile Char.isDigit = digits at hp
    obtain ⟨rest, offset, position⟩ := digits
    dsimp only at hp
    subst hp
    have hf : isFraction (Head.extend ⟨['.'], offset, position⟩ (d :: later)).rest = true :=
      hdigit
    rw [if_pos hf]
    exact Nat.lt_of_le_of_lt (Head.length_advanceWhile _ _) (Nat.lt_succ_self _)

/-- A stretch of string text with more text after it. -/
def StringRun.extend (run : StringRun) (later : List Char) : StringRun :=
  { run with head := run.head.extend later }

theorem head?_append_of_ne {chars : List Char} (h : chars ≠ []) (later : List Char) :
    (chars ++ later).head? = chars.head? := by
  cases chars with
  | nil => exact absurd rfl h
  | cons c rest => rfl

/-- String text that ends before the end of the text so far. -/
theorem readString_append {quote : Char} {decoded : Bool} {text : List Char}
    {errors : List ScanError} {offset : Nat} {position : Position} {chars : List Char}
    (h : (readString quote decoded text errors offset position chars).head.rest ≠ [])
    (later : List Char) :
    readString quote decoded text errors offset position (chars ++ later) =
      (readString quote decoded text errors offset position chars).extend later := by
  fun_induction readString quote decoded text errors offset position chars with
  | case1 => exact absurd rfl h
  | case2 =>
    rw [List.cons_append, readString.eq_def]
    dsimp only
    rw [if_pos rfl]
    rfl
  | case3 text errors offset position c rest _ _ hq hopen =>
    have hrest : rest ≠ [] := by
      rintro rfl
      simp at hopen
    rw [List.cons_append, readString.eq_def]
    dsimp only
    rw [if_neg hq, head?_append_of_ne hrest, if_pos hopen]
    exact congrArg (StringRun.mk _ _ _) (Head.advance_extend (h := ⟨rest, _, _⟩) hrest later)
  | case4 => exact absurd rfl h
  | case5 text errors offset position c _ _ hq hescape e rest _ plain hplain hopen ih =>
    have hopen' : ¬ (decide (c = '$') && decoded &&
      decide ((e :: (rest ++ later)).head? = some '\x7b')) = true := hopen
    rw [List.cons_append, List.cons_append, readString.eq_def]
    dsimp only
    rw [if_neg hq, if_neg hopen', if_pos hescape]
    simp only [hplain]
    exact ih h
  | case6 text errors offset position c _ _ hq hescape e rest _ hplain _ hopen ih =>
    have hopen' : ¬ (decide (c = '$') && decoded &&
      decide ((e :: (rest ++ later)).head? = some '\x7b')) = true := hopen
    rw [List.cons_append, List.cons_append, readString.eq_def]
    dsimp only
    rw [if_neg hq, if_neg hopen', if_pos hescape]
    simp only [hplain]
    exact ih h
  | case7 text errors offset position c rest _ _ hq hopen hescape ih =>
    have hrest : rest ≠ [] := by
      rintro rfl
      exact h rfl
    rw [List.cons_append, readString.eq_def]
    dsimp only
    rw [if_neg hq, head?_append_of_ne hrest, if_neg hopen, if_neg hescape]
    exact ih h

namespace Scan

/-! ## Tokens -/

/-- A scan with all text that is still to come. -/
def complete (s : Scan) (later : String) : Scan := (s.push later).close

/-- An item, with all text that is still to come after it. -/
abbrev completed (later : String) : ScanItem × Scan → ScanItem × Scan :=
  Prod.map id fun s => s.complete later

variable {s : Scan} {start head : Head} {later : String}

theorem string_complete {quote : Char} {decoded resumed : Bool}
    (h : (s.string start head quote decoded resumed).2.head.rest ≠ []) :
    (s.complete later).string (start.extend later.toList) (head.extend later.toList) quote decoded
      resumed = completed later (s.string start head quote decoded resumed) := by
  have hrun : (readString quote decoded [] [] head.offset head.position head.rest).head.rest ≠
      [] := by
    unfold string at h
    dsimp only at h
    split at h <;> exact h
  have hread : readString quote decoded [] [] (head.extend later.toList).offset
      (head.extend later.toList).position (head.extend later.toList).rest =
      (readString quote decoded [] [] head.offset head.position head.rest).extend
        later.toList := readString_append hrun later.toList
  unfold string
  rw [hread]
  generalize readString quote decoded [] [] head.offset head.position head.rest = run
  obtain ⟨stop, text, errors, after⟩ := run
  cases stop <;> rfl

theorem length_string (s : Scan) (start head : Head) (quote : Char) (decoded resumed : Bool) :
    (s.string start head quote decoded resumed).2.head.rest.length ≤ head.rest.length := by
  have := length_readString quote decoded [] [] head.offset head.position head.rest
  unfold string
  dsimp only
  split <;> (dsimp only [yield]; simp only [List.length_nil] at this; omega)

theorem length_symbol (s : Scan) (start head : Head) (c : Char) :
    (s.symbol start head c).2.head.rest.length ≤ head.rest.length := by
  have := head.length_advance
  unfold symbol
  dsimp only
  split
  · dsimp only [yield]
    omega
  · split
    · exact Nat.le_refl _
    · split <;> exact Nat.le_refl _

theorem length_token (s : Scan) (start head : Head) (c : Char) :
    (s.token start head c).2.head.rest.length ≤ head.rest.length := by
  unfold token
  split
  case h_6 =>
    split
    · exact Nat.le_refl _
    · split
      · exact length_string ..
      · exact Nat.le_refl _
  case h_10 => exact head.length_advanceWhile _
  case h_11 | h_12 | h_13 => exact length_string ..
  case h_14 =>
    split
    · exact length_numberEnd head
    · split
      · exact Nat.le_refl _
      · split
        · exact head.length_advanceWhile _
        · exact length_symbol ..
  all_goals exact Nat.le_refl _

theorem string_flags (s : Scan) (start head : Head) (quote : Char) (decoded resumed : Bool) :
    (s.string start head quote decoded resumed).2.finished = s.finished ∧
      (s.string start head quote decoded resumed).2.closed = s.closed := by
  unfold string
  dsimp only
  split <;> exact ⟨rfl, rfl⟩

theorem symbol_flags (s : Scan) (start head : Head) (c : Char) :
    (s.symbol start head c).2.finished = s.finished ∧
      (s.symbol start head c).2.closed = s.closed := by
  unfold symbol
  dsimp only
  split
  · exact ⟨rfl, rfl⟩
  · split
    · exact ⟨rfl, rfl⟩
    · split <;> exact ⟨rfl, rfl⟩

/-- No token ends the text. -/
theorem token_flags (s : Scan) (start head : Head) (c : Char) :
    (s.token start head c).2.finished = s.finished ∧
      (s.token start head c).2.closed = s.closed := by
  unfold token
  split
  case h_6 =>
    split
    · exact ⟨rfl, rfl⟩
    · split
      · exact string_flags ..
      · exact ⟨rfl, rfl⟩
  case h_11 | h_12 | h_13 => exact string_flags ..
  case h_14 =>
    split
    · exact ⟨rfl, rfl⟩
    · split
      · exact ⟨rfl, rfl⟩
      · split
        · exact ⟨rfl, rfl⟩
        · exact symbol_flags ..
  all_goals exact ⟨rfl, rfl⟩

theorem rest_ne_of_token {c : Char} (h : (s.token start head c).2.head.rest ≠ []) :
    head.rest ≠ [] := by
  intro hz
  have := s.length_token start head c
  rw [hz] at this
  exact h (List.length_eq_zero_iff.1 (Nat.le_zero.1 this))

theorem symbol_complete {c : Char} (h : head.rest ≠ []) :
    (s.complete later).symbol (start.extend later.toList) (head.extend later.toList) c =
      completed later (s.symbol start head c) := by
  have hpair : (head.extend later.toList).rest.head? = head.rest.head? :=
    head?_append_of_ne h _
  have hlexicon : (s.complete later).lexicon = s.lexicon := rfl
  unfold symbol
  rw [hpair, Head.advance_extend h, hlexicon]
  dsimp only
  split
  · rfl
  · split
    · rfl
    · split <;> rfl

/-- Whether a token is a number whose digits are followed by a point at the end of the text so far,
and the text to come begins with a digit. -/
def SplitsAt (head : Head) (c : Char) (later : String) : Prop :=
  (c.isDigit || isFraction (c :: head.rest)) = true ∧
    (head.advanceWhile Char.isDigit).rest = ['.'] ∧
      ∃ d, later.toList.head? = some d ∧ d.isDigit = true

/-- A token that ends before the end of the text so far is the same with the text to come, unless
it is a number that goes on. -/
theorem token_complete {c : Char} (h : (s.token start head c).2.head.rest ≠ [])
    (hs : ¬ SplitsAt head c later) :
    (s.complete later).token (start.extend later.toList) (head.extend later.toList) c =
      completed later (s.token start head c) := by
  have hrest := rest_ne_of_token h
  unfold token at h ⊢
  split at h
  case h_6 =>
    have hsegments : (s.complete later).segments = s.segments := rfl
    rw [hsegments]
    cases hs : s.segments with
    | nil => rfl
    | cons inner outer =>
      rw [hs] at h
      dsimp only at h ⊢
      split
      · rename_i hd
        rw [if_pos hd] at h
        exact string_complete (s := { s with segments := outer }) h
      · rfl
  case h_10 =>
    have hw : (head.advanceWhile (· != '\n')).rest ≠ [] := h
    rw [Head.advanceWhile_extend hw]
    rfl
  case h_11 | h_12 | h_13 => exact string_complete h
  case h_14 =>
    have hfraction : isFraction (c :: (head.extend later.toList).rest) =
        isFraction (c :: head.rest) := by
      rw [Bool.eq_iff_iff]
      refine (isFraction_append_iff (List.cons_ne_nil c head.rest) later.toList).trans
        (or_iff_left fun hp => hrest ?_)
      exact (List.cons.inj hp.1).2
    rw [hfraction]
    by_cases hn : (c.isDigit || isFraction (c :: head.rest)) = true
    · rw [if_pos hn] at h ⊢
      have hend := numberEnd_extend h fun hp => hs ⟨hn, hp⟩
      rw [hend, if_pos hn]
      dsimp only
      rw [Head.textSince_extend]
      rfl
    · rw [if_neg hn] at h ⊢
      rw [if_neg hn]
      split
      · rfl
      · rename_i hdot
        rw [if_neg hdot] at h
        split
        · rename_i hword
          rw [if_pos hword] at h
          have hw : (head.advanceWhile continuesWord).rest ≠ [] := h
          rw [Head.advanceWhile_extend hw]
          dsimp only
          rw [Head.textSince_extend]
          rfl
        · exact symbol_complete hrest
  all_goals rfl

/-! ## A number that is split -/

theorem token_of_number {c : Char} (h : (c.isDigit || isFraction (c :: head.rest)) = true) :
    s.token start head c =
      s.yield start (numberEnd head) (.number (numberText ((numberEnd head).textSince start))) := by
  unfold token
  split
  case h_14 => rw [if_pos h]
  all_goals simp [isFraction] at h

theorem head?_textSince {h : Head} {c : Char} {rest : List Char} (hs : start.rest = c :: rest)
    (hl : h.rest.length ≤ rest.length) : (h.textSince start).head? = some c := by
  unfold Head.textSince
  rw [hs, List.length_cons, Nat.succ_sub hl]
  rfl

theorem length_textSince (h start : Head) :
    (h.textSince start).length = start.rest.length - h.rest.length := by
  unfold Head.textSince
  rw [List.length_take]
  exact Nat.min_eq_left (Nat.sub_le _ _)

theorem eq_of_numberText_eq {a b : List Char} (h : a.head? = b.head?)
    (he : numberText a = numberText b) : a = b := by
  unfold numberText at he
  rw [h] at he
  have hl := String.ofList_injective he
  split at hl
  · exact (List.cons.inj hl).2
  · exact hl

/-- A number that goes on is longer with the text to come. -/
theorem token_ne_of_splitsAt {t : Scan} {c : Char} (hstart : start.rest = c :: head.rest)
    (hs : SplitsAt head c later) :
    (s.token start head c).1 ≠
      (t.token (start.extend later.toList) (head.extend later.toList) c).1 := by
  obtain ⟨hn, hp, d, hd, hdigit⟩ := hs
  obtain ⟨hend, hlt⟩ := numberEnd_extend_of_digit hp hd hdigit
  have hn' : (c.isDigit || isFraction (c :: (head.extend later.toList).rest)) = true := by
    rw [Bool.or_eq_true] at hn ⊢
    refine hn.imp id fun hf => ?_
    exact (isFraction_append_iff (List.cons_ne_nil c head.rest) later.toList).2 (Or.inl hf)
  rw [token_of_number hn, token_of_number hn']
  intro he
  have hkind := congrArg Token.kind (Except.ok.inj he)
  have htext := TokenKind.number.inj hkind
  have hstart' : (start.extend later.toList).rest = c :: (head.extend later.toList).rest :=
    congrArg (· ++ later.toList) hstart
  have hlist := eq_of_numberText_eq
    ((head?_textSince hstart (length_numberEnd head)).trans
      (head?_textSince hstart' (length_numberEnd _)).symm) htext
  have hlength := congrArg List.length hlist
  rw [length_textSince, length_textSince, hstart, hstart'] at hlength
  have hle := length_numberEnd head
  have hle' := length_numberEnd (head.extend later.toList)
  simp only [Head.extend, List.length_cons, List.length_append] at hlength hlt hle hle'
  omega

/-! ## The next item -/

/-- A scan with the blanks before the next token passed over. -/
def skipBlanks (s : Scan) : Scan := { s with head := s.head.advanceWhile Text.isBlank }

/-- Whether the next token is a number whose digits are followed by a point at the end of the text
so far, and the text to come begins with a digit. -/
def Splits (s : Scan) (later : String) : Prop :=
  s.pending = [] ∧ ∃ c rest, s.skipBlanks.head.rest = c :: rest ∧
    SplitsAt s.skipBlanks.head.advance c later

/-- The next item where no error is pending and the end has not been given out. -/
theorem next_of_ready {s : Scan} (hp : s.pending = []) (hf : s.finished = false) :
    s.next = match s.skipBlanks.head.rest with
      | [] =>
        if s.closed then
          let (item, t) := { s.skipBlanks with finished := true }.yield s.skipBlanks.head
            s.skipBlanks.head .endOfText
          (some item, t)
        else (none, s.skipBlanks)
      | c :: _ =>
        let (item, t) := s.skipBlanks.token s.skipBlanks.head s.skipBlanks.head.advance c
        if !s.closed && t.head.rest.isEmpty then (none, s.skipBlanks) else (some item, t) := by
  obtain ⟨lexicon, head, size, closed, finished, segments, pending⟩ := s
  dsimp only at hp hf
  subst hp hf
  rfl

/-- The next token of a complete text. -/
theorem next_of_closed {s : Scan} {c : Char} {rest : List Char} (hp : s.pending = [])
    (hf : s.finished = false) (hc : s.closed = true) (hr : s.skipBlanks.head.rest = c :: rest) :
    s.next = Prod.map some id
      (s.skipBlanks.token s.skipBlanks.head s.skipBlanks.head.advance c) := by
  rw [next_of_ready hp hf, hc]
  split
  · rename_i hnil
    rw [hnil] at hr
    cases hr
  · rename_i hcons
    rw [hcons] at hr
    cases hr
    rfl

/-- In a complete text an item follows unless the end has been given out, and only the end of the
text is given out as the end. -/
theorem next_closed {s t : Scan} {item : Option ScanItem} (hc : s.closed = true)
    (h : s.next = (item, t)) :
    t.closed = true ∧ (item = none → s.finished = true) ∧
      (t.finished = true → s.finished = true ∨
        ∃ token : Token, item = some (.ok token) ∧ token.kind = .endOfText) := by
  cases hp : s.pending with
  | cons error rest =>
    have hnext : s.next = (some (.error error), { s with pending := rest }) := by
      unfold next
      rw [hp]
    rw [hnext] at h
    cases h
    exact ⟨hc, nofun, .inl⟩
  | nil =>
    cases hf : s.finished with
    | true =>
      have hnext : s.next = (none, s) := by
        unfold next
        rw [hp, hf]
        rfl
      rw [hnext] at h
      cases h
      exact ⟨hc, fun _ => rfl, fun _ => .inl rfl⟩
    | false =>
      cases hr : s.skipBlanks.head.rest with
      | nil =>
        rw [next_of_ready hp hf, hr, hc] at h
        cases h
        exact ⟨hc, nofun, fun _ => .inr ⟨_, rfl, rfl⟩⟩
      | cons c rest =>
        rw [next_of_closed hp hf hc hr] at h
        cases h
        obtain ⟨hfinished, hclosed⟩ :=
          s.skipBlanks.token_flags s.skipBlanks.head s.skipBlanks.head.advance c
        refine ⟨hclosed.trans hc, nofun, fun hend => ?_⟩
        exact absurd (hend.symm.trans (hfinished.trans hf)) nofun

theorem next_eq_of_skipBlanks_eq {s t : Scan} (hp : s.pending = []) (hf : s.finished = false)
    (h : s.skipBlanks = t.skipBlanks) : s.next = t.next := by
  have hp' : t.pending = [] := (congrArg Scan.pending h).symm.trans hp
  have hf' : t.finished = false := (congrArg Scan.finished h).symm.trans hf
  have hc : s.skipBlanks.closed = t.skipBlanks.closed := congrArg Scan.closed h
  rw [next_of_ready hp hf, next_of_ready hp' hf', h, show s.closed = t.closed from hc]

/-- No item is there yet: then only blanks have been passed over. -/
theorem next_complete_of_none {s t : Scan} (hf : s.finished = false)
    (h : s.next = (none, t)) (later : String) :
    t.finished = false ∧ t.closed = s.closed ∧
      (s.complete later).next = (t.complete later).next := by
  cases hp : s.pending with
  | cons error rest =>
    unfold next at h
    rw [hp] at h
    cases h
  | nil =>
    have ht : t = s.skipBlanks := by
      rw [next_of_ready hp hf] at h
      split at h
      · split at h
        · cases h
        · cases h
          rfl
      · dsimp only at h
        split at h
        · cases h
          rfl
        · cases h
    subst ht
    refine ⟨hf, rfl, next_eq_of_skipBlanks_eq hp hf ?_⟩
    unfold skipBlanks complete push close
    dsimp only
    congr 1
    exact (s.head.advanceWhile_advanceWhile Text.isBlank later.toList).symm

/-- An item that is there already: the whole text has the same one, unless it is a number that goes
on. -/
theorem next_complete_of_some {s t : Scan} {item : ScanItem} (hc : s.closed = false)
    (hf : s.finished = false) (h : s.next = (some item, t)) (later : String) :
    t.finished = false ∧ t.closed = false ∧
      (¬ s.Splits later → (s.complete later).next = (some item, t.complete later)) ∧
      (s.Splits later → ∀ u, (s.complete later).next ≠ (some item, u)) := by
  cases hp : s.pending with
  | cons error rest =>
    unfold next at h
    rw [hp] at h
    cases h
    refine ⟨hf, hc, fun _ => ?_, fun hs => ?_⟩
    · unfold next
      rw [show (s.complete later).pending = error :: rest from hp]
      rfl
    · exact absurd (hp.symm.trans hs.1) (List.cons_ne_nil error rest)
  | nil =>
    have hp' : (s.complete later).pending = [] := hp
    have hf' : (s.complete later).finished = false := hf
    rw [next_of_ready hp hf] at h
    split at h
    · rw [hc] at h
      cases h
    · rename_i c rest hrest
      dsimp only at h
      split at h
      · cases h
      · rename_i hmore
        cases h
        have hne : (s.head.advanceWhile Text.isBlank).rest ≠ [] := by
          rw [show (s.head.advanceWhile Text.isBlank).rest = c :: rest from hrest]
          exact List.cons_ne_nil c rest
        have hskip : (s.complete later).skipBlanks = s.skipBlanks.complete later := by
          unfold skipBlanks complete push close
          dsimp only
          congr 1
          exact Head.advanceWhile_extend hne later.toList
        have hmore' : (s.skipBlanks.token s.skipBlanks.head s.skipBlanks.head.advance
            c).2.head.rest ≠ [] := by
          rw [hc] at hmore
          simpa using hmore
        have hrest' : (s.complete later).skipBlanks.head.rest = c :: (rest ++ later.toList) := by
          rw [hskip]
          exact congrArg (· ++ later.toList) hrest
        have hadvance : (s.complete later).skipBlanks.head.advance =
            s.skipBlanks.head.advance.extend later.toList := by
          rw [hskip]
          exact Head.advance_extend hne later.toList
        have hstart : s.skipBlanks.head.rest = c :: s.skipBlanks.head.advance.rest := by
          unfold Head.advance
          rw [hrest]
        have hnext := next_of_closed hp' hf' rfl hrest'
        rw [hadvance, hskip] at hnext
        obtain ⟨hfin, hcl⟩ := s.skipBlanks.token_flags s.skipBlanks.head
          s.skipBlanks.head.advance c
        refine ⟨hfin.trans hf, hcl.trans hc, fun hs => ?_, fun hs u hu => ?_⟩
        · rw [hnext]
          have hcomplete : (s.skipBlanks.complete later).token
              (s.skipBlanks.head.extend later.toList)
              (s.skipBlanks.head.advance.extend later.toList) c =
              completed later (s.skipBlanks.token s.skipBlanks.head s.skipBlanks.head.advance c) :=
            token_complete hmore' fun hsplit => hs ⟨hp, c, rest, hrest, hsplit⟩
          exact congrArg (Prod.map some id) hcomplete
        · obtain ⟨-, c', rest', hr, hsplit⟩ := hs
          rw [hrest] at hr
          cases hr
          rw [hnext] at hu
          have := congrArg Prod.fst hu
          exact token_ne_of_splitsAt hstart hsplit (Option.some.inj this).symm

/-- A number that is split has been given out. -/
theorem next_ne_none_of_splits {s : Scan} (hf : s.finished = false) (hs : s.Splits later) :
    s.next.1 ≠ none := by
  obtain ⟨hp, c, rest, hrest, hn, hpoint, d, hd, hdigit⟩ := hs
  obtain ⟨hend, -⟩ := numberEnd_extend_of_digit hpoint hd hdigit
  have hmore : (s.skipBlanks.token s.skipBlanks.head s.skipBlanks.head.advance
      c).2.head.rest.isEmpty = false := by
    rw [token_of_number hn]
    exact congrArg List.isEmpty hend
  rw [next_of_ready hp hf]
  split
  · rename_i hnil
    rw [hnil] at hrest
    cases hrest
  · rename_i hcons
    rw [hcons] at hrest
    cases hrest
    dsimp only
    rw [hmore, Bool.and_false]
    nofun

end Scan

end Juxta
