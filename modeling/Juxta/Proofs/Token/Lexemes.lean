import Juxta.Proofs.Token.Runs

/-!
# Lexemes

Where a token begins, one lexeme fits: the longest word, number or comment that stands there, a
character by itself, a symbol of the lexicon, or string text up to its end. That is the one that is
read, except that a number with a leading point may be read with two fractions.

* `Longest` : the longest beginning of a text of some form;
* `Headed`, `IsNumeral` : the forms of words, comments and numbers;
* `Lexes` : the lexeme of a text, and the token or error that it gives;
* `exists_lexes`, `Lexes.unique` : there is always one, and only one;
* `Scan.reads_of_lexes` : what is read, unless a fraction is doubled;
* `Scan.next_lexes_iff` : what is read in the course of a run.
-/

namespace Juxta

/-! ## Longest beginnings -/

/-- The longest of the beginnings of a text that are of some form. -/
structure Longest (form : List Char → Prop) (text lexeme : List Char) : Prop where
  fits : form lexeme
  begins : lexeme <+: text
  longest : ∀ other, form other → other <+: text → other.length ≤ lexeme.length

theorem Longest.unique {form : List Char → Prop} {text a b : List Char} (h : Longest form text a)
    (h' : Longest form text b) : a = b := by
  have hle := h'.longest a h.fits h.begins
  have hge := h.longest b h'.fits h'.begins
  exact (List.prefix_of_prefix_length_le h.begins h'.begins hle).eq_of_length
    (Nat.le_antisymm hle hge)

/-- Characters that all satisfy a condition stand at the beginning of those that do. -/
theorem prefix_takeWhile {p : Char → Bool} {text other : List Char}
    (hp : ∀ c ∈ other, p c = true) (ho : other <+: text) : other <+: text.takeWhile p := by
  obtain ⟨later, rfl⟩ := ho
  rw [List.takeWhile_append_of_pos hp]
  exact List.prefix_append ..

/-- A first character of one kind, and then characters of another kind. -/
def Headed (first more : Char → Bool) (lexeme : List Char) : Prop :=
  ∃ c rest, lexeme = c :: rest ∧ first c = true ∧ ∀ d ∈ rest, more d = true

theorem longest_headed {first more : Char → Bool} {c : Char} (hc : first c = true)
    (rest : List Char) : Longest (Headed first more) (c :: rest) (c :: rest.takeWhile more) where
  fits := ⟨c, _, rfl, hc, fun _ hd => List.mem_takeWhile_imp hd⟩
  begins := (List.prefix_cons_inj c).2 (List.takeWhile_prefix more)
  longest other hother hbegins := by
    obtain ⟨d, later, rfl, -, hmore⟩ := hother
    have hlater := (List.cons_prefix_cons.1 hbegins).2
    exact Nat.succ_le_succ (prefix_takeWhile hmore hlater).length_le

/-! ## Numbers -/

/-- Digits, at least one. -/
def IsDigits (lexeme : List Char) : Prop := lexeme ≠ [] ∧ ∀ d ∈ lexeme, d.isDigit = true

/-- Digits, digits with a fraction, or a fraction. -/
inductive IsNumeral : List Char → Prop where
  | whole {digits : List Char} : IsDigits digits → IsNumeral digits
  | decimal {digits fraction : List Char} : IsDigits digits → IsDigits fraction →
      IsNumeral (digits ++ '.' :: fraction)
  | fraction {fraction : List Char} : IsDigits fraction → IsNumeral ('.' :: fraction)

/-- A text begins with a fraction behind which another one begins. -/
def Doubled (text : List Char) : Prop :=
  ∃ digits rest, text = '.' :: (digits ++ rest) ∧ IsDigits digits ∧ isFraction rest = true

theorem IsDigits.takeWhile {c : Char} (hc : c.isDigit = true) (rest : List Char) :
    IsDigits ((c :: rest).takeWhile Char.isDigit) := by
  rw [List.takeWhile_cons_of_pos hc]
  refine ⟨List.cons_ne_nil _ _, fun d hd => ?_⟩
  rcases List.mem_cons.1 hd with rfl | hd
  · exact hc
  · exact List.mem_takeWhile_imp hd

/-- Digits do not begin with a point. -/
theorem IsDigits.not_prefix_dot {digits rest : List Char} (h : IsDigits digits) :
    ¬ digits <+: '.' :: rest := by
  intro hb
  cases digits with
  | nil => exact h.1 rfl
  | cons c digits =>
    obtain ⟨rfl, -⟩ := List.cons_prefix_cons.1 hb
    exact absurd (h.2 '.' List.mem_cons_self) (by decide)

theorem isFraction_iff_exists {text : List Char} :
    isFraction text = true ↔ ∃ digits, IsDigits digits ∧ '.' :: digits <+: text := by
  constructor
  · intro h
    obtain ⟨d, rest, rfl, hd⟩ := isFraction_iff.1 h
    refine ⟨[d], ⟨List.cons_ne_nil _ _, fun c hc => ?_⟩, ?_⟩
    · rwa [List.mem_singleton.1 hc]
    · exact (List.prefix_cons_inj '.').2 (List.prefix_append [d] rest)
  · rintro ⟨digits, hd, rest, rfl⟩
    cases digits with
    | nil => exact absurd rfl hd.1
    | cons d digits => exact isFraction_iff.2 ⟨d, digits ++ rest, rfl, hd.2 d List.mem_cons_self⟩

/-- A number at a point is a fraction. -/
theorem IsNumeral.of_prefix_dot {other rest : List Char} (h : IsNumeral other)
    (hb : other <+: '.' :: rest) : ∃ digits, other = '.' :: digits ∧ IsDigits digits := by
  cases h with
  | whole hd => exact absurd hb hd.not_prefix_dot
  | decimal hd =>
    exact absurd ((List.prefix_append _ _).trans hb) hd.not_prefix_dot
  | fraction hf => exact ⟨_, rfl, hf⟩

/-- A number at digits is made of some of them, or of all of them and a fraction. -/
theorem IsNumeral.of_prefix_digits {other digits rest : List Char} (h : IsNumeral other)
    (hb : other <+: digits ++ rest) (hd : IsDigits digits)
    (hr : ∀ c ∈ rest.head?, c.isDigit = false) :
    other <+: digits ∨
      ∃ fraction, other = digits ++ '.' :: fraction ∧ IsDigits fraction ∧
        '.' :: fraction <+: rest := by
  have hall : ∀ {a : List Char}, IsDigits a → a <+: digits ++ rest → a <+: digits := by
    intro a ha hab
    have htake : (digits ++ rest).takeWhile Char.isDigit = digits := by
      rw [List.takeWhile_append_of_pos hd.2]
      cases rest with
      | nil => exact List.append_nil digits
      | cons c rest =>
        rw [List.takeWhile_cons_of_neg (by rw [hr c rfl]; nofun), List.append_nil]
    have hprefix := prefix_takeWhile ha.2 hab
    rwa [htake] at hprefix
  cases h with
  | whole ha => exact .inl (hall ha hb)
  | @decimal a fraction ha hf =>
    refine .inr ⟨fraction, ?_⟩
    obtain ⟨more, rfl⟩ := hall ha ((List.prefix_append _ _).trans hb)
    rw [List.append_assoc, List.prefix_append_right_inj] at hb
    cases more with
    | nil =>
      rw [List.append_nil]
      exact ⟨rfl, hf, hb⟩
    | cons c more =>
      obtain ⟨rfl, -⟩ := List.cons_prefix_cons.1 hb
      exact absurd (hd.2 '.' (List.mem_append_right a List.mem_cons_self)) (by decide)
  | fraction hf =>
    cases digits with
    | nil => exact absurd rfl hd.1
    | cons c digits =>
      obtain ⟨rfl, -⟩ := List.cons_prefix_cons.1 hb
      exact absurd (hd.2 '.' List.mem_cons_self) (by decide)

/-- A number begins with a digit or a point. -/
theorem IsNumeral.exists_cons {lexeme : List Char} (h : IsNumeral lexeme) :
    ∃ c rest, lexeme = c :: rest ∧ (c = '.' ∨ c.isDigit = true) := by
  have hdigits : ∀ {digits later : List Char}, IsDigits digits →
      ∃ c rest, digits ++ later = c :: rest ∧ (c = '.' ∨ c.isDigit = true) := by
    intro digits later hd
    cases digits with
    | nil => exact absurd rfl hd.1
    | cons c digits => exact ⟨c, _, rfl, .inr (hd.2 c List.mem_cons_self)⟩
  cases h with
  | whole hd =>
    rw [← List.append_nil lexeme]
    exact hdigits hd
  | decimal hd => exact hdigits hd
  | fraction => exact ⟨_, _, rfl, .inl rfl⟩

/-- The longest number at a point that begins a fraction. -/
theorem longest_fraction {rest : List Char} (h : isFraction ('.' :: rest) = true) :
    Longest IsNumeral ('.' :: rest) ('.' :: rest.takeWhile Char.isDigit) where
  fits := by
    obtain ⟨d, later, he, hd⟩ := isFraction_iff.1 h
    obtain ⟨-, rfl⟩ := List.cons.inj he
    exact .fraction (.takeWhile hd later)
  begins := (List.prefix_cons_inj '.').2 (List.takeWhile_prefix _)
  longest other hother hb := by
    obtain ⟨digits, rfl, hd⟩ := hother.of_prefix_dot hb
    exact Nat.succ_le_succ (prefix_takeWhile hd.2 (List.cons_prefix_cons.1 hb).2).length_le

/-- The longest number at a digit is the one that is read. -/
theorem longest_number {c : Char} (hc : c.isDigit = true) (rest : List Char) :
    Longest IsNumeral (c :: rest) (c :: numberRest rest) := by
  have hdigits := IsDigits.takeWhile hc rest
  have hsplit : c :: rest = (c :: rest.takeWhile Char.isDigit) ++ rest.dropWhile Char.isDigit :=
    congrArg (c :: ·) (List.takeWhile_append_dropWhile).symm
  have hstop : ∀ d ∈ (rest.dropWhile Char.isDigit).head?, d.isDigit = false := by
    intro d hd
    have := List.head?_dropWhile_not Char.isDigit rest
    rw [hd] at this
    simpa using this
  rw [List.takeWhile_cons_of_pos hc] at hdigits
  rw [hsplit]
  unfold numberRest
  dsimp only
  generalize rest.takeWhile Char.isDigit = digits at hdigits
  generalize rest.dropWhile Char.isDigit = later at hstop
  by_cases hf : isFraction later = true
  · rw [if_pos hf]
    obtain ⟨d, later, rfl, hd⟩ := isFraction_iff.1 hf
    refine ⟨.decimal hdigits (.takeWhile hd later), ?_, fun other hother hb => ?_⟩
    · refine (List.prefix_append_right_inj (c :: digits)).2 ?_
      exact (List.prefix_cons_inj '.').2 (List.takeWhile_prefix _)
    · rcases hother.of_prefix_digits hb hdigits hstop with hb | ⟨fraction, rfl, hfraction, hb⟩
      · exact (hb.trans (List.prefix_append _ _)).length_le
      · have hle := prefix_takeWhile hfraction.2 (List.cons_prefix_cons.1 hb).2
        refine List.IsPrefix.length_le ((List.prefix_append_right_inj (c :: digits)).2 ?_)
        exact (List.prefix_cons_inj '.').2 hle
  · rw [if_neg hf]
    refine ⟨.whole hdigits, List.prefix_append _ _, fun other hother hb => ?_⟩
    rcases hother.of_prefix_digits hb hdigits hstop with hb | ⟨fraction, -, hfraction, hb⟩
    · exact hb.length_le
    · exact absurd (isFraction_iff_exists.2 ⟨fraction, hfraction, hb⟩) hf

/-- At a point that begins a fraction, the longest number is read unless another fraction begins
behind it. -/
theorem doubled_iff {rest : List Char} (h : isFraction ('.' :: rest) = true) :
    Doubled ('.' :: rest) ↔ numberRest rest ≠ rest.takeWhile Char.isDigit := by
  have hread : numberRest rest ≠ rest.takeWhile Char.isDigit ↔
      isFraction (rest.dropWhile Char.isDigit) = true := by
    unfold numberRest
    dsimp only
    split
    · rename_i hf
      exact iff_of_true (fun he => List.cons_ne_nil _ _ (List.append_right_eq_self.1 he)) hf
    · rename_i hf
      exact iff_of_false (fun hne => hne rfl) hf
  rw [hread]
  constructor
  · rintro ⟨digits, later, he, hd, hf⟩
    obtain ⟨-, rfl⟩ := List.cons.inj he
    rw [List.dropWhile_append_of_pos hd.2]
    obtain ⟨d, later, rfl, hd⟩ := isFraction_iff.1 hf
    exact hf
  · intro hf
    obtain ⟨d, later, he, hd⟩ := isFraction_iff.1 h
    obtain ⟨-, rfl⟩ := List.cons.inj he
    refine ⟨_, _, ?_, .takeWhile hd later, hf⟩
    exact congrArg ('.' :: ·) (List.takeWhile_append_dropWhile).symm

/-! ## What fits -/

/-- Characters that are tokens by themselves wherever a token begins. -/
def punctuation : List (Char × TokenKind) :=
  [('(', .openParen), (')', .closeParen), ('[', .openBracket), (']', .closeBracket),
    ('\x7b', .openBrace), (',', .comma), (':', .colon), ('-', .minus)]

/-- Characters that are tokens if no operator of the lexicon begins with them. -/
def signs : List (Char × TokenKind) :=
  [('=', .equal), ('<', .openAngle), ('>', .closeAngle)]

/-- Words. -/
abbrev IsWord : List Char → Prop := Headed beginsWord continuesWord

/-- Comments, which go on to the end of the line. -/
abbrev IsComment : List Char → Prop := Headed (· == '|') (· != '\n')

/-- Characters that begin a lexeme of their own kind, whatever stands behind them. -/
def reserved : List Char :=
  punctuation.map Prod.fst ++ ['\x7d', '|', '"', '\'', '\x60']

/-- A character with which no word or number begins, and that is not reserved. -/
structure IsSymbol (c : Char) : Prop where
  word : beginsWord c = false
  digit : c.isDigit = false
  dot : c ≠ '.'
  other : c ∉ reserved

theorem isSymbol_of_sign {c : Char} {kind : TokenKind} (h : (c, kind) ∈ signs) : IsSymbol c := by
  have hall : ∀ sign ∈ signs, beginsWord sign.1 = false ∧ sign.1.isDigit = false ∧ sign.1 ≠ '.' ∧
      sign.1 ∉ reserved := by decide
  obtain ⟨word, digit, dot, other⟩ := hall _ h
  exact ⟨word, digit, dot, other⟩

/-- What a stretch of string text gives, at the start of a string and behind an inserted
expression. -/
def StringStop.item (resumed : Bool) (text : String) (place : Location) : StringStop → ScanItem
  | .closed => .ok ⟨if resumed then .stringEnd text else .string text, place⟩
  | .opened => .ok ⟨if resumed then .stringMiddle text else .stringStart text, place⟩
  | .unterminated => .error (.unterminatedString place)

/-- The lexeme with which a text begins, behind other text and inside of interrupted strings, and
the token or error that it gives. -/
inductive Lexes (lexicon : Lexicon) (segments : List Segment) (before text : List Char) :
    List Char → ScanItem → Prop where
  | keyword {lexeme : List Char} {word : Keyword} : Longest IsWord text lexeme →
      Keyword.ofText? (String.ofList lexeme) = some word →
      Lexes lexicon segments before text lexeme (.ok ⟨.keyword word, .of before lexeme⟩)
  | wordOperator {lexeme : List Char} {op : BinOp} : Longest IsWord text lexeme →
      Keyword.ofText? (String.ofList lexeme) = none →
      lexicon.operator? (String.ofList lexeme) = some op →
      Lexes lexicon segments before text lexeme (.ok ⟨.operator op, .of before lexeme⟩)
  | identifier {lexeme : List Char} : Longest IsWord text lexeme →
      Keyword.ofText? (String.ofList lexeme) = none →
      lexicon.operator? (String.ofList lexeme) = none →
      Lexes lexicon segments before text lexeme
        (.ok ⟨.identifier (String.ofList lexeme), .of before lexeme⟩)
  | number {lexeme : List Char} : Longest IsNumeral text lexeme → lexeme.head? ≠ some '.' →
      Lexes lexicon segments before text lexeme
        (.ok ⟨.number (String.ofList lexeme), .of before lexeme⟩)
  /-- A zero is put before a leading point. -/
  | fraction {digits : List Char} : Longest IsNumeral text ('.' :: digits) →
      Lexes lexicon segments before text ('.' :: digits)
        (.ok ⟨.number (String.ofList ('0' :: '.' :: digits)), .of before ('.' :: digits)⟩)
  | dot {rest : List Char} : text = '.' :: rest →
      (∀ lexeme, IsNumeral lexeme → ¬ lexeme <+: text) →
      Lexes lexicon segments before text ['.'] (.ok ⟨.dot, .of before ['.']⟩)
  | punctuation {c : Char} {kind : TokenKind} {rest : List Char} : text = c :: rest →
      (c, kind) ∈ punctuation →
      Lexes lexicon segments before text [c] (.ok ⟨kind, .of before [c]⟩)
  | closeBrace {rest : List Char} : text = '\x7d' :: rest →
      (∀ quote, segments.head? ≠ some ⟨quote, 0⟩) →
      Lexes lexicon segments before text ['\x7d'] (.ok ⟨.closeBrace, .of before ['\x7d']⟩)
  | pair {c d : Char} {rest : List Char} {op : BinOp} : text = c :: d :: rest → IsSymbol c →
      lexicon.operator? (String.ofList [c, d]) = some op →
      Lexes lexicon segments before text [c, d] (.ok ⟨.operator op, .of before [c, d]⟩)
  | single {c : Char} {rest : List Char} {op : BinOp} : text = c :: rest → IsSymbol c →
      (∀ d ∈ rest.head?, lexicon.operator? (String.ofList [c, d]) = none) →
      lexicon.operator? (String.ofList [c]) = some op →
      Lexes lexicon segments before text [c] (.ok ⟨.operator op, .of before [c]⟩)
  | sign {c : Char} {kind : TokenKind} {rest : List Char} : text = c :: rest →
      (∀ d ∈ rest.head?, lexicon.operator? (String.ofList [c, d]) = none) →
      lexicon.operator? (String.ofList [c]) = none → (c, kind) ∈ signs →
      Lexes lexicon segments before text [c] (.ok ⟨kind, .of before [c]⟩)
  | unexpected {c : Char} {rest : List Char} : text = c :: rest → IsSymbol c →
      (∀ d ∈ rest.head?, lexicon.operator? (String.ofList [c, d]) = none) →
      lexicon.operator? (String.ofList [c]) = none → c ∉ signs.map Prod.fst →
      Lexes lexicon segments before text [c]
        (.error (.unexpectedCharacter c (.of before [c])))
  | comment {lexeme : List Char} : Longest IsComment text lexeme →
      Lexes lexicon segments before text lexeme (.ok ⟨.comment, .of before lexeme⟩)
  | string {quote : Char} {decoded : Bool} {chars body rest : List Char} {stop : StringStop} :
      text = quote :: chars → Scan.Quotes quote decoded →
      stop.Ends quote decoded chars body rest →
      Lexes lexicon segments before text (quote :: (body ++ stop.delimiter quote))
        (stop.item false (String.ofList (Text.meant decoded body))
          (.of before (quote :: (body ++ stop.delimiter quote))))
  | resumed {quote : Char} {chars body rest : List Char} {stop : StringStop} :
      text = '\x7d' :: chars → segments.head? = some ⟨quote, 0⟩ →
      stop.Ends quote true chars body rest →
      Lexes lexicon segments before text ('\x7d' :: (body ++ stop.delimiter quote))
        (stop.item true (String.ofList (Text.meant true body))
          (.of before ('\x7d' :: (body ++ stop.delimiter quote))))

namespace Scan

variable {s : Scan} {start head : Head} {c : Char}

/-! ## What is read -/

theorem token_other (h : c ∉ reserved) :
    s.token start head c =
      if c.isDigit || isFraction (c :: head.rest) then
        s.yield start (numberEnd head) (.number (numberText ((numberEnd head).textSince start)))
      else if c = '.' then s.yield start head .dot
      else if beginsWord c then
        s.yield start (head.advanceWhile continuesWord) (wordKind s.lexicon
          (String.ofList ((head.advanceWhile continuesWord).textSince start)))
      else s.symbol start head c := by
  unfold token
  split
  case h_14 => rfl
  all_goals exact absurd (by decide) h

theorem isFraction_cons_of_ne (h : c ≠ '.') (rest : List Char) :
    isFraction (c :: rest) = false := by
  refine Bool.eq_false_iff.2 fun hf => ?_
  obtain ⟨d, later, he, -⟩ := isFraction_iff.1 hf
  exact h (List.cons.inj he).1

theorem not_beginsWord_of_isDigit (h : c.isDigit = true) : beginsWord c = false := by
  have hlt : c.toNat < 0x41 := by
    unfold Char.isDigit at h
    simp only [Bool.and_eq_true, decide_eq_true_eq] at h
    exact Nat.lt_of_le_of_lt h.2 (by decide)
  have hletter : Text.isLetter c = false := if_pos hlt
  have hline : (c == '_') = false := by
    refine beq_eq_false_iff_ne.2 ?_
    rintro rfl
    revert h
    decide
  unfold beginsWord
  rw [hletter, hline]
  rfl

theorem not_mem_reserved (h : (c.isDigit || c == '.' || beginsWord c) = true) : c ∉ reserved := by
  intro hc
  have hall : reserved.all (fun d => !(d.isDigit || d == '.' || beginsWord d)) = true := rfl
  have hnot := List.all_eq_true.1 hall c hc
  rw [h] at hnot
  exact absurd hnot nofun

theorem token_number (h : (c.isDigit || isFraction (c :: head.rest)) = true) :
    s.token start head c =
      s.yield start (numberEnd head) (.number (numberText ((numberEnd head).textSince start))) := by
  rw [token_other (not_mem_reserved _), if_pos h]
  by_cases hc : c = '.'
  · rw [hc]
    rfl
  · rw [isFraction_cons_of_ne hc, Bool.or_false] at h
    rw [h]
    rfl

theorem token_dot (h : isFraction ('.' :: head.rest) = false) :
    s.token start head '.' = s.yield start head .dot := by
  rw [token_other (by decide), h, if_neg (by decide), if_pos rfl]

theorem token_word (h : beginsWord c = true) :
    s.token start head c = s.yield start (head.advanceWhile continuesWord) (wordKind s.lexicon
      (String.ofList ((head.advanceWhile continuesWord).textSince start))) := by
  have hdot : c ≠ '.' := by
    rintro rfl
    revert h
    decide
  have hdigit : c.isDigit = false := by
    refine Bool.eq_false_iff.2 fun hd => ?_
    exact absurd (h.symm.trans (not_beginsWord_of_isDigit hd)) nofun
  rw [token_other (not_mem_reserved (by rw [h, Bool.or_true])), hdigit, isFraction_cons_of_ne hdot,
    if_neg nofun, if_neg hdot, if_pos h]

theorem token_symbol (h : IsSymbol c) : s.token start head c = s.symbol start head c := by
  rw [token_other h.other, h.digit, isFraction_cons_of_ne h.dot, if_neg nofun, if_neg h.dot,
    h.word, if_neg nofun]

/-- What has been read is a lexeme that gives an item. -/
def Reads (r : ScanItem × Scan) (start : Head) (lexeme : List Char) (item : ScanItem) : Prop :=
  r.1 = item ∧ start.rest = lexeme ++ r.2.head.rest

section

variable {before lexeme rest : List Char} {item : ScanItem}

theorem reads_yield (hp : start.Passes head lexeme) (hb : start.Behind before) (s : Scan)
    (kind : TokenKind) :
    Reads (s.yield start head kind) start lexeme (.ok ⟨kind, .of before lexeme⟩) := by
  refine ⟨?_, hp.rest⟩
  rw [← hp.since_eq hb]
  rfl

/-- String text is read up to its end. -/
theorem reads_string {quote : Char} {decoded : Bool} {body : List Char} {stop : StringStop}
    (h : stop.Ends quote decoded head.rest body rest) (hquote : quote ≠ '\\')
    (hdollar : quote ≠ '$') (hp : start.Passes head [c]) (hb : start.Behind before) (s : Scan)
    (resumed : Bool) :
    Reads (s.string start head quote decoded resumed) start (c :: (body ++ stop.delimiter quote))
      (stop.item resumed (String.ofList (Text.meant decoded body))
        (.of before (c :: (body ++ stop.delimiter quote)))) := by
  have hread := s.string_read start head hquote decoded resumed
  revert hread
  generalize s.string start head quote decoded resumed = r
  intro hread
  cases hread with
  | closed ends passes text =>
    obtain ⟨rfl, rfl, -⟩ := h.unique ends hdollar
    subst text
    exact reads_yield (hp.trans passes) hb _ _
  | opened ends passes text =>
    obtain ⟨rfl, rfl, -⟩ := h.unique ends hdollar
    subst text
    exact reads_yield (hp.trans passes) hb _ _
  | unterminated ends passes =>
    obtain ⟨rfl, rfl, -⟩ := h.unique ends hdollar
    have hpasses := hp.trans passes
    rw [show body ++ StringStop.unterminated.delimiter quote = body from List.append_nil body]
    refine ⟨?_, hpasses.rest⟩
    rw [hpasses.since_eq hb]
    rfl

/-- Reading a number. -/
theorem reads_number (h : (c.isDigit || isFraction (c :: rest)) = true)
    (hr : start.rest = c :: rest) (hb : start.Behind before) (s : Scan) :
    Reads (s.token start start.advance c) start (c :: numberRest rest)
      (.ok ⟨.number (numberText (c :: numberRest rest)), .of before (c :: numberRest rest)⟩) := by
  obtain ⟨hadvance, hrest⟩ := Head.passes_advance hr
  have hp := hadvance.trans (passes_numberEnd start.advance)
  rw [hrest] at hp
  rw [← hrest] at h
  rw [token_number h, hp.textSince_eq]
  exact reads_yield hp hb s _

theorem symbol_pair {op : BinOp} {d : Char} (hr : head.rest = d :: rest)
    (h : s.lexicon.operator? (String.ofList [c, d]) = some op) :
    s.symbol start head c = s.yield start head.advance (.operator op) := by
  unfold symbol
  rw [hr, List.head?_cons, Option.bind_some, h]

section

variable (hpair : ∀ d ∈ head.rest.head?, s.lexicon.operator? (String.ofList [c, d]) = none)
include hpair

theorem symbol_single {op : BinOp} (h : s.lexicon.operator? (String.ofList [c]) = some op) :
    s.symbol start head c = s.yield start head (.operator op) := by
  unfold symbol
  rw [Option.bind_eq_none_iff.2 hpair, h]

theorem symbol_sign {kind : TokenKind} (h : s.lexicon.operator? (String.ofList [c]) = none)
    (hc : (c, kind) ∈ signs) : s.symbol start head c = s.yield start head kind := by
  unfold symbol
  rw [Option.bind_eq_none_iff.2 hpair, h]
  simp only [signs, List.mem_cons, Prod.mk.injEq, List.not_mem_nil, or_false] at hc
  rcases hc with ⟨rfl, rfl⟩ | ⟨rfl, rfl⟩ | ⟨rfl, rfl⟩ <;> rfl

theorem symbol_unexpected (h : s.lexicon.operator? (String.ofList [c]) = none)
    (hc : c ∉ signs.map Prod.fst) :
    s.symbol start head c =
      (.error (.unexpectedCharacter c (head.since start)), { s with head := head }) := by
  unfold symbol
  rw [Option.bind_eq_none_iff.2 hpair, h]
  dsimp only
  split
  iterate 3 · exact absurd (by decide) hc
  rfl

end

theorem token_punctuation (s : Scan) (start head : Head) {kind : TokenKind}
    (h : (c, kind) ∈ punctuation) :
    ∃ segments, s.token start head c = { s with segments }.yield start head kind := by
  simp only [punctuation, List.mem_cons, Prod.mk.injEq, List.not_mem_nil, or_false] at h
  rcases h with ⟨rfl, rfl⟩ | ⟨rfl, rfl⟩ | ⟨rfl, rfl⟩ | ⟨rfl, rfl⟩ | ⟨rfl, rfl⟩ | ⟨rfl, rfl⟩ |
    ⟨rfl, rfl⟩ | ⟨rfl, rfl⟩ <;> exact ⟨_, rfl⟩

/-- A closing brace that ends no inserted expression. -/
theorem token_closeBrace (start head : Head) (h : ∀ quote, s.segments.head? ≠ some ⟨quote, 0⟩) :
    ∃ segments, s.token start head '\x7d' = { s with segments }.yield start head .closeBrace := by
  unfold token
  cases hs : s.segments with
  | nil => exact ⟨_, rfl⟩
  | cons inner outer =>
    obtain ⟨quote, depth⟩ := inner
    rw [hs] at h
    cases depth with
    | zero => exact absurd rfl (h quote)
    | succ depth => exact ⟨_, rfl⟩

theorem token_resumed (start head : Head) {quote : Char}
    (h : s.segments.head? = some ⟨quote, 0⟩) :
    ∃ segments, s.token start head '\x7d' =
      { s with segments }.string start head quote true true := by
  obtain ⟨outer, hs⟩ := List.head?_eq_some_iff.1 h
  unfold token
  rw [hs]
  exact ⟨_, rfl⟩

theorem token_quotes {quote : Char} {decoded : Bool} (h : Quotes quote decoded) :
    s.token start head quote = s.string start head quote decoded false := by
  cases h <;> rfl

/-- Reading a word. -/
theorem reads_word (h : beginsWord c = true) (hr : start.rest = c :: rest)
    (hb : start.Behind before) (hl : Longest IsWord start.rest lexeme) :
    Reads (s.token start start.advance c) start lexeme
      (.ok ⟨wordKind s.lexicon (String.ofList lexeme), .of before lexeme⟩) := by
  obtain ⟨hadvance, hrest⟩ := Head.passes_advance hr
  have hp := hadvance.trans (start.advance.passes_advanceWhile continuesWord).1
  rw [hrest] at hp
  rw [hr] at hl
  obtain rfl := hl.unique (longest_headed h rest)
  rw [token_word h, hp.textSince_eq]
  exact reads_yield hp hb s _

/-- Reading a number that begins with a digit. -/
theorem reads_numeral (hr : start.rest = c :: rest) (hb : start.Behind before)
    (hl : Longest IsNumeral start.rest lexeme) (hpoint : lexeme.head? ≠ some '.') (s : Scan) :
    Reads (s.token start start.advance c) start lexeme
      (.ok ⟨.number (String.ofList lexeme), .of before lexeme⟩) := by
  obtain ⟨d, later, rfl, hdigit⟩ := hl.fits.exists_cons
  rw [hr] at hl
  obtain ⟨rfl, -⟩ := List.cons_prefix_cons.1 hl.begins
  have hdigit := hdigit.resolve_left fun he => hpoint (congrArg some he)
  have hreads := reads_number (by rw [hdigit]; rfl) hr hb s
  rw [(longest_number hdigit rest).unique hl] at hreads
  unfold numberText at hreads
  rwa [if_neg hpoint] at hreads

/-- Reading a fraction behind which no other one begins. -/
theorem reads_fraction {digits : List Char} (hr : start.rest = c :: rest)
    (hb : start.Behind before) (hl : Longest IsNumeral start.rest ('.' :: digits))
    (hd : ¬ Doubled start.rest) (s : Scan) :
    Reads (s.token start start.advance c) start ('.' :: digits)
      (.ok ⟨.number (String.ofList ('0' :: '.' :: digits)), .of before ('.' :: digits)⟩) := by
  rw [hr] at hl hd
  obtain ⟨rfl, -⟩ := List.cons_prefix_cons.1 hl.begins
  obtain ⟨digits, he, hdigits⟩ := hl.fits.of_prefix_dot hl.begins
  have hf : isFraction ('.' :: rest) = true :=
    isFraction_iff_exists.2 ⟨digits, hdigits, he ▸ hl.begins⟩
  have hreads := reads_number (by rw [hf, Bool.or_true]) hr hb s
  rwa [not_not.1 (mt (doubled_iff hf).2 hd), (longest_fraction hf).unique hl] at hreads

/-- Reading a comment. -/
theorem reads_comment (hr : start.rest = c :: rest) (hb : start.Behind before)
    (hl : Longest IsComment start.rest lexeme) (s : Scan) :
    Reads (s.token start start.advance c) start lexeme (.ok ⟨.comment, .of before lexeme⟩) := by
  obtain ⟨hadvance, hrest⟩ := Head.passes_advance hr
  obtain ⟨d, later, rfl, hbar, -⟩ := hl.fits
  rw [hr] at hl
  obtain ⟨rfl, -⟩ := List.cons_prefix_cons.1 hl.begins
  obtain rfl := eq_of_beq hbar
  have hp := hadvance.trans (start.advance.passes_advanceWhile (· != '\n')).1
  have hlong : Longest IsComment ('|' :: rest) _ := longest_headed rfl rest
  rw [hrest] at hp
  obtain ⟨-, rfl⟩ := List.cons.inj (hlong.unique hl)
  exact reads_yield hp hb s _

/-- The lexeme that fits is read, unless it is a fraction behind which another one begins. -/
theorem reads_of_lexes (h : Lexes s.lexicon s.segments before start.rest lexeme item)
    (hr : start.rest = c :: rest) (hb : start.Behind before) (hd : ¬ Doubled start.rest)
    (hq : Quoted s.segments) : Reads (s.token start start.advance c) start lexeme item := by
  obtain ⟨hadvance, hrest⟩ := Head.passes_advance hr
  have hword : ∀ {lexeme : List Char}, Longest IsWord start.rest lexeme → beginsWord c = true := by
    intro lexeme hl
    obtain ⟨d, later, rfl, hd, -⟩ := hl.fits
    have hbegins := hl.begins
    rw [hr] at hbegins
    exact (List.cons_prefix_cons.1 hbegins).1 ▸ hd
  have hfirst : ∀ {d : Char} {later : List Char}, start.rest = d :: later → c = d ∧ rest = later :=
    fun he => List.cons.inj (hr.symm.trans he)
  cases h with
  | keyword hl hkey =>
    have hreads := reads_word (s := s) (hword hl) hr hb hl
    unfold wordKind at hreads
    rwa [hkey] at hreads
  | wordOperator hl hkey hop =>
    have hreads := reads_word (s := s) (hword hl) hr hb hl
    unfold wordKind at hreads
    rwa [hkey, hop] at hreads
  | identifier hl hkey hop =>
    have hreads := reads_word (s := s) (hword hl) hr hb hl
    unfold wordKind at hreads
    rwa [hkey, hop] at hreads
  | number hl hpoint => exact reads_numeral hr hb hl hpoint s
  | fraction hl => exact reads_fraction hr hb hl hd s
  | dot he hnone =>
    obtain ⟨rfl, rfl⟩ := hfirst he
    have hf : isFraction ('.' :: start.advance.rest) = false := by
      rw [hrest, ← hr]
      refine Bool.eq_false_iff.2 fun hf => ?_
      obtain ⟨digits, hdigits, hb⟩ := isFraction_iff_exists.1 hf
      exact hnone _ (.fraction hdigits) hb
    rw [token_dot hf]
    exact reads_yield hadvance hb s _
  | punctuation he hc =>
    obtain ⟨rfl, rfl⟩ := hfirst he
    obtain ⟨segments, htoken⟩ := s.token_punctuation start start.advance hc
    rw [htoken]
    exact reads_yield hadvance hb _ _
  | closeBrace he hdepth =>
    obtain ⟨rfl, rfl⟩ := hfirst he
    obtain ⟨segments, htoken⟩ := token_closeBrace start start.advance hdepth
    rw [htoken]
    exact reads_yield hadvance hb _ _
  | pair he hsymbol hop =>
    obtain ⟨rfl, rfl⟩ := hfirst he
    rw [token_symbol hsymbol, symbol_pair hrest hop]
    exact reads_yield (hadvance.trans (Head.passes_advance hrest).1) hb s _
  | single he hsymbol hpair hop =>
    obtain ⟨rfl, rfl⟩ := hfirst he
    rw [← hrest] at hpair
    rw [token_symbol hsymbol, symbol_single hpair hop]
    exact reads_yield hadvance hb s _
  | sign he hpair hnone hsign =>
    obtain ⟨rfl, rfl⟩ := hfirst he
    rw [← hrest] at hpair
    rw [token_symbol (isSymbol_of_sign hsign), symbol_sign hpair hnone hsign]
    exact reads_yield hadvance hb s _
  | unexpected he hsymbol hpair hnone hsign =>
    obtain ⟨rfl, rfl⟩ := hfirst he
    rw [← hrest] at hpair
    rw [token_symbol hsymbol, symbol_unexpected hpair hnone hsign]
    refine ⟨?_, hadvance.rest⟩
    rw [hadvance.since_eq hb]
  | comment hl => exact reads_comment hr hb hl s
  | string he hquotes hends =>
    obtain ⟨rfl, rfl⟩ := hfirst he
    rw [← hrest] at hends
    rw [token_quotes hquotes]
    exact reads_string hends hquotes.ne_backslash hquotes.ne_dollar hadvance hb s false
  | resumed he hsegment hends =>
    obtain ⟨rfl, rfl⟩ := hfirst he
    rw [← hrest] at hends
    obtain ⟨segments, htoken⟩ := token_resumed start start.advance hsegment
    have hquotes := hq _ (List.mem_of_mem_head? hsegment)
    rw [htoken]
    exact reads_string hends hquotes.ne_backslash hquotes.ne_dollar hadvance hb _ true

end

end Scan

/-! ## There is one lexeme -/

section

variable {lexicon : Lexicon} {segments : List Segment} {before rest : List Char} {c : Char}

/-- String text ends in some way. -/
theorem exists_ends {quote : Char} (hq : quote ≠ '\\') (decoded : Bool) (chars : List Char) :
    ∃ stop body rest, StringStop.Ends stop quote decoded chars body rest := by
  obtain ⟨body, hr⟩ := reads_readString quote decoded [] [] 0 .start chars hq
  exact ⟨_, _, _, hr.ends⟩

theorem exists_lexes_word (h : beginsWord c = true) :
    ∃ lexeme item, Lexes lexicon segments before (c :: rest) lexeme item := by
  have hl : Longest IsWord (c :: rest) _ := longest_headed h rest
  generalize c :: rest.takeWhile continuesWord = lexeme at hl
  cases hkey : Keyword.ofText? (String.ofList lexeme) with
  | some word => exact ⟨_, _, .keyword hl hkey⟩
  | none =>
    cases hop : lexicon.operator? (String.ofList lexeme) with
    | some op => exact ⟨_, _, .wordOperator hl hkey hop⟩
    | none => exact ⟨_, _, .identifier hl hkey hop⟩

theorem exists_lexes_dot :
    ∃ lexeme item, Lexes lexicon segments before ('.' :: rest) lexeme item := by
  by_cases hf : isFraction ('.' :: rest) = true
  · exact ⟨_, _, .fraction (longest_fraction hf)⟩
  · refine ⟨_, _, .dot rfl fun lexeme hl hb => hf ?_⟩
    obtain ⟨digits, rfl, hd⟩ := hl.of_prefix_dot hb
    exact isFraction_iff_exists.2 ⟨digits, hd, hb⟩

theorem exists_lexes_quote {quote : Char} {decoded : Bool} (h : Scan.Quotes quote decoded) :
    ∃ lexeme item, Lexes lexicon segments before (quote :: rest) lexeme item := by
  obtain ⟨stop, body, later, hends⟩ := exists_ends h.ne_backslash decoded rest
  exact ⟨_, _, .string rfl h hends⟩

theorem exists_lexes_brace (hq : Scan.Quoted segments) :
    ∃ lexeme item, Lexes lexicon segments before ('\x7d' :: rest) lexeme item := by
  by_cases hresumed : ∃ quote, segments.head? = some ⟨quote, 0⟩
  · obtain ⟨quote, hsegment⟩ := hresumed
    have hquotes := hq _ (List.mem_of_mem_head? hsegment)
    obtain ⟨stop, body, later, hends⟩ := exists_ends hquotes.ne_backslash true rest
    exact ⟨_, _, .resumed rfl hsegment hends⟩
  · exact ⟨_, _, .closeBrace rfl fun quote he => hresumed ⟨quote, he⟩⟩

theorem exists_lexes_symbol (h : IsSymbol c) :
    ∃ lexeme item, Lexes lexicon segments before (c :: rest) lexeme item := by
  by_cases hpair : ∀ d ∈ rest.head?, lexicon.operator? (String.ofList [c, d]) = none
  · cases hop : lexicon.operator? (String.ofList [c]) with
    | some op => exact ⟨_, _, .single rfl h hpair hop⟩
    | none =>
      by_cases hsign : c ∈ signs.map Prod.fst
      · obtain ⟨⟨d, kind⟩, hmem, rfl⟩ := List.mem_map.1 hsign
        exact ⟨_, _, .sign rfl hpair hop hmem⟩
      · exact ⟨_, _, .unexpected rfl h hpair hop hsign⟩
  · obtain ⟨d, hd⟩ := not_forall.1 hpair
    obtain ⟨hd, hop⟩ := Classical.not_imp.1 hd
    obtain ⟨later, rfl⟩ := List.head?_eq_some_iff.1 hd
    obtain ⟨op, hop⟩ := Option.ne_none_iff_exists'.1 hop
    exact ⟨_, _, .pair rfl h hop⟩

/-- Where a text goes on, some lexeme fits. -/
theorem exists_lexes (hq : Scan.Quoted segments) :
    ∃ lexeme item, Lexes lexicon segments before (c :: rest) lexeme item := by
  by_cases hword : beginsWord c = true
  · exact exists_lexes_word hword
  by_cases hdigit : c.isDigit = true
  · refine ⟨_, _, .number (longest_number hdigit rest) fun he => ?_⟩
    rw [Option.some.inj he] at hdigit
    revert hdigit
    decide
  by_cases hdot : c = '.'
  · exact hdot ▸ exists_lexes_dot
  by_cases hreserved : c ∈ reserved
  · rcases List.mem_append.1 hreserved with hc | hc
    · obtain ⟨⟨d, kind⟩, hmem, rfl⟩ := List.mem_map.1 hc
      exact ⟨_, _, .punctuation rfl hmem⟩
    · simp only [List.mem_cons, List.not_mem_nil, or_false] at hc
      rcases hc with rfl | rfl | rfl | rfl | rfl
      · exact exists_lexes_brace hq
      · exact ⟨_, _, .comment (longest_headed rfl rest)⟩
      · exact exists_lexes_quote .double
      · exact exists_lexes_quote .single
      · exact exists_lexes_quote .raw
  · exact exists_lexes_symbol
      ⟨Bool.eq_false_iff.2 hword, Bool.eq_false_iff.2 hdigit, hdot, hreserved⟩

/-- At a point that begins a fraction, no lexeme but that fraction fits. -/
theorem Lexes.eq_fraction {lexeme : List Char} {item : ScanItem}
    (h : Lexes lexicon segments before ('.' :: rest) lexeme item)
    (hf : isFraction ('.' :: rest) = true) :
    lexeme = '.' :: rest.takeWhile Char.isDigit ∧
      item = .ok ⟨.number (String.ofList ('0' :: lexeme)), .of before lexeme⟩ := by
  have hword : ∀ {lexeme : List Char}, ¬ Longest IsWord ('.' :: rest) lexeme := by
    intro lexeme hl
    obtain ⟨d, later, rfl, hd, -⟩ := hl.fits
    obtain ⟨rfl, -⟩ := List.cons_prefix_cons.1 hl.begins
    revert hd
    decide
  have hsymbol : ∀ {c : Char} {later : List Char}, '.' :: rest = c :: later → ¬ IsSymbol c :=
    fun he hc => hc.dot (List.cons.inj he).1.symm
  cases h with
  | keyword hl => exact absurd hl hword
  | wordOperator hl => exact absurd hl hword
  | identifier hl => exact absurd hl hword
  | number hl hpoint =>
    rw [hl.unique (longest_fraction hf)] at hpoint
    exact absurd rfl hpoint
  | fraction hl => exact ⟨hl.unique (longest_fraction hf), rfl⟩
  | dot _ hnone =>
    have hl := longest_fraction hf
    exact absurd hl.begins (hnone _ hl.fits)
  | punctuation he hc =>
    obtain ⟨rfl, -⟩ := List.cons.inj he
    have hmem : '.' ∈ Juxta.punctuation.map Prod.fst := List.mem_map_of_mem hc
    exact absurd hmem (by decide)
  | closeBrace he => exact absurd (List.cons.inj he).1 (by decide)
  | pair he hc => exact absurd hc (hsymbol he)
  | single he hc => exact absurd hc (hsymbol he)
  | sign he _ _ hc => exact absurd (isSymbol_of_sign hc) (hsymbol he)
  | unexpected he hc => exact absurd hc (hsymbol he)
  | comment hl =>
    obtain ⟨d, later, rfl, hd, -⟩ := hl.fits
    obtain ⟨rfl, -⟩ := List.cons_prefix_cons.1 hl.begins
    exact absurd hd (by decide)
  | string he hquotes =>
    obtain ⟨rfl, -⟩ := List.cons.inj he
    cases hquotes
  | resumed he => exact absurd (List.cons.inj he).1 (by decide)

/-- One lexeme fits, as one item. -/
theorem Lexes.unique {text lexeme lexeme' : List Char} {item item' : ScanItem}
    (h : Lexes lexicon segments before text lexeme item)
    (h' : Lexes lexicon segments before text lexeme' item') (hr : text = c :: rest)
    (hq : Scan.Quoted segments) : lexeme = lexeme' ∧ item = item' := by
  by_cases hd : Doubled text
  · obtain ⟨digits, later, he, hdigits, -⟩ := hd
    subst he
    have hf : isFraction ('.' :: (digits ++ later)) = true :=
      isFraction_iff_exists.2 ⟨digits, hdigits, List.prefix_append ('.' :: digits) later⟩
    obtain ⟨rfl, rfl⟩ := h.eq_fraction hf
    obtain ⟨rfl, rfl⟩ := h'.eq_fraction hf
    exact ⟨rfl, rfl⟩
  · let s : Scan := { Scan.empty lexicon with segments }
    let start : Head := ⟨text, Text.bytes before, .behind before⟩
    have hreads : ∀ {lexeme : List Char} {item : ScanItem},
        Lexes lexicon segments before text lexeme item →
        Scan.Reads (s.token start start.advance c) start lexeme item :=
      fun hl => Scan.reads_of_lexes hl hr ⟨rfl, rfl⟩ hd hq
    obtain ⟨hi, hl⟩ := hreads h
    obtain ⟨hi', hl'⟩ := hreads h'
    exact ⟨List.append_cancel_right (hl.symm.trans hl'), hi.symm.trans hi'⟩

end

namespace Scan

variable {lexicon : Lexicon} {text : List Char} {items : List ScanItem} {s : Scan}

/-- A fraction behind which another one begins is not read as it fits. -/
theorem not_reads_of_doubled {start : Head} {before lexeme : List Char} {item : ScanItem}
    {c : Char} {rest : List Char} (hr : start.rest = c :: rest) (hb : start.Behind before)
    (hd : Doubled (c :: rest)) (h : Lexes s.lexicon s.segments before (c :: rest) lexeme item) :
    (s.token start start.advance c).1 ≠ item := by
  obtain ⟨digits, later, he, hdigits, hlater⟩ := hd
  obtain ⟨rfl, rfl⟩ := List.cons.inj he
  have hf : isFraction ('.' :: (digits ++ later)) = true :=
    isFraction_iff_exists.2 ⟨digits, hdigits, List.prefix_append ('.' :: digits) later⟩
  obtain ⟨rfl, rfl⟩ := h.eq_fraction hf
  have hne := (doubled_iff hf).1 ⟨digits, later, rfl, hdigits, hlater⟩
  rw [(reads_number (by rw [hf, Bool.or_true]) hr hb s).1]
  intro hsame
  injection hsame with htoken
  injection htoken with hkind
  injection hkind with hpayload
  have hlexeme := List.cons.inj (List.cons.inj (String.ofList_injective hpayload)).2
  exact hne hlexeme.2

/-- Where a token begins in a complete text, one lexeme fits, as one token or error. It is the one
that is read, unless it is a fraction behind which another one begins. -/
theorem next_lexes_iff (h : Run lexicon text items s) (hc : s.closed = true) (hp : s.pending = [])
    (hf : s.finished = false) (hr : s.skipBlanks.head.rest ≠ []) :
    ∃ before lexeme item, text = before ++ s.skipBlanks.head.rest ∧
      Lexes lexicon s.segments before s.skipBlanks.head.rest lexeme item ∧
      (∀ lexeme' item', Lexes lexicon s.segments before s.skipBlanks.head.rest lexeme' item' →
        lexeme' = lexeme ∧ item' = item) ∧
      (s.next.1 = some item ∧ s.skipBlanks.head.rest = lexeme ++ s.next.2.head.rest ↔
        ¬ Doubled s.skipBlanks.head.rest) := by
  obtain ⟨before, hs⟩ := h.standing
  obtain ⟨gap, -, hs⟩ := hs.skipBlanks
  obtain ⟨c, rest, hrest⟩ := List.exists_cons_of_ne_nil hr
  obtain ⟨lexeme, item, hl⟩ : ∃ lexeme item,
      Lexes lexicon s.segments (before ++ gap) (c :: rest) lexeme item := exists_lexes hs.quoted
  rw [← hrest] at hl
  refine ⟨_, lexeme, item, hs.split, hl, fun lexeme' item' hl' => hl'.unique hl hrest hs.quoted, ?_⟩
  rw [← hs.lexicon] at hl
  rw [next_of_closed hp hf hc hrest]
  constructor
  · rintro ⟨hi, -⟩ hd
    rw [hrest] at hl hd
    exact not_reads_of_doubled hrest hs.behind hd hl (Option.some.inj hi)
  · intro hd
    obtain ⟨hi, hsplit⟩ := reads_of_lexes hl hrest hs.behind hd hs.quoted
    exact ⟨congrArg some hi, hsplit⟩

/-- Behind a number two points are points. -/
theorem next_lexes_points :
    (ofText .standard "1..2").next.1 = some (.ok ⟨.number "1", .of [] ['1']⟩) := by
  obtain ⟨before, lexeme, item, hsplit, -, hunique, hiff⟩ :=
    next_lexes_iff (run_ofText .standard "1..2") rfl rfl rfl (by decide)
  obtain rfl : before = [] := List.self_eq_append_left.1 hsplit
  obtain ⟨rfl, rfl⟩ := hunique _ _ (.number (longest_number rfl ['.', '.', '2']) (by decide))
  refine (hiff.2 ?_).1
  rintro ⟨digits, rest, he, -⟩
  exact absurd (List.cons.inj he).1 (by decide)

/-- Behind the point of a fraction a second one is read with it, although the first one alone is the
longest number. -/
theorem next_ne_lexes :
    Lexes .standard [] [] ".5.5".toList ".5".toList (.ok ⟨.number "0.5", .of [] ".5".toList⟩) ∧
      (ofText .standard ".5.5").next.1 ≠ some (.ok ⟨.number "0.5", .of [] ".5".toList⟩) :=
  ⟨.fraction (longest_fraction rfl), by decide⟩

end Scan

end Juxta
