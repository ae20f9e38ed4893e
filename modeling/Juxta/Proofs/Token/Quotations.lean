import Juxta.Proofs.Token.Places

/-!
# String text

A stretch of string text ends at the first closing quote or inserted expression outside escapes.
Raw text has neither escapes nor expressions.

* `Text.escapes`, `Text.unescaped` : what the characters behind a backslash stand for;
* `Text.Unbroken` : text at whose end no backslash waits for its character;
* `Text.Delimits` : where a closing quote or an inserted expression begins;
* `StringStop.Ends` : how and where a stretch ends; there is one way (`StringStop.Ends.unique`);
* `reads_readString` : what is read is that stretch, and what it stands for.
-/

namespace Juxta

namespace Text

/-! ## Escapes -/

/-- The characters that may stand behind a backslash, and what they stand for there. -/
def escapes : List (Char × Char) :=
  [('n', '\n'), ('t', '\t'), ('r', '\r'), ('\\', '\\'), ('"', '"'), ('\'', '\''), ('$', '$')]

/-- What string text stands for: behind a backslash a character stands for another one, or for
itself. -/
def unescaped : List Char → List Char
  | '\\' :: c :: rest => (escapes.lookup c).getD c :: unescaped rest
  | c :: rest => c :: unescaped rest
  | [] => []

/-- The text that string text stands for, if it has escapes, and if it has none. -/
def meant (decoded : Bool) (body : List Char) : List Char :=
  if decoded then unescaped body else body

theorem meant_escape (c : Char) (body : List Char) :
    meant true ('\\' :: c :: body) = (escapes.lookup c).getD c :: meant true body := rfl

theorem meant_plain {decoded : Bool} {c : Char} (hc : decoded = true → c ≠ '\\')
    (body : List Char) : meant decoded (c :: body) = c :: meant decoded body := by
  cases decoded with
  | false => rfl
  | true =>
    unfold meant
    rw [if_pos rfl, if_pos rfl]
    exact unescaped.eq_2 c body fun _ _ he _ => hc rfl he

theorem getD_escaped? (c : Char) : (escaped? c).getD c = (escapes.lookup c).getD c := by
  unfold escaped?
  split
  · rfl
  · rfl
  · rfl
  · rename_i hn ht hr
    have hplain : escapes.lookup c =
        [('\\', '\\'), ('"', '"'), ('\'', '\''), ('$', '$')].lookup c := by
      simp only [escapes, List.lookup_cons, beq_eq_false_iff_ne.2 hn, beq_eq_false_iff_ne.2 ht,
        beq_eq_false_iff_ne.2 hr]
    rw [hplain]
    split
    · rename_i hc
      simp only [Bool.or_eq_true, decide_eq_true_eq] at hc
      rcases hc with ((rfl | rfl) | rfl) | rfl <;> rfl
    · rename_i hc
      simp only [Bool.or_eq_true, decide_eq_true_eq, not_or] at hc
      obtain ⟨⟨⟨h₁, h₂⟩, h₃⟩, h₄⟩ := hc
      simp only [List.lookup_cons, List.lookup_nil, beq_eq_false_iff_ne.2 h₁,
        beq_eq_false_iff_ne.2 h₂, beq_eq_false_iff_ne.2 h₃, beq_eq_false_iff_ne.2 h₄]

/-- Text in which every backslash has the character behind it. -/
inductive Unbroken : List Char → Prop where
  | nil : Unbroken []
  | escape {c : Char} {rest : List Char} : Unbroken rest → Unbroken ('\\' :: c :: rest)
  | plain {c : Char} {rest : List Char} : c ≠ '\\' → Unbroken rest → Unbroken (c :: rest)

theorem not_unbroken_backslash : ¬ Unbroken ['\\'] := by
  intro h
  cases h with
  | plain hc => exact hc rfl

theorem Unbroken.of_escape {c : Char} {rest : List Char} (h : Unbroken ('\\' :: c :: rest)) :
    Unbroken rest := by
  cases h with
  | escape h => exact h
  | plain hc => exact absurd rfl hc

theorem Unbroken.of_plain {c : Char} {rest : List Char} (hc : c ≠ '\\')
    (h : Unbroken (c :: rest)) : Unbroken rest := by
  cases h with
  | escape => exact absurd rfl hc
  | plain _ h => exact h

/-- The end of a text is not inside an escape, if there are escapes at all. -/
def Outside (decoded : Bool) (before : List Char) : Prop := decoded = true → Unbroken before

/-- A text begins with the closing quote, or with an inserted expression where there are such. -/
def Delimits (quote : Char) (decoded : Bool) (rest : List Char) : Prop :=
  rest.head? = some quote ∨ decoded = true ∧ ['$', '\x7b'] <+: rest

theorem Delimits.append {quote : Char} {decoded : Bool} {rest : List Char}
    (h : Delimits quote decoded rest) (later : List Char) :
    Delimits quote decoded (rest ++ later) := by
  rcases h with h | ⟨hd, h⟩
  · refine .inl ?_
    rw [List.head?_append, h]
    rfl
  · exact .inr ⟨hd, h.trans (List.prefix_append rest later)⟩

theorem not_delimits_backslash {quote : Char} (hq : quote ≠ '\\') (decoded : Bool)
    (rest : List Char) : ¬ Delimits quote decoded ('\\' :: rest) := by
  rintro (h | ⟨-, h⟩)
  · exact hq (Option.some.inj h).symm
  · have hdollar := (List.cons_prefix_cons.1 h).1
    revert hdollar
    decide

end Text

open Text

/-! ## Where string text ends -/

namespace StringStop

/-- The characters that end a stretch. -/
def delimiter (quote : Char) : StringStop → List Char
  | .closed => [quote]
  | .opened => ['$', '\x7b']
  | .unterminated => []

/-- String text ends behind `body`, at the first delimiter outside escapes, or it does not end. -/
structure Ends (stop : StringStop) (quote : Char) (decoded : Bool) (chars body rest : List Char) :
    Prop where
  split : chars = body ++ (stop.delimiter quote ++ rest)
  outside : stop ≠ .unterminated → Outside decoded body
  first : ∀ before after, body = before ++ after → after ≠ [] → Outside decoded before →
    ¬ Delimits quote decoded (after ++ (stop.delimiter quote ++ rest))
  decoded : stop = .opened → decoded = true
  exhausted : stop = .unterminated → rest = []

section

variable {stop stop' : StringStop} {quote : Char} {decoded : Bool}
  {chars body body' rest rest' : List Char}

theorem Ends.delimits (h : stop.Ends quote decoded chars body rest) (hs : stop ≠ .unterminated) :
    Delimits quote decoded (stop.delimiter quote ++ rest) := by
  cases stop with
  | closed => exact .inl rfl
  | opened => exact .inr ⟨h.decoded rfl, List.prefix_append _ _⟩
  | unterminated => exact absurd rfl hs

/-- A delimiter ends the text at once. -/
theorem ends_nil (hs : stop ≠ .unterminated) (hd : stop = .opened → decoded = true) :
    stop.Ends quote decoded (stop.delimiter quote ++ rest) [] rest where
  split := rfl
  outside _ _ := .nil
  first before after hb hne := by
    obtain ⟨-, rfl⟩ := List.append_eq_nil_iff.1 hb.symm
    exact absurd rfl hne
  decoded := hd
  exhausted he := absurd he hs

theorem ends_quote : StringStop.closed.Ends quote decoded (quote :: rest) [] rest :=
  ends_nil nofun nofun

theorem ends_insertion : StringStop.opened.Ends quote true ('$' :: '\x7b' :: rest) [] rest :=
  ends_nil nofun fun _ => rfl

theorem ends_exhausted : StringStop.unterminated.Ends quote decoded [] [] [] where
  split := rfl
  outside h := absurd rfl h
  first before after hb hne := by
    obtain ⟨-, rfl⟩ := List.append_eq_nil_iff.1 hb.symm
    exact absurd rfl hne
  decoded := nofun
  exhausted _ := rfl

theorem ends_backslash (hq : quote ≠ '\\') :
    StringStop.unterminated.Ends quote decoded ['\\'] ['\\'] [] where
  split := rfl
  outside h := absurd rfl h
  first before after hb hne _ := by
    cases before with
    | nil =>
      cases hb
      exact not_delimits_backslash hq decoded []
    | cons c before =>
      obtain ⟨-, hb⟩ := List.cons.inj hb
      obtain ⟨-, rfl⟩ := List.append_eq_nil_iff.1 hb.symm
      exact absurd rfl hne
  decoded := nofun
  exhausted _ := rfl

theorem Ends.plain {c : Char} (h : stop.Ends quote decoded chars body rest)
    (hc : decoded = true → c ≠ '\\') (hd : ¬ Delimits quote decoded (c :: chars)) :
    stop.Ends quote decoded (c :: chars) (c :: body) rest where
  split := congrArg (c :: ·) h.split
  outside hs hdec := .plain (hc hdec) (h.outside hs hdec)
  first before after hb hne ho := by
    cases before with
    | nil =>
      cases hb
      rw [List.cons_append, ← h.split]
      exact hd
    | cons d before =>
      obtain ⟨rfl, hrest⟩ := List.cons.inj hb
      exact h.first before after hrest hne fun hdec => (ho hdec).of_plain (hc hdec)
  decoded := h.decoded
  exhausted := h.exhausted

theorem Ends.escape {c : Char} (h : stop.Ends quote true chars body rest) (hq : quote ≠ '\\') :
    stop.Ends quote true ('\\' :: c :: chars) ('\\' :: c :: body) rest where
  split := congrArg ('\\' :: c :: ·) h.split
  outside hs hdec := .escape (h.outside hs hdec)
  first before after hb hne ho := by
    match before with
    | [] =>
      cases hb
      exact not_delimits_backslash hq true _
    | [d] =>
      obtain ⟨rfl, -⟩ := List.cons.inj hb
      exact absurd (ho rfl) not_unbroken_backslash
    | d :: e :: before =>
      obtain ⟨hd, htail⟩ := List.cons.inj hb
      obtain ⟨he, hrest⟩ := List.cons.inj htail
      rw [← hd, ← he] at ho
      exact h.first before after hrest hne fun _ => (ho rfl).of_escape
  decoded := h.decoded
  exhausted := h.exhausted

/-- Nothing is left of a stretch behind the end of another one. -/
theorem Ends.eq_nil_of_append {after : List Char} (h : stop.Ends quote decoded chars body rest)
    (h' : stop'.Ends quote decoded chars (body ++ after) rest') : after = [] := by
  by_contra hne
  have hsame : body ++ (after ++ (stop'.delimiter quote ++ rest')) =
      body ++ (stop.delimiter quote ++ rest) := by
    rw [← List.append_assoc, ← h'.split, ← h.split]
  have hrest := List.append_cancel_left hsame
  by_cases hs : stop = .unterminated
  · have hnil : stop.delimiter quote ++ rest = [] := by
      rw [h.exhausted hs, hs]
      rfl
    rw [hnil] at hrest
    exact hne (List.append_eq_nil_iff.1 hrest).1
  · refine h'.first body after rfl hne (h.outside hs) ?_
    rw [hrest]
    exact h.delimits hs

/-- There is one way in which string text ends. -/
theorem Ends.unique (h : stop.Ends quote decoded chars body rest)
    (h' : stop'.Ends quote decoded chars body' rest') (hq : quote ≠ '$') :
    stop = stop' ∧ body = body' ∧ rest = rest' := by
  have hbody : body = body' := by
    have hle : body <+: chars := ⟨_, h.split.symm⟩
    have hle' : body' <+: chars := ⟨_, h'.split.symm⟩
    rcases List.prefix_or_prefix_of_prefix hle hle' with ⟨after, rfl⟩ | ⟨after, rfl⟩
    · rw [h.eq_nil_of_append h', List.append_nil]
    · rw [h'.eq_nil_of_append h, List.append_nil]
  subst hbody
  have hrest : stop.delimiter quote ++ rest = stop'.delimiter quote ++ rest' :=
    List.append_cancel_left (h.split.symm.trans h'.split)
  have hnil : stop = .unterminated → stop.delimiter quote ++ rest = [] := fun hs => by
    rw [h.exhausted hs, hs]
    rfl
  have hnil' : stop' = .unterminated → stop'.delimiter quote ++ rest' = [] := fun hs => by
    rw [h'.exhausted hs, hs]
    rfl
  cases stop with
  | closed =>
    cases stop' with
    | closed => exact ⟨rfl, rfl, (List.cons.inj hrest).2⟩
    | opened => exact absurd (List.cons.inj hrest).1 hq
    | unterminated => cases hrest.trans (hnil' rfl)
  | opened =>
    cases stop' with
    | closed => exact absurd (List.cons.inj hrest).1.symm hq
    | opened => exact ⟨rfl, rfl, List.append_cancel_left hrest⟩
    | unterminated => cases hrest.trans (hnil' rfl)
  | unterminated =>
    cases stop' with
    | closed => cases hrest.symm.trans (hnil rfl)
    | opened => cases hrest.symm.trans (hnil rfl)
    | unterminated => exact ⟨rfl, rfl, hrest⟩

end

end StringStop

/-! ## What is read -/

/-- An escape that means nothing, in the text behind a head. -/
def ScanError.EscapeIn (h : Head) (body : List Char) (e : ScanError) : Prop :=
  ∃ c a b, body = a ++ c :: b ∧
    ∀ before, h.Behind before → e = .unknownEscape c (.of (before ++ a) [c])

theorem ScanError.EscapeIn.passes {h h' : Head} {unit body : List Char} {e : ScanError}
    (he : e.EscapeIn h' body) (hp : h.Passes h' unit) : e.EscapeIn h (unit ++ body) := by
  obtain ⟨c, a, b, rfl, hplace⟩ := he
  refine ⟨c, unit ++ a, b, (List.append_assoc ..).symm, fun before hb => ?_⟩
  rw [← List.append_assoc]
  exact hplace _ (hp.behind before hb)

theorem ScanError.EscapeIn.append {h : Head} {body : List Char} {e : ScanError}
    (he : e.EscapeIn h body) (later : List Char) : e.EscapeIn h (body ++ later) := by
  obtain ⟨c, a, b, rfl, hplace⟩ := he
  exact ⟨c, a, b ++ later, List.append_assoc .., hplace⟩

/-- A run reads string text up to its end, behind text and errors that have been read before. -/
structure StringRun.Reads (run : StringRun) (h : Head) (quote : Char) (decoded : Bool)
    (text : List Char) (errors : List ScanError) (body : List Char) : Prop where
  ends : run.stop.Ends quote decoded h.rest body run.head.rest
  passes : h.Passes run.head (body ++ run.stop.delimiter quote)
  text : run.stop ≠ .unterminated → run.text = text.reverse ++ meant decoded body
  errors : ∀ e ∈ run.errors, e ∈ errors ∨ e.EscapeIn h body

/-- One more unit of text before the text that a run reads. -/
theorem StringRun.Reads.prepend {run : StringRun} {h h' : Head} {quote : Char} {decoded : Bool}
    {text body : List Char} {value : Char} {errors errors' : List ScanError} (unit : List Char)
    (hr : run.Reads h' quote decoded (value :: text) errors' body) (hp : h.Passes h' unit)
    (hends : run.stop.Ends quote decoded h.rest (unit ++ body) run.head.rest)
    (hmeant : meant decoded (unit ++ body) = value :: meant decoded body)
    (herrors : ∀ e ∈ errors', e ∈ errors ∨ e.EscapeIn h unit) :
    run.Reads h quote decoded text errors (unit ++ body) where
  ends := hends
  passes := by
    rw [List.append_assoc]
    exact hp.trans hr.passes
  text hs := by
    rw [hr.text hs, hmeant, List.reverse_cons, List.append_assoc]
    rfl
  errors e he := by
    rcases hr.errors e he with he | he
    · exact (herrors e he).imp id fun he => he.append body
    · exact .inr (he.passes hp)

/-- String text is read up to its end. -/
theorem reads_readString (quote : Char) (decoded : Bool) (text : List Char)
    (errors : List ScanError) (offset : Nat) (position : Position) (chars : List Char)
    (hq : quote ≠ '\\') :
    ∃ body, (readString quote decoded text errors offset position chars).Reads
      ⟨chars, offset, position⟩ quote decoded text errors body := by
  fun_induction readString quote decoded text errors offset position chars with
  | case1 text errors offset position =>
    refine ⟨[], StringStop.ends_exhausted, .refl _, fun hs => absurd rfl hs, fun e he => ?_⟩
    exact .inl (List.mem_reverse.1 he)
  | case2 text errors offset position rest =>
    refine ⟨[], StringStop.ends_quote, Head.passes_char quote rest offset position,
      fun _ => ?_, fun e he => .inl (List.mem_reverse.1 he)⟩
    cases decoded <;> exact (List.append_nil _).symm
  | case3 text errors offset position c rest _ _ hc hopen =>
    simp only [Bool.and_eq_true, decide_eq_true_eq] at hopen
    obtain ⟨⟨rfl, hd⟩, hbrace⟩ := hopen
    subst hd
    obtain ⟨rest, rfl⟩ := List.head?_eq_some_iff.1 hbrace
    refine ⟨[], StringStop.ends_insertion,
      (Head.passes_char '$' _ offset position).trans (Head.passes_char '\x7b' rest _ _),
      fun _ => ?_, fun e he => .inl (List.mem_reverse.1 he)⟩
    exact (List.append_nil _).symm
  | case4 text errors offset position c _ _ hc hescape hopen =>
    simp only [Bool.and_eq_true, decide_eq_true_eq] at hescape
    obtain ⟨rfl, hd⟩ := hescape
    exact ⟨['\\'], StringStop.ends_backslash hq, Head.passes_char '\\' [] offset position,
      fun hs => absurd rfl hs, fun e he => .inl (List.mem_reverse.1 he)⟩
  | case5 text errors offset position c _ _ hc hescape e rest _ plain hplain hopen ih =>
    simp only [Bool.and_eq_true, decide_eq_true_eq] at hescape
    obtain ⟨rfl, hd⟩ := hescape
    subst hd
    obtain ⟨body, hr⟩ := ih
    have hvalue : (escapes.lookup e).getD e = plain := by
      rw [← getD_escaped?, hplain]
      rfl
    refine ⟨'\\' :: e :: body, hr.prepend ['\\', e]
      ((Head.passes_char '\\' _ offset position).trans (Head.passes_char e rest _ _))
      (hr.ends.escape hq) ?_ fun _ => .inl⟩
    rw [← hvalue]
    exact meant_escape e body
  | case6 text errors offset position c _ _ hc hescape e rest _ hnone place hopen ih =>
    simp only [Bool.and_eq_true, decide_eq_true_eq] at hescape
    obtain ⟨rfl, hd⟩ := hescape
    subst hd
    obtain ⟨body, hr⟩ := ih
    have hvalue : (escapes.lookup e).getD e = e := by
      rw [← getD_escaped?, hnone]
      rfl
    have hback := Head.passes_char '\\' (e :: rest) offset position
    have hchar := Head.passes_char e rest (offset + '\\'.utf8Size) (position.after '\\')
    refine ⟨'\\' :: e :: body, hr.prepend ['\\', e] (hback.trans hchar)
      (hr.ends.escape hq) ?_ fun error he => ?_⟩
    · exact (meant_escape e body).trans (by rw [hvalue])
    · rcases List.mem_cons.1 he with rfl | he
      · refine .inr ⟨e, ['\\'], [], rfl, fun before hb => ?_⟩
        exact congrArg _ (hchar.since_eq (hback.behind before hb))
      · exact .inl he
  | case7 text errors offset position c rest _ _ hc hopen hescape ih =>
    obtain ⟨body, hr⟩ := ih
    have hplain : decoded = true → c ≠ '\\' := by
      rintro rfl rfl
      exact hescape rfl
    refine ⟨c :: body, hr.prepend [c] (Head.passes_char c rest offset position)
      (hr.ends.plain hplain ?_) (meant_plain hplain body) fun _ => .inl⟩
    rintro (hfirst | ⟨hd, hinsert⟩)
    · exact hc (Option.some.inj hfirst)
    · obtain ⟨rfl, hbrace⟩ := List.cons_prefix_cons.1 hinsert
      refine hopen ?_
      subst hd
      obtain ⟨later, rfl⟩ := hbrace
      rfl

end Juxta
