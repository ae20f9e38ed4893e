import Mathlib.Data.List.TakeWhile
import Juxta.Token.Scan

/-!
# Places of lexemes

Where a head stands is told by the text before it: its bytes, its line breaks, and the characters
after the last of them. Every way of reading passes over a lexeme, and keeps this.

* `Text.bytes`, `Position.behind` : the size of a text, and the position behind it;
* `Location.of` : the place of a lexeme behind a text;
* `Head.Behind` : a head stands behind a text;
* `Head.Passes` : a head passes over a lexeme; `Head.passes_advance`, `Head.passes_advanceWhile` and
  `passes_numberEnd` say over which one.
-/

namespace Juxta

/-! ## Sizes and positions -/

/-- The bytes of some characters. -/
def Text.bytes (chars : List Char) : Nat := (String.ofList chars).utf8ByteSize

theorem Text.bytes_append (a b : List Char) :
    Text.bytes (a ++ b) = Text.bytes a + Text.bytes b := by
  unfold Text.bytes
  rw [String.ofList_append, String.utf8ByteSize_append]

theorem Text.bytes_singleton (c : Char) : Text.bytes [c] = c.utf8Size := by
  unfold Text.bytes
  rw [← String.singleton_eq_ofList, String.utf8ByteSize_singleton]

namespace Position

/-- The position behind a text: its line breaks, and its characters after the last of them. -/
def behind (text : List Char) : Position :=
  ⟨text.count '\n', (text.reverse.takeWhile (· != '\n')).length⟩

theorem behind_append_singleton (text : List Char) (c : Char) :
    behind (text ++ [c]) = (behind text).after c := by
  unfold behind after
  rw [List.count_append, List.reverse_append, List.reverse_singleton, List.singleton_append]
  by_cases hc : c = '\n'
  · subst hc
    rw [if_pos rfl]
    rfl
  · rw [if_neg hc, List.count_singleton, List.takeWhile_cons_of_pos (by simpa using hc)]
    simp [hc]

end Position

/-- The place of a lexeme behind a text. -/
def Location.of (before lexeme : List Char) : Location :=
  ⟨⟨Text.bytes before, Text.bytes lexeme⟩, ⟨.behind before, .behind (before ++ lexeme)⟩⟩

/-! ## Heads -/

namespace Head

/-- A head stands where a text ends. -/
structure Behind (h : Head) (before : List Char) : Prop where
  offset : h.offset = Text.bytes before
  position : h.position = .behind before

/-- The second head is the first one after a lexeme. -/
structure Passes (h h' : Head) (lexeme : List Char) : Prop where
  rest : h.rest = lexeme ++ h'.rest
  behind : ∀ before, h.Behind before → h'.Behind (before ++ lexeme)

theorem Passes.refl (h : Head) : h.Passes h [] :=
  ⟨rfl, fun before hb => by rwa [List.append_nil]⟩

theorem Passes.trans {h h' h'' : Head} {a b : List Char} (first : h.Passes h' a)
    (second : h'.Passes h'' b) : h.Passes h'' (a ++ b) where
  rest := by rw [first.rest, second.rest, List.append_assoc]
  behind before hb := by
    rw [← List.append_assoc]
    exact second.behind _ (first.behind before hb)

/-- The place of a lexeme that has been passed. -/
theorem Passes.since_eq {h h' : Head} {before lexeme : List Char} (hp : h.Passes h' lexeme)
    (hb : h.Behind before) : h'.since h = .of before lexeme := by
  have hb' := hp.behind before hb
  unfold Head.since Location.of Span.between
  rw [hb'.offset, hb.offset, hb'.position, hb.position, Text.bytes_append, Nat.add_sub_cancel_left]

/-- A lexeme that has been passed is the text between the two heads. -/
theorem Passes.textSince_eq {h h' : Head} {lexeme : List Char} (hp : h.Passes h' lexeme) :
    h'.textSince h = lexeme := by
  unfold Head.textSince
  rw [hp.rest, List.length_append, Nat.add_sub_cancel, List.take_left]

/-- One character. -/
theorem passes_char (c : Char) (rest : List Char) (offset : Nat) (position : Position) :
    Passes ⟨c :: rest, offset, position⟩ ⟨rest, offset + c.utf8Size, position.after c⟩ [c] where
  rest := rfl
  behind before hb := by
    obtain ⟨ho, hp⟩ := hb
    dsimp only at ho hp
    constructor
    · dsimp only
      rw [ho, Text.bytes_append, Text.bytes_singleton]
    · dsimp only
      rw [hp, Position.behind_append_singleton]

theorem passes_advance {h : Head} {c : Char} {rest : List Char} (hr : h.rest = c :: rest) :
    h.Passes h.advance [c] ∧ h.advance.rest = rest := by
  obtain ⟨chars, offset, position⟩ := h
  dsimp only at hr
  subst hr
  exact ⟨passes_char c rest offset position, rfl⟩

theorem passes_skipWhile (condition : Char → Bool) (offset : Nat) (position : Position)
    (chars : List Char) :
    Passes ⟨chars, offset, position⟩ (skipWhile condition offset position chars)
        (chars.takeWhile condition) ∧
      (skipWhile condition offset position chars).rest = chars.dropWhile condition := by
  induction chars generalizing offset position with
  | nil => exact ⟨Passes.refl _, rfl⟩
  | cons c rest ih =>
    unfold skipWhile
    by_cases hc : condition c = true
    · obtain ⟨hp, hr⟩ := ih (offset + c.utf8Size) (position.after c)
      rw [if_pos hc, List.takeWhile_cons_of_pos hc, List.dropWhile_cons_of_pos hc]
      exact ⟨(passes_char c rest offset position).trans hp, hr⟩
    · rw [if_neg hc, List.takeWhile_cons_of_neg hc, List.dropWhile_cons_of_neg hc]
      exact ⟨Passes.refl _, rfl⟩

theorem passes_advanceWhile (h : Head) (condition : Char → Bool) :
    h.Passes (h.advanceWhile condition) (h.rest.takeWhile condition) ∧
      (h.advanceWhile condition).rest = h.rest.dropWhile condition :=
  passes_skipWhile condition h.offset h.position h.rest

end Head

/-! ## Numbers -/

theorem isFraction_iff {chars : List Char} :
    isFraction chars = true ↔ ∃ d rest, chars = '.' :: d :: rest ∧ d.isDigit = true := by
  constructor
  · intro h
    unfold isFraction at h
    split at h
    · exact ⟨_, _, rfl, h⟩
    · cases h
  · rintro ⟨d, rest, rfl, hd⟩
    exact hd

/-- The digits and the fraction that a number goes on with behind its first character. -/
def numberRest (chars : List Char) : List Char :=
  let digits := chars.takeWhile Char.isDigit
  let rest := chars.dropWhile Char.isDigit
  if isFraction rest then digits ++ '.' :: rest.tail.takeWhile Char.isDigit else digits

theorem passes_numberEnd (h : Head) : h.Passes (numberEnd h) (numberRest h.rest) := by
  obtain ⟨hfirst, hrest⟩ := h.passes_advanceWhile Char.isDigit
  unfold numberEnd numberRest
  dsimp only
  rw [← hrest]
  by_cases hf : isFraction (h.advanceWhile Char.isDigit).rest = true
  · rw [if_pos hf, if_pos hf]
    obtain ⟨d, rest, hr, -⟩ := isFraction_iff.1 hf
    obtain ⟨hpoint, htail⟩ := Head.passes_advance hr
    have hsecond := ((h.advanceWhile Char.isDigit).advance.passes_advanceWhile Char.isDigit).1
    rw [htail] at hsecond
    rw [hr]
    exact hfirst.trans (hpoint.trans hsecond)
  · rw [if_neg hf, if_neg hf]
    exact hfirst

end Juxta
