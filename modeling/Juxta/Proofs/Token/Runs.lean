import Juxta.Proofs.Token.Pieces
import Juxta.Proofs.Token.Quotations

/-!
# Runs of a scan

A scan is run by adding pieces of text, asking for items and ending the text, in any order. What
one step can do is said once; everything that holds in the course of a run follows from it.

* `Scan.Taken`, `Scan.token_taken` : what reading one token can do;
* `Scan.Step`, `Scan.next_step` : what asking for an item can do;
* `Scan.Run` : runs, with the text and the items so far; `Scan.run_items` is that of a whole text;
* `Scan.Run.standing` : a scan stands behind the text that it has read.
-/

namespace Juxta

/-- The place of a token or an error. -/
def ScanItem.location : ScanItem → Location
  | .ok token => token.location
  | .error error => error.location

namespace TokenKind

/-- Kinds that open or close a brace or an inserted expression. -/
def isBracket : TokenKind → Bool
  | .openBrace | .closeBrace | .stringStart _ | .stringMiddle _ | .stringEnd _ => true
  | _ => false

/-- Strings and pieces of them. -/
def isString : TokenKind → Bool
  | .string _ | .stringStart _ | .stringMiddle _ | .stringEnd _ => true
  | _ => false

/-- Kinds of tokens that have no bearing on the tokens behind them. -/
def isPlain (kind : TokenKind) : Bool :=
  !kind.isBracket && !kind.isString && kind != .endOfText

end TokenKind

/-- A string, a piece of one, or a string that does not end. -/
def ScanItem.isString : ScanItem → Bool
  | .ok token => token.kind.isString
  | .error (.unterminatedString _) => true
  | .error _ => false

theorem isPlain_wordKind (lexicon : Lexicon) (word : String) :
    (wordKind lexicon word).isPlain = true := by
  unfold wordKind
  split
  · rfl
  · split <;> rfl

namespace Scan

/-! ## One token -/

/-- The quotes of strings with expressions, and that of raw strings. -/
inductive Quotes : Char → Bool → Prop where
  | double : Quotes '"' true
  | single : Quotes '\'' true
  | raw : Quotes '\x60' false

theorem Quotes.ne_backslash {quote : Char} {decoded : Bool} (h : Quotes quote decoded) :
    quote ≠ '\\' := by
  cases h <;> decide

theorem Quotes.ne_dollar {quote : Char} {decoded : Bool} (h : Quotes quote decoded) :
    quote ≠ '$' := by
  cases h <;> decide

/-- The interrupted strings after an opening brace. -/
def deeper : List Segment → List Segment
  | [] => []
  | inner :: outer => { inner with depth := inner.depth + 1 } :: outer

/-- Everything that reading one token can do, from the head `start` on. -/
inductive Taken (s : Scan) (start : Head) : ScanItem × Scan → Prop where
  | plain {head : Head} {kind : TokenKind} {c : Char} {more : List Char} : kind.isPlain = true →
      start.Passes head (c :: more) → Taken s start (s.yield start head kind)
  | unexpected {head : Head} {c : Char} : start.Passes head [c] →
      Taken s start (.error (.unexpectedCharacter c (head.since start)), { s with head })
  | openBrace {head : Head} {segments : List Segment} : start.Passes head ['\x7b'] →
      segments = deeper s.segments →
      Taken s start ({ s with segments }.yield start head .openBrace)
  /-- Outside inserted expressions a closing brace need not have an opening one. -/
  | looseBrace {head : Head} : start.Passes head ['\x7d'] → s.segments = [] →
      Taken s start (s.yield start head .closeBrace)
  | closeBrace {head : Head} {quote : Char} {depth : Nat} {outer : List Segment} :
      start.Passes head ['\x7d'] → s.segments = ⟨quote, depth + 1⟩ :: outer →
      Taken s start ({ s with segments := ⟨quote, depth⟩ :: outer }.yield start head .closeBrace)
  | string {head : Head} {quote : Char} {decoded : Bool} : Quotes quote decoded →
      start.Passes head [quote] → Taken s start (s.string start head quote decoded false)
  | resumed {head : Head} {quote : Char} {outer : List Segment} : start.Passes head ['\x7d'] →
      s.segments = ⟨quote, 0⟩ :: outer →
      Taken s start ({ s with segments := outer }.string start head quote true true)

section

variable {s : Scan} {start head : Head}

theorem symbol_taken {c : Char} (hp : start.Passes head [c]) :
    s.Taken start (s.symbol start head c) := by
  unfold symbol
  dsimp only
  split
  · rename_i op hpair
    obtain ⟨d, hd, -⟩ := Option.bind_eq_some_iff.1 hpair
    obtain ⟨rest, hr⟩ := List.head?_eq_some_iff.1 hd
    exact .plain rfl (hp.trans (Head.passes_advance hr).1)
  · split
    · exact .plain rfl hp
    · split
      iterate 3 · exact .plain rfl hp
      · exact .unexpected hp

/-- What reading a token can do. -/
theorem token_taken (s : Scan) {c : Char} (hp : start.Passes head [c]) :
    s.Taken start (s.token start head c) := by
  unfold token
  split
  case h_5 =>
    refine .openBrace hp ?_
    unfold deeper
    cases s.segments <;> rfl
  case h_6 =>
    split
    · rename_i hs
      exact .looseBrace hp hs
    · rename_i inner outer hs
      obtain ⟨quote, depth⟩ := inner
      cases depth with
      | zero => exact .resumed hp hs
      | succ depth => exact .closeBrace hp hs
  case h_10 => exact .plain rfl (hp.trans (head.passes_advanceWhile _).1)
  case h_11 => exact .string .double hp
  case h_12 => exact .string .single hp
  case h_13 => exact .string .raw hp
  case h_14 =>
    split
    · exact .plain rfl (hp.trans (passes_numberEnd head))
    · split
      · exact .plain rfl hp
      · split
        · exact .plain (isPlain_wordKind ..) (hp.trans (head.passes_advanceWhile _).1)
        · exact symbol_taken hp
  all_goals exact .plain rfl hp

end

/-- Everything that reading string text can do. -/
inductive Read (s : Scan) (start head : Head) (quote : Char) (decoded resumed : Bool) :
    ScanItem × Scan → Prop where
  | closed {after : Head} {body text : List Char} {errors : List ScanError} :
      StringStop.closed.Ends quote decoded head.rest body after.rest →
      head.Passes after (body ++ [quote]) → text = Text.meant decoded body →
      (∀ e ∈ errors, e.EscapeIn head body) →
      Read s start head quote decoded resumed ({ s with pending := s.pending ++ errors }.yield start
        after (if resumed then .stringEnd (String.ofList text) else .string (String.ofList text)))
  | opened {after : Head} {body text : List Char} {errors : List ScanError} :
      StringStop.opened.Ends quote decoded head.rest body after.rest →
      head.Passes after (body ++ ['$', '\x7b']) → text = Text.meant decoded body →
      (∀ e ∈ errors, e.EscapeIn head body) →
      Read s start head quote decoded resumed ({ s with
        pending := s.pending ++ errors, segments := ⟨quote, 0⟩ :: s.segments }.yield start after
        (if resumed then .stringMiddle (String.ofList text) else .stringStart (String.ofList text)))
  | unterminated {after : Head} {body : List Char} {errors : List ScanError} :
      StringStop.unterminated.Ends quote decoded head.rest body after.rest →
      head.Passes after body → (∀ e ∈ errors, e.EscapeIn head body) →
      Read s start head quote decoded resumed (.error (.unterminatedString (after.since start)),
        { s with pending := s.pending ++ errors, head := after })

theorem string_read (s : Scan) (start head : Head) {quote : Char} (hq : quote ≠ '\\')
    (decoded resumed : Bool) :
    s.Read start head quote decoded resumed (s.string start head quote decoded resumed) := by
  obtain ⟨body, ends, passes, text, errors⟩ :=
    reads_readString quote decoded [] [] head.offset head.position head.rest hq
  have hescapes : ∀ e ∈ (readString quote decoded [] [] head.offset head.position
      head.rest).errors, e.EscapeIn head body :=
    fun e he => (errors e he).resolve_left List.not_mem_nil
  unfold string
  revert ends passes text hescapes
  generalize readString quote decoded [] [] head.offset head.position head.rest = run
  obtain ⟨stop, content, found, after⟩ := run
  intro ends passes text hescapes
  cases stop with
  | closed => exact .closed ends passes (text nofun) hescapes
  | opened => exact .opened ends passes (text nofun) hescapes
  | unterminated =>
    rw [show body ++ StringStop.unterminated.delimiter quote = body from List.append_nil body]
      at passes
    exact .unterminated ends passes hescapes

/-! ## One item -/

/-- Everything that asking for an item can do. -/
inductive Step (s : Scan) : Option ScanItem → Scan → Prop where
  | pending {error : ScanError} {rest : List ScanError} : s.pending = error :: rest →
      Step s (some (.error error)) { s with pending := rest }
  | finished : s.pending = [] → s.finished = true → Step s none s
  | waits : s.pending = [] → s.closed = false → Step s none s.skipBlanks
  | ends : s.pending = [] → s.finished = false → s.closed = true → s.skipBlanks.head.rest = [] →
      Step s (some (.ok ⟨.endOfText, s.skipBlanks.head.since s.skipBlanks.head⟩))
        { s.skipBlanks with finished := true }
  | token {item : ScanItem} {t : Scan} : s.pending = [] → s.finished = false →
      s.skipBlanks.Taken s.skipBlanks.head (item, t) →
      (s.closed = false → t.head.rest ≠ []) → Step s (some item) t

/-- What asking for an item can do. -/
theorem next_step {s t : Scan} {item : Option ScanItem} (h : s.next = (item, t)) :
    s.Step item t := by
  cases hp : s.pending with
  | cons error rest =>
    unfold next at h
    rw [hp] at h
    cases h
    exact .pending hp
  | nil =>
    cases hf : s.finished with
    | true =>
      unfold next at h
      rw [hp, hf] at h
      cases h
      exact .finished hp hf
    | false =>
      rw [next_of_ready hp hf] at h
      split at h
      · rename_i hr
        split at h
        · rename_i hc
          cases h
          exact .ends hp hf hc hr
        · rename_i hc
          cases h
          exact .waits hp (Bool.not_eq_true _ ▸ hc)
      · rename_i c rest hr
        have htaken := s.skipBlanks.token_taken (Head.passes_advance hr).1
        dsimp only at h
        split at h
        · rename_i hopen
          cases h
          exact .waits hp (by simpa using (Bool.and_eq_true_iff.1 hopen).1)
        · rename_i hmore
          cases h
          refine .token hp hf htaken fun hc hz => hmore ?_
          rw [hc, hz]
          rfl

/-! ## Runs -/

/-- What can become of a scan: `text` has been added, in whatever pieces, and `items` have been
given out. -/
inductive Run (lexicon : Lexicon) : List Char → List ScanItem → Scan → Prop where
  | empty : Run lexicon [] [] (empty lexicon)
  | push {text : List Char} {items : List ScanItem} {s : Scan} (piece : String) :
      Run lexicon text items s → s.closed = false →
      Run lexicon (text ++ piece.toList) items (s.push piece)
  | close {text : List Char} {items : List ScanItem} {s : Scan} : Run lexicon text items s →
      Run lexicon text items s.close
  | next {text : List Char} {items : List ScanItem} {s t : Scan} {item : Option ScanItem} :
      Run lexicon text items s → s.next = (item, t) → Run lexicon text (items ++ item.toList) t

variable {lexicon : Lexicon} {text : List Char} {items : List ScanItem} {s : Scan}

theorem run_ofText (lexicon : Lexicon) (text : String) :
    Run lexicon text.toList [] (ofText lexicon text) :=
  .close (.push text .empty rfl)

/-- In a complete text there is no item only after the end, and then there is none for ever. -/
theorem next_none {t : Scan} (hc : s.closed = true) (h : s.next = (none, t)) :
    t = s ∧ s.pending = [] ∧ s.finished = true := by
  cases next_step h with
  | finished hp hf => exact ⟨rfl, hp, hf⟩
  | waits _ hopen => exact absurd (hc.symm.trans hopen) nofun

/-- Items are given out until there is none. -/
theorem Run.drain (h : Run lexicon text items s) :
    Run lexicon text (items ++ s.drain.1) s.drain.2 := by
  generalize hn : s.measure = n
  induction n using Nat.strongRecOn generalizing s items with
  | ind n ih =>
    cases hs : s.next with
    | mk item? t =>
      have ht := h.next hs
      cases item? with
      | none =>
        rw [drain_of_next_none hs]
        exact ht
      | some item =>
        rw [drain_of_next_some hs]
        have hrest := ih _ (hn ▸ measure_next hs) ht rfl
        rw [List.append_assoc] at hrest
        exact hrest

/-- After all items of a complete text there is none for ever. -/
theorem next_drain (hc : s.closed = true) :
    s.drain.2.closed = true ∧ s.drain.2.next = (none, s.drain.2) := by
  generalize hn : s.measure = n
  induction n using Nat.strongRecOn generalizing s with
  | ind n ih =>
    cases hs : s.next with
    | mk item? t =>
      cases item? with
      | none =>
        rw [drain_of_next_none hs]
        obtain ⟨rfl, -, -⟩ := next_none hc hs
        exact ⟨hc, hs⟩
      | some item =>
        rw [drain_of_next_some hs]
        exact ih _ (hn ▸ measure_next hs) (next_closed hc hs).1 rfl

/-- The run that gives out all items of a complete text. -/
theorem run_items (lexicon : Lexicon) (text : String) :
    Run lexicon text.toList (Scan.items lexicon text) (ofText lexicon text).drain.2 :=
  (run_ofText lexicon text).drain

/-! ## Lexemes -/

/-- Reading an item passes over a lexeme, which is its place; escapes that mean nothing are found
in strings only. -/
structure Lexed (s : Scan) (start : Head) (item : ScanItem) (t : Scan) (lexeme : List Char) :
    Prop where
  ne_nil : lexeme ≠ []
  passes : start.Passes t.head lexeme
  location : item.location = t.head.since start
  escapes : ∀ e ∈ t.pending, e ∈ s.pending ∨ e.EscapeIn start lexeme ∧ item.isString = true
  whole : ∀ c place, item ≠ .error (.unknownEscape c place)
  ordinary : ∀ token, item = .ok token → token.kind ≠ .endOfText
  lexicon : t.lexicon = s.lexicon
  closed : t.closed = s.closed
  finished : t.finished = s.finished

/-- The quotes of all interrupted strings are those of strings with expressions. -/
def Quoted (segments : List Segment) : Prop :=
  ∀ segment ∈ segments, Quotes segment.quote true

theorem quoted_cons {quote : Char} {depth : Nat} {outer : List Segment} :
    Quoted (⟨quote, depth⟩ :: outer) ↔ Quotes quote true ∧ Quoted outer :=
  List.forall_mem_cons

theorem Quoted.deeper {segments : List Segment} (h : Quoted segments) :
    Quoted (deeper segments) := by
  cases segments with
  | nil => exact h
  | cons inner outer => exact quoted_cons.2 (quoted_cons.1 h)

theorem ne_endOfText {kind : TokenKind} (h : kind.isPlain = true) : kind ≠ .endOfText := by
  rintro rfl
  cases h

section

variable {start head : Head} {item : ScanItem} {t : Scan}

/-- Reading string text behind an opening quote, or behind the brace that ends an inserted
expression. -/
theorem Read.lexed {quote c : Char} {decoded resumed : Bool}
    (h : s.Read start head quote decoded resumed (item, t)) (hp : start.Passes head [c]) :
    ∃ lexeme, s.Lexed start item t lexeme := by
  have escapes : ∀ {errors : List ScanError} {body later : List Char} {item : ScanItem},
      (∀ e ∈ errors, e.EscapeIn head body) → item.isString = true → ∀ e ∈ s.pending ++ errors,
      e ∈ s.pending ∨ e.EscapeIn start ([c] ++ (body ++ later)) ∧ item.isString = true := by
    intro errors body later item he hs e hm
    exact (List.mem_append.1 hm).imp id fun hm => ⟨((he e hm).append later).passes hp, hs⟩
  cases h with
  | closed ends passes _ he =>
    exact ⟨_, {
      ne_nil := List.cons_ne_nil _ _
      passes := hp.trans passes
      location := rfl
      escapes := escapes he (by cases resumed <;> rfl)
      whole := nofun
      ordinary := by
        rintro token ⟨⟩
        cases resumed <;> nofun
      lexicon := rfl
      closed := rfl
      finished := rfl }⟩
  | opened ends passes _ he =>
    exact ⟨_, {
      ne_nil := List.cons_ne_nil _ _
      passes := hp.trans passes
      location := rfl
      escapes := escapes he (by cases resumed <;> rfl)
      whole := nofun
      ordinary := by
        rintro token ⟨⟩
        cases resumed <;> nofun
      lexicon := rfl
      closed := rfl
      finished := rfl }⟩
  | @unterminated _ body _ ends passes he =>
    exact ⟨[c] ++ (body ++ []), {
      ne_nil := List.cons_ne_nil _ _
      passes := hp.trans (by rwa [List.append_nil])
      location := rfl
      escapes := escapes he rfl
      whole := nofun
      ordinary := nofun
      lexicon := rfl
      closed := rfl
      finished := rfl }⟩

theorem Read.quoted {quote : Char} {decoded resumed : Bool}
    (h : s.Read start head quote decoded resumed (item, t)) (hs : Quoted s.segments)
    (hq : decoded = true → Quotes quote true) : Quoted t.segments := by
  cases h with
  | closed => exact hs
  | opened ends => exact quoted_cons.2 ⟨hq (ends.decoded rfl), hs⟩
  | unterminated => exact hs

/-- Reading a token without string text. -/
theorem lexed_yield {segments : List Segment} {kind : TokenKind} {c : Char} {more : List Char}
    (hk : kind ≠ .endOfText) (hp : start.Passes head (c :: more)) :
    s.Lexed start (.ok ⟨kind, head.since start⟩) { s with segments, head } (c :: more) where
  ne_nil := List.cons_ne_nil _ _
  passes := hp
  location := rfl
  escapes _ he := .inl he
  whole := nofun
  ordinary := by
    rintro token ⟨⟩
    exact hk
  lexicon := rfl
  closed := rfl
  finished := rfl

/-- What reading a token does, with the cases of string text resolved. -/
theorem Taken.lexed (h : s.Taken start (item, t)) (hs : Quoted s.segments) :
    (∃ lexeme, s.Lexed start item t lexeme) ∧ Quoted t.segments := by
  generalize hr : (item, t) = r at h
  cases h with
  | plain hk hp =>
    cases hr
    exact ⟨⟨_, lexed_yield (ne_endOfText hk) hp⟩, hs⟩
  | unexpected hp =>
    cases hr
    exact ⟨⟨_, List.cons_ne_nil _ _, hp, rfl, fun _ he => .inl he, nofun, nofun, rfl, rfl,
      rfl⟩, hs⟩
  | openBrace hp hd =>
    cases hr
    subst hd
    exact ⟨⟨_, lexed_yield nofun hp⟩, hs.deeper⟩
  | looseBrace hp =>
    cases hr
    exact ⟨⟨_, lexed_yield nofun hp⟩, hs⟩
  | closeBrace hp houter =>
    cases hr
    rw [houter] at hs
    exact ⟨⟨_, lexed_yield nofun hp⟩, quoted_cons.2 (quoted_cons.1 hs)⟩
  | @string head quote decoded hquotes hp =>
    have hread := s.string_read start head hquotes.ne_backslash decoded false
    rw [← hr] at hread
    refine ⟨hread.lexed hp, hread.quoted hs ?_⟩
    rintro rfl
    exact hquotes
  | @resumed head quote outer hp houter =>
    rw [houter] at hs
    obtain ⟨hquotes, hs⟩ := quoted_cons.1 hs
    have hread := { s with segments := outer }.string_read start head hquotes.ne_backslash true true
    rw [← hr] at hread
    obtain ⟨lexeme, hl⟩ := hread.lexed hp
    exact ⟨⟨lexeme, hl.ne_nil, hl.passes, hl.location, hl.escapes, hl.whole, hl.ordinary,
      hl.lexicon, hl.closed, hl.finished⟩, hread.quoted hs fun _ => hquotes⟩

end

/-! ## Where a scan stands -/

/-- Where a scan stands: behind a text, with the rest of it to come. -/
structure Standing (lexicon : Lexicon) (text : List Char) (s : Scan) (before : List Char) :
    Prop where
  split : text = before ++ s.head.rest
  behind : s.head.Behind before
  lexicon : s.lexicon = lexicon
  quoted : Quoted s.segments

section

variable {before : List Char}

theorem Standing.push (h : Standing lexicon text s before) (piece : String) :
    Standing lexicon (text ++ piece.toList) (s.push piece) before where
  split := by
    rw [h.split, List.append_assoc]
    rfl
  behind := ⟨h.behind.offset, h.behind.position⟩
  lexicon := h.lexicon
  quoted := h.quoted

theorem Standing.close (h : Standing lexicon text s before) :
    Standing lexicon text s.close before := ⟨h.split, h.behind, h.lexicon, h.quoted⟩

/-- Passing over blanks. -/
theorem Standing.skipBlanks (h : Standing lexicon text s before) :
    ∃ gap, (∀ c ∈ gap, Text.isBlank c = true) ∧
      Standing lexicon text s.skipBlanks (before ++ gap) := by
  obtain ⟨hp, -⟩ := s.head.passes_advanceWhile Text.isBlank
  refine ⟨s.head.rest.takeWhile Text.isBlank, fun c hc => List.mem_takeWhile_imp hc, ?_,
    hp.behind before h.behind, h.lexicon, h.quoted⟩
  rw [h.split, List.append_assoc]
  exact congrArg (before ++ ·) hp.rest

/-- Reading a token. -/
theorem Standing.lexed {item : ScanItem} {t : Scan} (h : Standing lexicon text s before)
    (ht : s.Taken s.head (item, t)) :
    ∃ lexeme, s.Lexed s.head item t lexeme ∧ Standing lexicon text t (before ++ lexeme) := by
  obtain ⟨⟨lexeme, hl⟩, hquoted⟩ := ht.lexed h.quoted
  refine ⟨lexeme, hl, ?_, hl.passes.behind before h.behind, hl.lexicon.trans h.lexicon, hquoted⟩
  rw [h.split, hl.passes.rest, List.append_assoc]

/-- A scan stands behind the text that it has read. -/
theorem Run.standing (h : Run lexicon text items s) : ∃ before, Standing lexicon text s before := by
  induction h with
  | empty => exact ⟨[], rfl, ⟨rfl, rfl⟩, rfl, nofun⟩
  | push piece _ _ ih =>
    obtain ⟨before, hs⟩ := ih
    exact ⟨before, hs.push piece⟩
  | close _ ih =>
    obtain ⟨before, hs⟩ := ih
    exact ⟨before, hs.close⟩
  | next _ hnext ih =>
    obtain ⟨before, hs⟩ := ih
    obtain ⟨gap, -, hskip⟩ := hs.skipBlanks
    cases next_step hnext with
    | pending => exact ⟨before, hs.split, hs.behind, hs.lexicon, hs.quoted⟩
    | finished => exact ⟨before, hs⟩
    | waits => exact ⟨_, hskip⟩
    | ends => exact ⟨_, hskip.split, hskip.behind, hskip.lexicon, hskip.quoted⟩
    | token _ _ ht =>
      obtain ⟨lexeme, -, hs'⟩ := hskip.lexed ht
      exact ⟨_, hs'⟩

end

end Scan

end Juxta
