import Juxta.Proofs.Token.Lexemes

/-!
# Inserted expressions

The pieces of strings with inserted expressions are well nested: a string goes on only where it has
been opened and is still open, with the quote that has opened it, and the braces and strings inside
of an inserted expression are closed there.

* `StringPiece` : a piece of a string with expressions, with its place in the text;
* `Nested`, `Open` : items in which everything is closed, and items that leave one string open;
* `Opened` : what the items so far say about the interrupted strings;
* `Scan.Taken.opened` : what reading a token does to that;
* `Scan.Run.exists_open_of_isResumed` : the pieces that are given out in the course of a run.
-/

namespace Juxta

/-! ## Well nested items -/

namespace ScanItem

/-- A brace, or a piece of a string with expressions. -/
def isBracket : ScanItem → Bool
  | .ok token => token.kind.isBracket
  | .error _ => false

/-- A piece of a string behind an inserted expression. -/
def isResumed : ScanItem → Bool
  | .ok ⟨.stringMiddle _, _⟩ | .ok ⟨.stringEnd _, _⟩ => true
  | _ => false

theorem isResumed_of_isBracket {item : ScanItem} (h : item.isBracket = false) :
    item.isResumed = false := by
  cases item with
  | error error => rfl
  | ok token =>
    obtain ⟨kind, place⟩ := token
    cases kind <;> first | rfl | cases h

end ScanItem

/-- What is left of a string that ends is of no account for its end. -/
theorem StringStop.Ends.alone {stop : StringStop} {quote : Char} {decoded : Bool}
    {chars body rest : List Char} (h : stop.Ends quote decoded chars body rest) :
    stop.Ends quote decoded (body ++ stop.delimiter quote) body [] where
  split := by rw [List.append_nil]
  outside := h.outside
  first before after hb hne ho hd := by
    refine h.first before after hb hne ho ?_
    rw [← List.append_assoc]
    rw [List.append_nil] at hd
    exact hd.append rest
  decoded := h.decoded
  exhausted _ := rfl

/-- The characters of a piece of a string, at the start of the string and behind an inserted
expression. -/
def stringPieceText (quote : Char) (resumed : Bool) (stop : StringStop) (body : List Char) :
    List Char :=
  (if resumed then '\x7d' else quote) :: (body ++ stop.delimiter quote)

/-- A piece of a string with expressions: it has a place in the text, where it ends at the first
quote of the string or the first inserted expression. -/
def StringPiece (text : List Char) (quote : Char) (resumed : Bool) (stop : StringStop)
    (item : ScanItem) : Prop :=
  Scan.Quotes quote true ∧ ∃ before body after,
    text = before ++ (stringPieceText quote resumed stop body ++ after) ∧
      stop.Ends quote true (body ++ stop.delimiter quote) body [] ∧
      item = stop.item resumed (String.ofList (Text.unescaped body))
        (.of before (stringPieceText quote resumed stop body))

theorem StringPiece.push {text : List Char} {quote : Char} {resumed : Bool} {stop : StringStop}
    {item : ScanItem} (h : StringPiece text quote resumed stop item) (later : List Char) :
    StringPiece (text ++ later) quote resumed stop item := by
  obtain ⟨hquotes, before, body, after, rfl, hends, hitem⟩ := h
  refine ⟨hquotes, before, body, after ++ later, ?_, hends, hitem⟩
  rw [List.append_assoc, List.append_assoc]

mutual

/-- Items in which every brace and every string is closed that is opened, and no other one. -/
inductive Nested (text : List Char) : List ScanItem → Prop where
  | nil : Nested text []
  | single {item : ScanItem} : item.isBracket = false → Nested text [item]
  | append {first second : List ScanItem} : Nested text first → Nested text second →
      Nested text (first ++ second)
  | braces {inner : List ScanItem} {left right : Location} : Nested text inner →
      Nested text (.ok ⟨.openBrace, left⟩ :: (inner ++ [.ok ⟨.closeBrace, right⟩]))
  | string {quote : Char} {parts : List ScanItem} {item : ScanItem} : Open text quote parts →
      StringPiece text quote true .closed item → Nested text (parts ++ [item])

/-- The pieces of a string that is still open, and its inserted expressions so far. -/
inductive Open (text : List Char) : Char → List ScanItem → Prop where
  | start {quote : Char} {item : ScanItem} {inner : List ScanItem} :
      StringPiece text quote false .opened item → Nested text inner →
      Open text quote (item :: inner)
  | middle {quote : Char} {parts inner : List ScanItem} {item : ScanItem} : Open text quote parts →
      StringPiece text quote true .opened item → Nested text inner →
      Open text quote (parts ++ item :: inner)

end

section

variable {text : List Char}

mutual

theorem Nested.push : ∀ {items : List ScanItem}, Nested text items → ∀ later : List Char,
    Nested (text ++ later) items
  | _, .nil, _ => .nil
  | _, .single hb, _ => .single hb
  | _, .append hfirst hsecond, later => .append (hfirst.push later) (hsecond.push later)
  | _, .braces hinner, later => .braces (hinner.push later)
  | _, .string hparts hitem, later => .string (hparts.push later) (hitem.push later)

theorem Open.push : ∀ {quote : Char} {parts : List ScanItem}, Open text quote parts →
    ∀ later : List Char, Open (text ++ later) quote parts
  | _, _, .start hitem hinner, later => .start (hitem.push later) (hinner.push later)
  | _, _, .middle hparts hitem hinner, later =>
    .middle (hparts.push later) (hitem.push later) (hinner.push later)

end

/-- An inserted expression goes on. -/
theorem Open.append {quote : Char} {parts more : List ScanItem} (h : Open text quote parts)
    (hmore : Nested text more) : Open text quote (parts ++ more) := by
  cases h with
  | start hitem hinner => exact .start hitem (hinner.append hmore)
  | middle hparts hitem hinner =>
    rw [List.append_assoc, List.cons_append]
    exact .middle hparts hitem (hinner.append hmore)

/-! ## Interrupted strings -/

/-- What has been given out when strings are interrupted: each of them is open, and so are as many
braces inside of it as are counted. -/
inductive Opened (text : List Char) : List Segment → List ScanItem → Prop where
  | outside (items : List ScanItem) : Opened text [] items
  | string {quote : Char} {outer : List Segment} {items parts : List ScanItem} :
      Opened text outer items → Open text quote parts →
      Opened text (⟨quote, 0⟩ :: outer) (items ++ parts)
  | brace {quote : Char} {depth : Nat} {outer : List Segment} {items inner : List ScanItem}
      {place : Location} : Opened text (⟨quote, depth⟩ :: outer) items → Nested text inner →
      Opened text (⟨quote, depth + 1⟩ :: outer) (items ++ .ok ⟨.openBrace, place⟩ :: inner)

variable {segments : List Segment} {items : List ScanItem}

theorem Opened.push (h : Opened text segments items) (later : List Char) :
    Opened (text ++ later) segments items := by
  induction h with
  | outside items => exact .outside items
  | string _ hparts ih => exact .string ih (hparts.push later)
  | brace _ hinner ih => exact .brace ih (hinner.push later)

theorem Opened.append {more : List ScanItem} (h : Opened text segments items)
    (hmore : Nested text more) : Opened text segments (items ++ more) := by
  cases h with
  | outside => exact .outside _
  | string houter hparts =>
    rw [List.append_assoc]
    exact .string houter (hparts.append hmore)
  | brace hopened hinner =>
    rw [List.append_assoc, List.cons_append]
    exact .brace hopened (hinner.append hmore)

/-- An opening brace. -/
theorem Opened.deeper (h : Opened text segments items) (place : Location) :
    Opened text (Scan.deeper segments) (items ++ [.ok ⟨.openBrace, place⟩]) := by
  cases segments with
  | nil => exact .outside _
  | cons inner outer => exact .brace h .nil

/-- A closing brace inside of an inserted expression. -/
theorem Opened.shallower {quote : Char} {depth : Nat} {outer : List Segment}
    (h : Opened text (⟨quote, depth + 1⟩ :: outer) items) (place : Location) :
    Opened text (⟨quote, depth⟩ :: outer) (items ++ [.ok ⟨.closeBrace, place⟩]) := by
  cases h with
  | brace hopened hinner =>
    rw [List.append_assoc, List.cons_append]
    exact hopened.append (.braces hinner)

/-- Where an inserted expression ends, its string is open. -/
theorem Opened.exists_open {quote : Char} {outer : List Segment}
    (h : Opened text (⟨quote, 0⟩ :: outer) items) :
    ∃ before parts, items = before ++ parts ∧ Opened text outer before ∧ Open text quote parts := by
  cases h with
  | string houter hparts => exact ⟨_, _, rfl, houter, hparts⟩

end

/-- An item is no piece of a string behind an inserted expression, or it goes on with a string that
is still open, and with its quote. -/
def Resumes (text : List Char) (items : List ScanItem) (item : ScanItem) : Prop :=
  item.isResumed = true → ∃ before parts quote stop, items = before ++ parts ∧
    Open text quote parts ∧ StringPiece text quote true stop item

theorem resumes_of_isResumed {text : List Char} {items : List ScanItem} {item : ScanItem}
    (h : item.isResumed = false) : Resumes text items item :=
  fun hr => absurd (h.symm.trans hr) nofun

theorem Resumes.push {text : List Char} {items : List ScanItem} {item : ScanItem}
    (h : Resumes text items item) (later : List Char) : Resumes (text ++ later) items item := by
  intro hr
  obtain ⟨before, parts, quote, stop, hitems, hopen, hpiece⟩ := h hr
  exact ⟨before, parts, quote, stop, hitems, hopen.push later, hpiece.push later⟩

namespace Scan

variable {lexicon : Lexicon} {text before : List Char} {items : List ScanItem} {s t : Scan}
  {item : ScanItem}

/-- A piece of a string that has been read. -/
theorem stringPiece_of_passes {start head after : Head} {c quote : Char} {body : List Char}
    {stop : StringStop} (resumed : Bool) (hb : start.Behind before)
    (ht : text = before ++ start.rest) (hp : start.Passes head [c])
    (hc : c = if resumed then '\x7d' else quote) (hquotes : Quotes quote true)
    (hends : stop.Ends quote true head.rest body after.rest)
    (hpasses : head.Passes after (body ++ stop.delimiter quote)) :
    StringPiece text quote resumed stop
      (stop.item resumed (String.ofList (Text.meant true body)) (after.since start)) := by
  have hwhole := hp.trans hpasses
  subst hc
  refine ⟨hquotes, before, body, after.rest, ?_, hends.alone, ?_⟩
  · rw [ht, hwhole.rest]
    rfl
  · rw [hwhole.since_eq hb]
    rfl

section

variable {start head : Head} {c quote : Char} {decoded : Bool}

/-- A string begins. -/
theorem Read.starts (h : s.Read start head quote decoded false (item, t)) (hb : start.Behind before)
    (ht : text = before ++ start.rest) (hp : start.Passes head [quote])
    (hquotes : Quotes quote decoded) (ho : Opened text s.segments items) :
    Resumes text items item ∧ (Opened text t.segments (items ++ [item]) ∨ t.head.rest = []) := by
  cases h with
  | closed => exact ⟨resumes_of_isResumed rfl, .inl (ho.append (.single rfl))⟩
  | opened ends passes htext =>
    obtain rfl := ends.decoded rfl
    subst htext
    have hpiece := stringPiece_of_passes false hb ht hp rfl hquotes ends passes
    exact ⟨resumes_of_isResumed rfl, .inl (ho.string (.start hpiece .nil))⟩
  | unterminated ends => exact ⟨resumes_of_isResumed rfl, .inr (ends.exhausted rfl)⟩

/-- A string that is open goes on. -/
theorem Read.resumes {earlier parts : List ScanItem}
    (h : s.Read start head quote true true (item, t)) (hb : start.Behind before)
    (ht : text = before ++ start.rest) (hp : start.Passes head ['\x7d'])
    (hquotes : Quotes quote true) (houter : Opened text s.segments earlier)
    (hopen : Open text quote parts) :
    Resumes text (earlier ++ parts) item ∧
      (Opened text t.segments (earlier ++ parts ++ [item]) ∨ t.head.rest = []) := by
  cases h with
  | closed ends passes htext =>
    subst htext
    have hpiece := stringPiece_of_passes true hb ht hp rfl hquotes ends passes
    refine ⟨fun _ => ⟨_, _, _, _, rfl, hopen, hpiece⟩, .inl ?_⟩
    rw [List.append_assoc]
    exact houter.append (.string hopen hpiece)
  | opened ends passes htext =>
    subst htext
    have hpiece := stringPiece_of_passes true hb ht hp rfl hquotes ends passes
    refine ⟨fun _ => ⟨_, _, _, _, rfl, hopen, hpiece⟩, .inl ?_⟩
    rw [List.append_assoc]
    exact houter.string (.middle hopen hpiece .nil)
  | unterminated ends => exact ⟨resumes_of_isResumed rfl, .inr (ends.exhausted rfl)⟩

end

/-- What reading a token does to the interrupted strings; a string that does not end leaves no
text. -/
theorem Taken.opened (h : s.Taken s.head (item, t)) (hs : Standing lexicon text s before)
    (ho : Opened text s.segments items) :
    Resumes text items item ∧ (Opened text t.segments (items ++ [item]) ∨ t.head.rest = []) := by
  generalize hr : (item, t) = r at h
  cases h with
  | @plain head kind c more hk =>
    cases hr
    have hbracket : kind.isBracket = false := by
      unfold TokenKind.isPlain at hk
      simp only [Bool.and_eq_true, Bool.not_eq_true'] at hk
      exact hk.1.1
    exact ⟨resumes_of_isResumed (ScanItem.isResumed_of_isBracket hbracket),
      .inl (ho.append (.single hbracket))⟩
  | unexpected =>
    cases hr
    exact ⟨resumes_of_isResumed rfl, .inl (ho.append (.single rfl))⟩
  | openBrace _ hd =>
    cases hr
    subst hd
    exact ⟨resumes_of_isResumed rfl, .inl (ho.deeper _)⟩
  | looseBrace _ houtside =>
    cases hr
    refine ⟨resumes_of_isResumed rfl, .inl ?_⟩
    dsimp only
    rw [houtside]
    exact .outside _
  | closeBrace _ hinside =>
    cases hr
    rw [hinside] at ho
    exact ⟨resumes_of_isResumed rfl, .inl (ho.shallower _)⟩
  | @string head quote decoded hquotes hp =>
    have hread := s.string_read s.head head hquotes.ne_backslash decoded false
    rw [← hr] at hread
    exact hread.starts hs.behind hs.split hp hquotes ho
  | @resumed head quote outer hp hinside =>
    rw [hinside] at ho
    have hquotes := (quoted_cons.1 (hinside ▸ hs.quoted)).1
    obtain ⟨earlier, parts, rfl, houter, hopen⟩ := ho.exists_open
    have hread :=
      { s with segments := outer }.string_read s.head head hquotes.ne_backslash true true
    rw [← hr] at hread
    exact hread.resumes hs.behind hs.split hp hquotes houter hopen

/-! ## Runs -/

/-- What is known of the items that have been given out: those behind inserted expressions go on
with open strings, and the interrupted strings are open, unless a string that does not end has
taken the rest of a complete text. -/
structure Interrupted (text : List Char) (items : List ScanItem) (s : Scan) : Prop where
  resumes : ∀ earlier item later, items = earlier ++ item :: later → Resumes text earlier item
  opened : Opened text s.segments items ∨ s.closed = true ∧ s.head.rest = []

/-- One more item. -/
theorem resumes_concat {earlier later : List ScanItem} {next : ScanItem}
    (h : ∀ earlier item later, items = earlier ++ item :: later → Resumes text earlier item)
    (hn : Resumes text items next) (he : items ++ [next] = earlier ++ item :: later) :
    Resumes text earlier item := by
  rcases List.eq_nil_or_concat later with rfl | ⟨more, last, rfl⟩
  · obtain ⟨rfl, hitem⟩ := List.append_inj' he rfl
    obtain rfl := (List.cons.inj hitem).1
    exact hn
  · rw [List.concat_eq_append, ← List.cons_append, ← List.append_assoc] at he
    exact h earlier item more (List.append_inj' he rfl).1

/-- An item that is no part of a string with expressions. -/
theorem Interrupted.single (h : Interrupted text items s) (hi : item.isBracket = false)
    (hsegments : t.segments = s.segments) (hc : t.closed = s.closed)
    (hr : s.head.rest = [] → t.head.rest = []) : Interrupted text (items ++ [item]) t where
  resumes _ _ _ he :=
    resumes_concat h.resumes (resumes_of_isResumed (ScanItem.isResumed_of_isBracket hi)) he
  opened := by
    rcases h.opened with ho | ⟨hclosed, hrest⟩
    · rw [hsegments]
      exact .inl (ho.append (.single hi))
    · exact .inr ⟨hc.trans hclosed, hr hrest⟩

theorem skipBlanks_rest (h : s.head.rest = []) : s.skipBlanks.head.rest = [] := by
  have := s.head.length_advanceWhile Text.isBlank
  rw [h] at this
  exact List.length_eq_zero_iff.1 (Nat.le_zero.1 this)

/-- Asking for an item. -/
theorem Interrupted.next {item : Option ScanItem} (h : Interrupted text items s)
    (hs : Standing lexicon text s before) (hn : s.next = (item, t)) :
    Interrupted text (items ++ item.toList) t := by
  obtain ⟨gap, -, hskip⟩ := hs.skipBlanks
  cases next_step hn with
  | pending => exact h.single rfl rfl rfl id
  | finished =>
    rw [Option.toList_none, List.append_nil]
    exact h
  | waits =>
    rw [Option.toList_none, List.append_nil]
    exact ⟨h.resumes, h.opened.imp id fun ⟨hc, hr⟩ => ⟨hc, skipBlanks_rest hr⟩⟩
  | ends => exact h.single rfl rfl rfl skipBlanks_rest
  | @token item t _ _ ht hmore =>
    obtain ⟨lexeme, hl, -⟩ := hskip.lexed ht
    rcases h.opened with ho | ⟨-, hrest⟩
    · obtain ⟨hresumes, hopened⟩ := ht.opened hskip ho
      refine ⟨fun _ _ _ he => resumes_concat h.resumes hresumes he, hopened.imp id fun hr => ?_⟩
      refine ⟨Bool.not_eq_false _ ▸ fun hc => hmore ?_ hr, hr⟩
      exact hl.closed.symm.trans hc
    · have hsplit := hl.passes.rest
      rw [skipBlanks_rest hrest] at hsplit
      exact absurd (List.append_eq_nil_iff.1 hsplit.symm).1 hl.ne_nil

theorem Run.interrupted (h : Run lexicon text items s) : Interrupted text items s := by
  induction h with
  | empty => exact ⟨fun earlier item later he => by simp at he, .inl (.outside _)⟩
  | @push text items s piece _ hopen ih =>
    refine ⟨fun earlier item later he => (ih.resumes earlier item later he).push _, ?_⟩
    rcases ih.opened with ho | ⟨hc, -⟩
    · exact .inl (ho.push _)
    · exact absurd (hopen.symm.trans hc) nofun
  | close _ ih => exact ⟨ih.resumes, ih.opened.imp id fun ⟨_, hr⟩ => ⟨rfl, hr⟩⟩
  | next hrun hn ih =>
    obtain ⟨before, hs⟩ := hrun.standing
    exact ih.next hs hn

/-- A piece of a string behind an inserted expression is given out only where a string is open: the
items before it end in the pieces of that string and its inserted expressions, in each of which
every brace and every string is closed, and the piece goes on with the quote of the string. -/
theorem Run.exists_open_of_isResumed (h : Run lexicon text items s) {earlier later : List ScanItem}
    (hi : items = earlier ++ item :: later) (hr : item.isResumed = true) :
    ∃ before parts quote stop, earlier = before ++ parts ∧ Open text quote parts ∧
      StringPiece text quote true stop item :=
  h.interrupted.resumes earlier item later hi hr

/-- The end of a string with one name in it. -/
theorem exists_open_name :
    ∃ before parts quote stop,
      [.ok ⟨.stringStart "a ", .of [] "'a $\x7b".toList⟩,
        .ok ⟨.identifier "x", .of "'a $\x7b".toList ['x']⟩] = before ++ parts ∧
      Open "'a $\x7bx\x7d b'".toList quote parts ∧
      StringPiece "'a $\x7bx\x7d b'".toList quote true stop
        (.ok ⟨.stringEnd " b", .of "'a $\x7bx".toList "\x7d b'".toList⟩) := by
  have hnext : ∀ {items : List ScanItem} {s : Scan},
      Run .standard "'a $\x7bx\x7d b'".toList items s →
      Run .standard "'a $\x7bx\x7d b'".toList (items ++ s.next.1.toList) s.next.2 :=
    fun h => h.next rfl
  have hrun := hnext (hnext (hnext (run_ofText .standard "'a $\x7bx\x7d b'")))
  exact @Run.exists_open_of_isResumed _ _ _ _ _ hrun _ [] (by decide +kernel) rfl

end Scan

end Juxta
