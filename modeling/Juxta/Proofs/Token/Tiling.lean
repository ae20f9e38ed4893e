import Juxta.Proofs.Token.Runs

/-!
# Items tile the text

The items of a text cut it into tiles: a gap of blanks, a lexeme with the item that it is the place
of, and the errors that are found inside it.

* `Tile`, `Laid` : tiles that lie one behind the other;
* `Laid.pairwise`, `Tile.LiesBehind.encloses` : the stretches of bytes that they cover;
* `Scan.Tiled` : what has been read in the course of a run, as tiles (`Scan.Run.tiled`);
* `Scan.items_tile` : the items of a whole text.
-/

namespace Juxta

/-! ## Tiles -/

/-- A gap, a lexeme and what is given out for it. -/
structure Tile where
  gap : List Char
  lexeme : List Char
  item : ScanItem
  /-- The errors inside the lexeme, which come behind the item. -/
  escapes : List ScanError

namespace Tile

/-- The text that a tile covers. -/
def chars (tile : Tile) : List Char := tile.gap ++ tile.lexeme

/-- What is given out for a tile. -/
def items (tile : Tile) : List ScanItem := tile.item :: tile.escapes.map .error

/-- The bytes of the lexeme. -/
def span (tile : Tile) : Span := tile.item.location.span

/-- A tile lies behind a text: its gap is blank, its item has the place of its lexeme, and only the
lexeme of a string has errors, each at the place of a character inside. -/
structure LiesBehind (before : List Char) (tile : Tile) : Prop where
  blank : ∀ c ∈ tile.gap, Text.isBlank c = true
  location : tile.item.location = .of (before ++ tile.gap) tile.lexeme
  whole : ∀ c place, tile.item ≠ .error (.unknownEscape c place)
  escapes : ∀ e ∈ tile.escapes, tile.item.isString = true ∧ ∃ c a b, tile.lexeme = a ++ c :: b ∧
    e = .unknownEscape c (.of (before ++ tile.gap ++ a) [c])

section

variable {before : List Char} {tile : Tile}

/-- Errors lie inside the bytes of the lexeme. -/
theorem LiesBehind.encloses (h : tile.LiesBehind before) {e : ScanError} (he : e ∈ tile.escapes) :
    tile.span.start ≤ e.location.span.start ∧ e.location.span.stop ≤ tile.span.stop := by
  obtain ⟨-, c, a, b, hlexeme, rfl⟩ := h.escapes e he
  have hsize : Text.bytes tile.lexeme = Text.bytes a + (Text.bytes [c] + Text.bytes b) := by
    rw [hlexeme, Text.bytes_append, ← Text.bytes_append [c] b]
    rfl
  unfold span
  rw [h.location]
  unfold Span.stop Location.of ScanError.location
  dsimp only
  rw [hsize, Text.bytes_append _ a]
  omega

/-- A tile begins behind the text before it, and ends where the text with it does. -/
theorem LiesBehind.bounds (h : tile.LiesBehind before) :
    Text.bytes before ≤ tile.span.start ∧ tile.span.stop = Text.bytes (before ++ tile.chars) := by
  unfold span chars
  rw [h.location]
  unfold Span.stop Location.of
  dsimp only
  rw [← Text.bytes_append, ← List.append_assoc, Text.bytes_append]
  exact ⟨Nat.le_add_right .., rfl⟩

end

end Tile

/-- Tiles that lie one behind the other, the first one behind a text. -/
def Laid (before : List Char) : List Tile → Prop
  | [] => True
  | tile :: rest => tile.LiesBehind before ∧ Laid (before ++ tile.chars) rest

section

variable {before : List Char} {tiles : List Tile} {tile : Tile}

theorem Laid.snoc (h : Laid before tiles)
    (ht : tile.LiesBehind (before ++ tiles.flatMap Tile.chars)) :
    Laid before (tiles ++ [tile]) := by
  induction tiles generalizing before with
  | nil =>
    rw [List.flatMap_nil, List.append_nil] at ht
    exact ⟨ht, trivial⟩
  | cons first rest ih =>
    refine ⟨h.1, ih h.2 ?_⟩
    rwa [List.flatMap_cons, ← List.append_assoc] at ht

theorem Laid.le_start (h : Laid before tiles) (ht : tile ∈ tiles) :
    Text.bytes before ≤ tile.span.start := by
  induction tiles generalizing before with
  | nil => cases ht
  | cons first rest ih =>
    rcases List.mem_cons.1 ht with rfl | ht
    · exact h.1.bounds.1
    · have hrest := ih h.2 ht
      rw [Text.bytes_append] at hrest
      exact Nat.le_of_add_right_le hrest

/-- The bytes of lexemes are in order and do not overlap. -/
theorem Laid.pairwise (h : Laid before tiles) :
    tiles.Pairwise fun a b => a.span.stop ≤ b.span.start := by
  induction tiles generalizing before with
  | nil => exact .nil
  | cons first rest ih =>
    refine .cons (fun tile ht => ?_) (ih h.2)
    rw [h.1.bounds.2]
    exact h.2.le_start ht

theorem Laid.exists_liesBehind (h : Laid before tiles) (ht : tile ∈ tiles) :
    ∃ before, tile.LiesBehind before := by
  induction tiles generalizing before with
  | nil => cases ht
  | cons first rest ih =>
    rcases List.mem_cons.1 ht with rfl | ht
    · exact ⟨before, h.1⟩
    · exact ih h.2 ht

end

/-! ## Runs -/

namespace Scan

/-- Tiles that cover a text, and what is given out for them. -/
structure Covers (tiles : List Tile) (text : List Char) (items : List ScanItem) : Prop where
  text : tiles.flatMap Tile.chars = text
  items : tiles.flatMap Tile.items = items
  laid : Laid [] tiles

/-- One more tile. -/
theorem Covers.snoc {tiles : List Tile} {text : List Char} {items : List ScanItem} {tile : Tile}
    (h : Covers tiles text items) (ht : tile.LiesBehind text) :
    Covers (tiles ++ [tile]) (text ++ tile.chars) (items ++ tile.items) where
  text := by rw [List.flatMap_append, h.text, List.flatMap_singleton]
  items := by rw [List.flatMap_append, h.items, List.flatMap_singleton]
  laid := h.laid.snoc (by rwa [List.nil_append, h.text])

/-- Tiles of tokens and errors; none of them is that of the end of the text. -/
def Ordinary (tiles : List Tile) : Prop :=
  ∀ tile ∈ tiles, tile.lexeme ≠ [] ∧ ∀ token, tile.item = .ok token → token.kind ≠ .endOfText

/-- The tile of the end of a text, behind a last gap. -/
structure IsEnd (text : List Char) (tile : Tile) : Prop where
  lexeme : tile.lexeme = []
  item : tile.item = .ok ⟨.endOfText, .of text []⟩
  escapes : tile.escapes = []

/-- What a run has read: tiles and a gap behind them, and in the end the tile of the end. Errors
that are still to be given out are those of the last tile. -/
inductive Tiled (text : List Char) (items : List ScanItem) (s : Scan) (before : List Char) :
    Prop where
  | reading {tiles : List Tile} {covered gap : List Char} : s.finished = false →
      Covers tiles covered (items ++ s.pending.map .error) → Ordinary tiles →
      before = covered ++ gap → (∀ c ∈ gap, Text.isBlank c = true) → Tiled text items s before
  | finished {tiles : List Tile} {last : Tile} : s.finished = true → s.closed = true →
      s.pending = [] → Covers (tiles ++ [last]) text items → Ordinary tiles → IsEnd text last →
      Tiled text items s before

variable {lexicon : Lexicon} {text before : List Char} {items : List ScanItem} {s t : Scan}

/-- One more lexeme behind a gap. -/
theorem Covers.lexeme {tiles : List Tile} {covered gap lexeme : List Char} {item : ScanItem}
    {escapes : List ScanError} (h : Covers tiles covered items)
    (ht : Tile.LiesBehind covered ⟨gap, lexeme, item, escapes⟩) :
    Covers (tiles ++ [⟨gap, lexeme, item, escapes⟩]) (covered ++ gap ++ lexeme)
      (items ++ [item] ++ escapes.map .error) := by
  rw [List.append_assoc covered, List.append_assoc items]
  exact h.snoc ht

/-- The end of the text behind a gap. -/
theorem liesBehind_end {covered gap : List Char} (hblank : ∀ c ∈ gap, Text.isBlank c = true) :
    Tile.LiesBehind covered ⟨gap, [], .ok ⟨.endOfText, .of (covered ++ gap) []⟩, []⟩ where
  blank := hblank
  location := rfl
  whole := nofun
  escapes _ he := absurd he List.not_mem_nil

/-- A token or error behind a gap. -/
theorem Lexed.liesBehind {start : Head} {covered gap lexeme : List Char} {item : ScanItem}
    (h : s.Lexed start item t lexeme) (hp : s.pending = []) (hb : start.Behind (covered ++ gap))
    (hblank : ∀ c ∈ gap, Text.isBlank c = true) :
    Tile.LiesBehind covered ⟨gap, lexeme, item, t.pending⟩ where
  blank := hblank
  location := h.location.trans (h.passes.since_eq hb)
  whole := h.whole
  escapes e he := by
    rcases h.escapes e he with he | ⟨⟨c, a, b, hlexeme, hplace⟩, hstring⟩
    · rw [hp] at he
      cases he
    · exact ⟨hstring, c, a, b, hlexeme, hplace _ hb⟩

/-- Asking for an item. -/
theorem Tiled.next {item : Option ScanItem} (h : Tiled text items s before)
    (hs : Standing lexicon text s before) (hn : s.next = (item, t)) :
    ∃ before, Standing lexicon text t before ∧ Tiled text (items ++ item.toList) t before := by
  obtain ⟨gap', hblank', hskip⟩ := hs.skipBlanks
  have hstep := next_step hn
  cases h with
  | finished hf hc hp hcovers hordinary hlast =>
    cases hstep with
    | pending he =>
      rw [hp] at he
      cases he
    | finished =>
      refine ⟨before, hs, ?_⟩
      rw [Option.toList_none, List.append_nil]
      exact .finished hf hc hp hcovers hordinary hlast
    | waits _ hopen => exact absurd (hc.symm.trans hopen) nofun
    | ends _ hf' => exact absurd (hf.symm.trans hf') nofun
    | token _ hf' => exact absurd (hf.symm.trans hf') nofun
  | @reading tiles covered gap hf hcovers hordinary hbefore hblank =>
    subst hbefore
    have hgap : ∀ c ∈ gap ++ gap', Text.isBlank c = true :=
      fun c hc => (List.mem_append.1 hc).elim (hblank c) (hblank' c)
    rw [List.append_assoc] at hskip
    cases hstep with
    | @pending error rest he =>
      refine ⟨_, ⟨hs.split, hs.behind, hs.lexicon, hs.quoted⟩, .reading hf ?_ hordinary rfl hblank⟩
      rw [he] at hcovers
      rw [Option.toList_some, List.append_assoc]
      exact hcovers
    | finished _ hf' => exact absurd (hf.symm.trans hf') nofun
    | waits hp hopen =>
      refine ⟨_, hskip, .reading hf ?_ hordinary rfl hgap⟩
      rw [Option.toList_none, List.append_nil]
      exact hcovers
    | ends hp _ hc hr =>
      refine ⟨_, ⟨hskip.split, hskip.behind, hskip.lexicon, hskip.quoted⟩, ?_⟩
      have htext : text = covered ++ (gap ++ gap') := by
        rw [hskip.split, hr, List.append_nil]
      rw [hp, List.map_nil, List.append_nil] at hcovers
      have hnew := hcovers.lexeme (liesBehind_end hgap)
      rw [(Head.Passes.refl _).since_eq hskip.behind, ← htext]
      rw [← htext, List.append_nil, List.map_nil, List.append_nil] at hnew
      exact .finished rfl hc hp hnew hordinary ⟨rfl, rfl, rfl⟩
    | @token item t hp _ ht hmore =>
      obtain ⟨lexeme, hl, hs'⟩ := hskip.lexed ht
      refine ⟨_, hs', ?_⟩
      rw [hp, List.map_nil, List.append_nil] at hcovers
      have hnew := hcovers.lexeme (hl.liesBehind hp hskip.behind hgap)
      rw [← List.append_nil (covered ++ (gap ++ gap') ++ lexeme)]
      refine .reading (hl.finished.trans hf) hnew ?_ rfl fun _ hc => absurd hc List.not_mem_nil
      · intro tile htile
        rcases List.mem_append.1 htile with htile | htile
        · exact hordinary tile htile
        · rw [List.mem_singleton.1 htile]
          exact ⟨hl.ne_nil, hl.ordinary⟩

/-- What a run has read is tiled. -/
theorem Run.tiled (h : Run lexicon text items s) :
    ∃ before, Standing lexicon text s before ∧ Tiled text items s before := by
  induction h with
  | empty =>
    have hcovers : Covers [] [] [] := ⟨rfl, rfl, trivial⟩
    have hstanding : Standing lexicon [] (Scan.empty lexicon) [] := ⟨rfl, ⟨rfl, rfl⟩, rfl, nofun⟩
    exact ⟨[], hstanding, .reading rfl hcovers nofun rfl nofun⟩
  | @push text items s piece _ hopen ih =>
    obtain ⟨before, hs, ht⟩ := ih
    refine ⟨before, hs.push piece, ?_⟩
    cases ht with
    | reading hf hcovers hordinary hbefore hblank =>
      exact .reading hf hcovers hordinary hbefore hblank
    | finished _ hc => exact absurd (hopen.symm.trans hc) nofun
  | close _ ih =>
    obtain ⟨before, hs, ht⟩ := ih
    refine ⟨before, hs.close, ?_⟩
    cases ht with
    | reading hf hcovers hordinary hbefore hblank =>
      exact .reading hf hcovers hordinary hbefore hblank
    | finished hf _ hp hcovers hordinary hlast => exact .finished hf rfl hp hcovers hordinary hlast
  | next _ hn ih =>
    obtain ⟨before, hs, ht⟩ := ih
    exact ht.next hs hn

/-- The items of a text are those of tiles that cover it, one behind the other: each item has the
place of a lexeme, with nothing but blanks between two of them, and errors inside strings come
behind the string. The last tile, and no other, is that of the end of the text. Afterwards there is
no item for ever. -/
theorem items_tile (lexicon : Lexicon) (text : String) :
    ∃ tiles last, Covers (tiles ++ [last]) text.toList (Scan.items lexicon text) ∧ Ordinary tiles ∧
      IsEnd text.toList last ∧
      (tiles ++ [last]).Pairwise (fun a b => a.span.stop ≤ b.span.start) ∧
      (∀ tile ∈ tiles ++ [last], ∀ e ∈ tile.escapes,
        tile.span.start ≤ e.location.span.start ∧ e.location.span.stop ≤ tile.span.stop) ∧
      (ofText lexicon text).drain.2.next = (none, (ofText lexicon text).drain.2) := by
  obtain ⟨hclosed, hend⟩ := next_drain (s := ofText lexicon text) rfl
  obtain ⟨before, -, htiled⟩ := (run_items lexicon text).tiled
  cases htiled with
  | reading hf =>
    have hover := (next_none hclosed hend).2.2
    exact absurd (hf.symm.trans hover) nofun
  | @finished tiles last _ _ _ hcovers hordinary hlast =>
    refine ⟨tiles, last, hcovers, hordinary, hlast, hcovers.laid.pairwise, ?_, hend⟩
    intro tile htile e he
    obtain ⟨before, hlies⟩ := hcovers.laid.exists_liesBehind htile
    exact hlies.encloses he

end Scan

end Juxta
