import Juxta.Proofs.Token.Pieces
import Juxta.Proofs.Token.Tiling

/-!
# Tokens in reading order

* `Scan.tokens` : the tokens of a text, without what is no token;
* `Position.behind_le_append` : more text is read further on;
* `Scan.tokens_ordered` : no token ends before an earlier one does.
-/

namespace Juxta

/-! ## Positions -/

namespace Position

theorem le_after (p : Position) (c : Char) : p.le (p.after c) = true := by
  unfold after
  split
  · simp [le]
  · simp [le]

/-- More text is read further on. -/
theorem behind_le_append (before more : List Char) :
    (behind before).le (behind (before ++ more)) = true := by
  induction more generalizing before with
  | nil =>
    rw [List.append_nil]
    exact le_refl _
  | cons c rest ih =>
    have hnext : (behind before).le (behind (before ++ [c])) = true := by
      rw [behind_append_singleton]
      exact le_after _ c
    rw [← List.singleton_append, ← List.append_assoc]
    exact le_trans hnext (ih (before ++ [c]))

end Position

/-! ## Tiles -/

namespace Tile

/-- Where the lexeme of a tile ends. -/
def stop (tile : Tile) : Position := tile.item.location.coord.stop

theorem LiesBehind.stop_eq {before : List Char} {tile : Tile} (h : tile.LiesBehind before) :
    tile.stop = .behind (before ++ tile.chars) := by
  unfold stop chars
  rw [h.location, ← List.append_assoc]
  rfl

end Tile

section

variable {before : List Char} {tiles : List Tile} {tile : Tile}

theorem Laid.behind_le_stop (h : Laid before tiles) (ht : tile ∈ tiles) :
    (Position.behind before).le tile.stop = true := by
  induction tiles generalizing before with
  | nil => cases ht
  | cons first rest ih =>
    rcases List.mem_cons.1 ht with rfl | ht
    · rw [h.1.stop_eq]
      exact Position.behind_le_append _ _
    · exact Position.le_trans (Position.behind_le_append before _) (ih h.2 ht)

/-- Lexemes end in order. -/
theorem Laid.stops (h : Laid before tiles) :
    tiles.Pairwise fun a b => a.stop.le b.stop = true := by
  induction tiles generalizing before with
  | nil => exact .nil
  | cons first rest ih =>
    refine .cons (fun tile ht => ?_) (ih h.2)
    rw [h.1.stop_eq]
    exact h.2.behind_le_stop ht

end

/-! ## Tokens -/

namespace Scan

/-- The tokens of a text. -/
def tokens (lexicon : Lexicon) (text : String) : List Token :=
  (items lexicon text).filterMap Except.toOption

/-- The items of a scan, one at a time. -/
theorem drain_of_next {s : Scan} {item : ScanItem} {rest : List ScanItem}
    (h : s.next.1 = some item) (hrest : s.next.2.drain.1 = rest) : s.drain.1 = item :: rest := by
  rw [drain_of_next_some (Prod.ext h rfl), hrest]

theorem drain_of_end {s : Scan} (h : s.next.1 = none) : s.drain.1 = [] := by
  rw [drain_of_next_none (Prod.ext h rfl)]

/-- Every tile gives one token at most: the errors inside its lexeme are none. -/
theorem filterMap_items (tiles : List Tile) :
    (tiles.flatMap Tile.items).filterMap Except.toOption =
      tiles.filterMap fun tile => tile.item.toOption := by
  induction tiles with
  | nil => rfl
  | cons tile rest ih =>
    have hnone : (tile.escapes.map fun e => (.error e : ScanItem)).filterMap Except.toOption =
        [] := by
      rw [List.filterMap_map, List.filterMap_eq_nil_iff]
      exact fun _ _ => rfl
    rw [List.flatMap_cons, List.filterMap_append, ih]
    unfold Tile.items
    rw [List.filterMap_cons, List.filterMap_cons, hnone]
    cases tile.item <;> rfl

/-- No token ends before an earlier one does. -/
theorem tokens_ordered (lexicon : Lexicon) (text : String) : (tokens lexicon text).Pairwise
    fun a b => a.location.coord.stop.le b.location.coord.stop = true := by
  obtain ⟨tiles, last, hcovers, -⟩ := items_tile lexicon text
  unfold tokens
  rw [← hcovers.items, filterMap_items, List.pairwise_filterMap]
  refine hcovers.laid.stops.imp fun {a b} hle token htoken other hother => ?_
  unfold Tile.stop at hle
  cases ha : a.item with
  | error e => rw [ha] at htoken; cases htoken
  | ok first =>
    cases hb : b.item with
    | error e => rw [hb] at hother; cases hother
    | ok second =>
      rw [ha, hb] at hle
      rw [ha] at htoken
      rw [hb] at hother
      cases htoken
      cases hother
      exact hle

end Scan

end Juxta
