import Juxta.Proofs.Token.Ahead

/-!
# Text that arrives in pieces

* `Scan.Feed`, `Scan.feed` : pieces of text, with items asked for in between;
* `Scan.pieced` : all items of a text that arrives so;
* `Scan.SplitsIn` : whether a number is split;
* `Scan.feed_eq_iff`, `Scan.pieced_eq_items_iff` : the items are those of the whole text exactly if
  no number is split.
-/

namespace Juxta.Scan

/-! ## All items -/

theorem drain_of_next_none {s t : Scan} (h : s.next = (none, t)) : s.drain = ([], t) := by
  rw [drain]
  split
  · rename_i t' h'
    rw [h] at h'
    cases h'
    rfl
  · rename_i h'
    rw [h] at h'
    cases h'

theorem drain_of_next_some {s t : Scan} {item : ScanItem} (h : s.next = (some item, t)) :
    s.drain = (item :: t.drain.1, t.drain.2) := by
  rw [drain]
  split
  · rename_i h'
    rw [h] at h'
    cases h'
  · rename_i item' t' h'
    rw [h] at h'
    cases h'
    rfl

theorem drain_congr {s t : Scan} (h : s.next = t.next) : s.drain = t.drain := by
  cases hn : t.next with
  | mk item? u =>
    cases item? with
    | none => rw [drain_of_next_none hn, drain_of_next_none (h.trans hn)]
    | some item => rw [drain_of_next_some hn, drain_of_next_some (h.trans hn)]

/-- What is done with a scan before the end of the text: a piece of text is added, or an item is
asked for. -/
inductive Feed where
  | push (text : String)
  | next

namespace Feed

/-- All text that is added. -/
def text : List Feed → String
  | [] => ""
  | .push piece :: rest => piece ++ text rest
  | .next :: rest => text rest

end Feed

/-- The items given out in the course of some steps, and the state after them. -/
def feed (s : Scan) : List Feed → List ScanItem × Scan
  | [] => ([], s)
  | .push piece :: rest => (s.push piece).feed rest
  | .next :: rest =>
    let (items, t) := s.next.2.feed rest
    (s.next.1.toList ++ items, t)

/-- All items of a text that arrives step by step and then ends. -/
def pieced (lexicon : Lexicon) (steps : List Feed) : List ScanItem :=
  let (items, s) := (empty lexicon).feed steps
  items ++ s.close.drain.1

/-- Whether one of the items asked for is a number that goes on with the text after it. -/
def SplitsIn (s : Scan) : List Feed → Prop
  | [] => False
  | .push piece :: rest => (s.push piece).SplitsIn rest
  | .next :: rest => s.Splits (Feed.text rest) ∨ s.next.2.SplitsIn rest

theorem push_push (s : Scan) (a b : String) : (s.push a).push b = s.push (a ++ b) := by
  unfold push
  simp only [String.toList_append, String.utf8ByteSize_append, List.append_assoc, Nat.add_assoc]

theorem push_empty (s : Scan) : s.push "" = s := by
  unfold push
  simp

/-- Whatever is asked for while the text arrives, the items are those of the whole text exactly if
no number is split. -/
theorem feed_eq_iff {s : Scan} (hc : s.closed = false) (hf : s.finished = false)
    (steps : List Feed) :
    (s.feed steps).1 ++ (s.feed steps).2.close.drain.1 =
      (s.complete (Feed.text steps)).drain.1 ↔ ¬ s.SplitsIn steps := by
  induction steps generalizing s with
  | nil =>
    unfold complete
    rw [show Feed.text [] = "" from rfl, push_empty]
    exact ⟨fun _ h => h, fun _ => rfl⟩
  | cons step rest ih =>
    cases step with
    | push piece =>
      have hpush : s.complete (Feed.text (.push piece :: rest)) =
          (s.push piece).complete (Feed.text rest) := by
        unfold complete
        rw [push_push]
        rfl
      rw [hpush]
      exact ih hc hf
    | next =>
      have htext : Feed.text (.next :: rest) = Feed.text rest := rfl
      have hsplits : s.SplitsIn (.next :: rest) ↔
          s.Splits (Feed.text rest) ∨ s.next.2.SplitsIn rest := Iff.rfl
      have hfeed : s.feed (.next :: rest) =
          (s.next.1.toList ++ (s.next.2.feed rest).1, (s.next.2.feed rest).2) := rfl
      rw [htext, hsplits, hfeed]
      cases hn : s.next with
      | mk item? t =>
        cases item? with
        | none =>
          obtain ⟨hf', hc', hsame⟩ := next_complete_of_none hf hn (Feed.text rest)
          have hnot : ¬ s.Splits (Feed.text rest) := by
            intro hs
            exact next_ne_none_of_splits hf hs (congrArg Prod.fst hn)
          rw [drain_congr hsame, or_iff_right hnot]
          exact ih (hc'.trans hc) hf'
        | some item =>
          obtain ⟨hf', hc', hsame, hother⟩ := next_complete_of_some hc hf hn (Feed.text rest)
          by_cases hs : s.Splits (Feed.text rest)
          · refine iff_of_false (fun he => ?_) fun h => h (Or.inl hs)
            cases hn' : (s.complete (Feed.text rest)).next with
            | mk other? u =>
              cases other? with
              | none =>
                rw [drain_of_next_none hn'] at he
                cases he
              | some other =>
                rw [drain_of_next_some hn'] at he
                cases (List.cons.inj he).1
                exact hother hs u hn'
          · rw [drain_of_next_some (hsame hs), or_iff_right hs]
            refine Iff.trans ?_ (ih hc' hf')
            exact ⟨fun h => (List.cons.inj h).2, fun h => congrArg (item :: ·) h⟩

/-- The items of a text do not depend on how it arrives, unless an item is asked for while the text
so far ends in the digits of a number and a point, and a digit comes next: then the number is given
out without its fraction. -/
theorem pieced_eq_items_iff (lexicon : Lexicon) (steps : List Feed) :
    pieced lexicon steps = items lexicon (Feed.text steps) ↔
      ¬ (empty lexicon).SplitsIn steps :=
  feed_eq_iff rfl rfl steps

/-- An item that is asked for after a one and a point is the number one, although a five follows. -/
theorem pieced_ne_items :
    pieced .standard [.push "1.", .next, .push "5"] ≠ items .standard "1.5" := by
  have hsplits : (empty .standard).SplitsIn [.push "1.", .next, .push "5"] := by
    refine Or.inl ⟨rfl, '1', ['.'], ?_, ?_, ?_, '5', ?_, ?_⟩ <;> decide
  intro he
  exact (feed_eq_iff rfl rfl [.push "1.", .next, .push "5"]).1 he hsplits

end Juxta.Scan
