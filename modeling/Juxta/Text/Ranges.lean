/-!
# Sets of characters given by ranges of code points

* `Ranges` : a list of closed ranges in ascending order;
* `Ranges.contains` : membership, which stops at the first range that starts above the character;
* `Ranges.exists_of_contains` : a member lies in one of the ranges.
-/

namespace Juxta.Text

/-- Closed ranges of code points, in ascending order and without overlap. -/
abbrev Ranges := List (Nat × Nat)

namespace Ranges

/-- Whether the code point `n` lies in one of the ranges. -/
def contains : Ranges → Nat → Bool
  | [], _ => false
  | (low, high) :: rest, n => if n < low then false else n ≤ high || contains rest n

theorem exists_of_contains {table : Ranges} {n : Nat} (h : table.contains n = true) :
    ∃ range ∈ table, range.1 ≤ n ∧ n ≤ range.2 := by
  induction table with
  | nil => simp [contains] at h
  | cons range rest ih =>
    obtain ⟨low, high⟩ := range
    by_cases below : n < low
    · simp [contains, below] at h
    · by_cases inside : n ≤ high
      · exact ⟨(low, high), by simp, by omega, inside⟩
      · have member : contains rest n = true := by simpa [contains, below, inside] using h
        obtain ⟨range, mem, bounds⟩ := ih member
        exact ⟨range, by simp [mem], bounds⟩

end Ranges

end Juxta.Text
