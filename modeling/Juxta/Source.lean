/-!
# Places in a program text

* `Position` : a line and a column, both counted from zero, in reading order;
* `Coord` : the stretch between two positions; `Coord.join` covers two stretches;
* `Span` : a stretch of bytes; `Span.join` covers two of them;
* `Location` : the two together.
-/

namespace Juxta

/-- A line and a column, counted from zero; columns count characters. -/
structure Position where
  line : Nat
  column : Nat
deriving DecidableEq, Inhabited

namespace Position

/-- The beginning of a text. -/
def start : Position := ⟨0, 0⟩

/-- Reading order: by line, then by column. -/
def le (a b : Position) : Bool :=
  a.line < b.line || (a.line == b.line && a.column ≤ b.column)

/-- The earlier of two positions. -/
def earlier (a b : Position) : Position := if a.le b then a else b

/-- The later of two positions. -/
def later (a b : Position) : Position := if a.le b then b else a

/-- The position after a character that stands at this one. -/
def after (p : Position) (c : Char) : Position :=
  if c = '\n' then ⟨p.line + 1, 0⟩ else ⟨p.line, p.column + 1⟩

/-- A position as people count: from one. -/
def text (p : Position) : String := s!"{p.line + 1}:{p.column + 1}"

theorem le_refl (a : Position) : a.le a = true := by simp [le]

theorem le_total (a b : Position) : a.le b = true ∨ b.le a = true := by
  simp only [le, Bool.or_eq_true, Bool.and_eq_true, decide_eq_true_eq, beq_iff_eq]; omega

theorem le_trans {a b c : Position} (h : a.le b = true) (k : b.le c = true) : a.le c = true := by
  simp only [le, Bool.or_eq_true, Bool.and_eq_true, decide_eq_true_eq, beq_iff_eq] at *; omega

end Position

/-- The stretch of a text between two positions. -/
structure Coord where
  start : Position
  stop : Position
deriving DecidableEq, Inhabited

namespace Coord

/-- The stretch that stands for an unknown place. -/
def origin : Coord := ⟨.start, .start⟩

/-- The least stretch that covers both. -/
def join (a b : Coord) : Coord := ⟨a.start.earlier b.start, a.stop.later b.stop⟩

end Coord

/-- A stretch of bytes. -/
structure Span where
  start : Nat
  length : Nat
deriving DecidableEq, Inhabited

namespace Span

/-- The bytes from `start` to `stop`, none if `stop` does not come later. -/
def between (start stop : Nat) : Span := ⟨start, stop - start⟩

/-- The single byte at an offset. -/
def single (offset : Nat) : Span := ⟨offset, 1⟩

/-- The offset after the last byte. -/
def stop (s : Span) : Nat := s.start + s.length

def isEmpty (s : Span) : Bool := s.length == 0

/-- The least stretch that covers both. -/
def join (a b : Span) : Span := between (min a.start b.start) (max a.stop b.stop)

end Span

/-- A stretch of bytes together with the positions at its ends. -/
structure Location where
  span : Span
  coord : Coord
deriving DecidableEq, Inhabited

/-- The least stretch that covers both. -/
def Location.join (a b : Location) : Location := ⟨a.span.join b.span, a.coord.join b.coord⟩

end Juxta
