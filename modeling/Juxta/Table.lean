/-!
# Finite maps from numbers, in ascending order

* `Table α` : entries with strictly ascending keys, so that a map has one representation;
* `Table.get?`, `Table.insert` : look-up and replacement, with `get?_insert`;
* `Table.ofList` : the entries inserted in turn, the last of a key winning.
-/

namespace Juxta

/-- Pairs of a key and a value with strictly ascending keys. -/
structure Table (α : Type) where
  entries : List (Nat × α)
  ascending : entries.Pairwise (fun a b => a.1 < b.1)

namespace Table

variable {α : Type}

@[ext] theorem ext {s t : Table α} (h : s.entries = t.entries) : s = t := by
  cases s; cases t; simp_all

instance [DecidableEq α] : DecidableEq (Table α) := fun s t =>
  decidable_of_iff (s.entries = t.entries) ⟨ext, fun h => h ▸ rfl⟩

/-- The map without entries. -/
def empty : Table α := ⟨[], .nil⟩

instance : Inhabited (Table α) := ⟨empty⟩

def isEmpty (t : Table α) : Bool := t.entries.isEmpty

def size (t : Table α) : Nat := t.entries.length

/-- The value of a key among some entries. -/
def find? : List (Nat × α) → Nat → Option α
  | [], _ => none
  | (k, v) :: rest, key => if k = key then some v else find? rest key

/-- The value of a key. -/
def get? (t : Table α) (key : Nat) : Option α := find? t.entries key

/-- Puts an entry where its key belongs, in place of one with the same key. -/
def place (key : Nat) (value : α) : List (Nat × α) → List (Nat × α)
  | [] => [(key, value)]
  | (k, v) :: rest =>
    if key < k then (key, value) :: (k, v) :: rest
    else if key = k then (key, value) :: rest
    else (k, v) :: place key value rest

theorem mem_place {key : Nat} {value : α} {entries : List (Nat × α)} {e : Nat × α}
    (h : e ∈ place key value entries) : e = (key, value) ∨ e ∈ entries := by
  induction entries with
  | nil => simpa [place] using h
  | cons a rest ih => grind [place]

theorem pairwise_place (key : Nat) (value : α) {entries : List (Nat × α)}
    (h : entries.Pairwise (fun a b => a.1 < b.1)) :
    (place key value entries).Pairwise (fun a b => a.1 < b.1) := by
  induction entries with
  | nil => simp [place]
  | cons a rest ih =>
    obtain ⟨first, others⟩ := List.pairwise_cons.1 h
    simp only [place]
    split
    · refine List.pairwise_cons.2 ⟨fun b mem => ?_, h⟩
      rcases List.mem_cons.1 mem with rfl | mem
      · assumption
      · have := first b mem; omega
    · split
      · refine List.pairwise_cons.2 ⟨fun b mem => ?_, others⟩
        have := first b mem; simp_all
      · refine List.pairwise_cons.2 ⟨fun b mem => ?_, ih others⟩
        rcases mem_place mem with rfl | mem
        · simp; omega
        · exact first b mem

/-- The map in which `key` has `value`. -/
def insert (t : Table α) (key : Nat) (value : α) : Table α :=
  ⟨place key value t.entries, pairwise_place key value t.ascending⟩

/-- The entries inserted from the last to the first, so that the first of a key wins. -/
def ofList (entries : List (Nat × α)) : Table α :=
  entries.foldr (fun e t => t.insert e.1 e.2) empty

theorem find?_place (key k : Nat) (value : α) (entries : List (Nat × α)) :
    find? (place key value entries) k = if k = key then some value else find? entries k := by
  induction entries with
  | nil => simp [place, find?, eq_comm]
  | cons a rest ih => grind [place, find?]

theorem get?_insert (t : Table α) (key k : Nat) (value : α) :
    (t.insert key value).get? k = if k = key then some value else t.get? k :=
  find?_place key k value t.entries

end Table

end Juxta
