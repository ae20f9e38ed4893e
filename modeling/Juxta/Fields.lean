/-!
# Named fields in order

* `Fields α` : pairs of a name and a value, in the order in which the names first appeared;
* `Fields.get?` : the value of a name;
* `Fields.set` : gives a name a value, in its place if it has one and at the end if not;
* `Fields.names_nodup_set` : setting keeps the names distinct.
-/

namespace Juxta

/-- Pairs of a name and a value, in the order in which the names first appeared. -/
abbrev Fields (α : Type) := List (String × α)

namespace Fields

variable {α : Type}

/-- The names, in order. -/
def names (fields : Fields α) : List String := fields.map (·.1)

/-- The value of a name. -/
def get? : Fields α → String → Option α
  | [], _ => none
  | (key, value) :: rest, name => if key = name then some value else get? rest name

/-- Gives a name a value: in its place if it has one, at the end if not. -/
def set : Fields α → String → α → Fields α
  | [], name, new => [(name, new)]
  | (key, value) :: rest, name, new =>
    if key = name then (key, new) :: rest else (key, value) :: set rest name new

/-- The fields that result from setting each pair in turn. -/
def ofPairs (pairs : List (String × α)) : Fields α :=
  pairs.foldl (fun fields pair => fields.set pair.1 pair.2) []

theorem get?_set (fields : Fields α) (name key : String) (new : α) :
    (fields.set name new).get? key = if key = name then some new else fields.get? key := by
  induction fields with
  | nil => simp [set, get?, eq_comm]
  | cons pair rest ih => grind [set, get?]

theorem mem_names_set (fields : Fields α) (name key : String) (new : α) :
    key ∈ (fields.set name new).names ↔ key = name ∨ key ∈ fields.names := by
  induction fields with
  | nil => simp [set, names]
  | cons pair rest ih => grind [set, names]

theorem names_nodup_set {fields : Fields α} (h : fields.names.Nodup) (name : String) (new : α) :
    (fields.set name new).names.Nodup := by
  induction fields with
  | nil => simp [set, names]
  | cons pair rest ih =>
    have absent := mem_names_set rest name pair.1 new
    by_cases same : pair.1 = name <;> simp_all [set, names]

end Fields

end Juxta
