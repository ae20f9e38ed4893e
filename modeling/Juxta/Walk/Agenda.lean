/-!
# Lists with two ends

* `Agenda` : tasks in the order in which they are to be done, in two halves;
* `Agenda.toList` : that order;
* `Agenda.pushFront`, `Agenda.pushBack`, `Agenda.pop?` : what is done next, and what later
  (`toList_pushFront`, `toList_pushBack`, `pop?_eq_none_iff`, `toList_of_pop?`).
-/

namespace Juxta

/-- Tasks in order: those of the front, then those of the back from its last one on. -/
structure Agenda (α : Type) where
  front : List α
  back : List α

namespace Agenda

variable {α : Type}

def empty : Agenda α := ⟨[], []⟩

/-- The tasks in order. -/
def toList (a : Agenda α) : List α := a.front ++ a.back.reverse

/-- Adds a task that is next. -/
def pushFront (a : Agenda α) (task : α) : Agenda α := { a with front := task :: a.front }

/-- Adds a task that is last. -/
def pushBack (a : Agenda α) (task : α) : Agenda α := { a with back := task :: a.back }

/-- Takes the next task. -/
def pop? (a : Agenda α) : Option (α × Agenda α) :=
  match a.front with
  | task :: front => some (task, { a with front })
  | [] => match a.back.reverse with
    | task :: front => some (task, ⟨front, []⟩)
    | [] => none

@[simp] theorem toList_pushFront (a : Agenda α) (task : α) :
    (a.pushFront task).toList = task :: a.toList := rfl

@[simp] theorem toList_pushBack (a : Agenda α) (task : α) :
    (a.pushBack task).toList = a.toList ++ [task] := by simp [pushBack, toList]

theorem pop?_eq_none_iff (a : Agenda α) : a.pop? = none ↔ a.toList = [] := by
  unfold pop? toList
  split
  · simp_all
  · split <;> simp_all

theorem toList_of_pop? {a b : Agenda α} {task : α} (h : a.pop? = some (task, b)) :
    a.toList = task :: b.toList := by
  unfold pop? at h
  split at h
  · cases h
    simp_all [toList]
  · split at h
    · cases h
      simp_all [toList]
    · simp at h

end Agenda

end Juxta
