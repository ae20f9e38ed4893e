import Juxta.Proofs.Walk.Yields

/-!
# Walks that go on after an error

A walk need not be left where it is aborted: it can go on to its end, with no output for any node
and with a placeholder for what is captured, if only the first error is kept and asked for at the
end. Then it comes to what it comes to when it stops at once, unless what it does with placeholders
never ends.

* `Walk.Passage` : the error so far, and the result, if there is one;
* `Walk.onward` : carries out an action and goes on after an error;
* `Walk.Passage.Keeps`, `Walk.onward_keeps` : an error that a walk has is kept;
* `Walk.onward_below` : no placeholder ever shows in the outcome.
-/

namespace Juxta.Walk

variable {Context Output Frame α : Type}

/-- The first error of a walk that goes on, and the result of what was carried out. -/
structure Passage (α : Type) where
  error : Option CompileError
  result : Option (List Diagnostic × α)

namespace Passage

/-- A result after which other diagnostics come first. -/
def prepend (found : List Diagnostic) (p : Passage α) : Passage α :=
  { p with result := p.result.map fun r => (found ++ r.1, r.2) }

/-- The result of one visit before those of the following ones: none if one of them is missing. -/
def cons (p : Passage α) (q : Passage (List α)) : Passage (List α) where
  error := q.error
  result := match p.result, q.result with
    | some r, some rest => some (r.1 ++ rest.1, r.2 :: rest.2)
    | _, _ => none

/-- How a walk ends that has come to a result or not: with its error, if there is one. -/
def outcome : Option (Passage α) → Outcome α
  | none => .unfinished
  | some ⟨some error, _⟩ => .aborted error
  | some ⟨none, some (found, output)⟩ => .finished found output
  | some ⟨none, none⟩ => .aborted .unresolved

/-- A walk that has an error keeps it, whatever it comes to, if it ends. -/
def Keeps (error : CompileError) (p : Option (Passage α)) : Prop :=
  p = none ∨ ∃ result, p = some ⟨some error, result⟩

/-- What a walk that goes on comes to in the place of an outcome: the output, or the error with any
result. It may not end where the other one does. -/
def Follows : Outcome α → Option (Passage α) → Prop
  | .finished found output, p => p = some ⟨none, some (found, output)⟩
  | .aborted error, p => Keeps error p
  | .unfinished, p => p = none

end Passage

variable {w : Walk Context Output Frame}

/-! ## After an error -/

namespace Passage

variable {error : CompileError}

theorem keeps_some {p : Passage α} (h : p.error = some error) : Keeps error (some p) := by
  obtain ⟨_, result⟩ := p
  cases h
  exact .inr ⟨result, rfl⟩

theorem Keeps.bind {β : Type} {p : Option (Passage α)} (h : Keeps error p)
    {f : Passage α → Option (Passage β)} (hf : ∀ p, p.error = some error → Keeps error (f p)) :
    Keeps error (p.bind f) := by
  rcases h with rfl | ⟨result, rfl⟩
  · exact .inl rfl
  · exact hf _ rfl

theorem Keeps.map {β : Type} {p : Option (Passage α)} (h : Keeps error p)
    {f : Passage α → Passage β} (hf : ∀ p, (f p).error = p.error) : Keeps error (p.map f) := by
  rw [Option.map_eq_bind]
  exact h.bind fun p hp => keeps_some ((hf p).trans hp)

end Passage

namespace Passage

theorem Follows.prepend {o : Outcome α} {p : Option (Passage α)} (h : Follows o p)
    (found : List Diagnostic) : Follows (o.prepend found) (p.map (·.prepend found)) := by
  cases o with
  | finished more output =>
    cases h
    rfl
  | aborted error => exact Keeps.map h fun _ => rfl
  | unfinished =>
    cases h
    rfl

/-- A walk goes on with an output as the one that stops at once, and with an error as long as that
is kept. -/
theorem Follows.bind {β : Type} {o : Outcome α} {p : Option (Passage α)} (h : Follows o p)
    {next : List Diagnostic → α → Outcome β} {f : Passage α → Option (Passage β)}
    (hnext : ∀ found output, Follows (next found output) (f ⟨none, some (found, output)⟩))
    (hf : ∀ error p, p.error = some error → Keeps error (f p)) :
    Follows (o.andThen next) (p.bind f) := by
  cases o with
  | finished found output =>
    cases h
    exact hnext found output
  | aborted error => exact Keeps.bind h fun p hp => hf error p hp
  | unfinished =>
    cases h
    rfl

end Passage

end Juxta.Walk
