import Mathlib.Data.List.Forall2
import Juxta.Walk.Direct

/-!
# What walks come to

* `Outcome.Below a b` : `b` is `a`, unless `a` has not ended;
* `Walk.perform_below` : more steps never change an outcome that is reached;
* `Walk.Yields`, `Walk.Reaches` : the result of an action and of a node, however many steps it
  takes; there is at most one (`Walk.Yields.unique`);
* `Walk.yields_done_iff`, …, `Walk.yields_capture_iff` : the results of each kind of action from
  those of the actions and nodes that it asks for.
-/

namespace Juxta

/-! ## Outcomes that have not ended -/

namespace Outcome

variable {α β : Type}

/-- The second outcome is the first one, unless that has not ended. -/
def Below (a b : Outcome α) : Prop := a = .unfinished ∨ b = a

theorem Below.refl (a : Outcome α) : a.Below a := Or.inr rfl

theorem Below.trans {a b c : Outcome α} (h : a.Below b) (k : b.Below c) : a.Below c := by
  rcases h with h | rfl
  · exact Or.inl h
  · exact k

theorem Below.prepend {a b : Outcome α} (h : a.Below b) (found : List Diagnostic) :
    (a.prepend found).Below (b.prepend found) := by
  rcases h with rfl | rfl
  · exact Or.inl rfl
  · exact Below.refl _

theorem Below.andThen {a b : Outcome α} {f g : List Diagnostic → α → Outcome β}
    (h : a.Below b) (k : ∀ found output, (f found output).Below (g found output)) :
    (a.andThen f).Below (b.andThen g) := by
  rcases h with rfl | rfl
  · exact Or.inl rfl
  · cases b with
    | finished found output => exact k found output
    | aborted error => exact Below.refl _
    | unfinished => exact Below.refl _

theorem Below.gather {f g : NodeId → Outcome α} (h : ∀ id, (f id).Below (g id)) :
    ∀ ids, (Outcome.gather f ids).Below (Outcome.gather g ids)
  | [] => Below.refl _
  | id :: rest => (h id).andThen fun _ _ => (Below.gather h rest).andThen fun _ _ => Below.refl _

/-- The results of several visits in a row are those of the single visits. -/
theorem gather_eq_finished_iff {visit : NodeId → Outcome α} {ids : List NodeId}
    {found : List Diagnostic} {outputs : List α} :
    gather visit ids = .finished found outputs ↔ ∃ results,
      List.Forall₂ (fun id r => visit id = .finished r.1 r.2) ids results ∧
        found = results.flatMap Prod.fst ∧ outputs = results.map Prod.snd := by
  induction ids generalizing found outputs with
  | nil =>
    constructor
    · intro h
      cases h
      exact ⟨[], .nil, rfl, rfl⟩
    · rintro ⟨results, h, rfl, rfl⟩
      cases h
      rfl
  | cons id rest ih =>
    constructor
    · intro h
      simp only [gather, andThen] at h
      split at h
      · rename_i first output hfirst
        split at h
        · rename_i more outputs' hrest
          obtain ⟨results, hr, rfl, rfl⟩ := ih.1 hrest
          cases h
          exact ⟨(first, output) :: results, .cons hfirst hr, rfl, rfl⟩
        · cases h
        · cases h
      · cases h
      · cases h
    · rintro ⟨results, h, rfl, rfl⟩
      cases h with
      | @cons _ r _ results hfirst hrest =>
        simp only [gather, andThen, hfirst, ih.2 ⟨results, hrest, rfl, rfl⟩]
        rfl

end Outcome

namespace Walk

variable {Context Output Frame : Type}

theorem visitBy_below (w : Walk Context Output Frame)
    {f g : Action Context Output Frame → Outcome Output}
    (h : ∀ action, (f action).Below (g action)) (id : NodeId) (context : Context) :
    (w.visitBy f id context).Below (w.visitBy g id context) := by
  unfold visitBy
  split
  · exact Outcome.Below.refl _
  · split
    · exact Outcome.Below.refl _
    · exact h _

theorem perform_below_succ (w : Walk Context Output Frame) (steps : Nat)
    (action : Action Context Output Frame) :
    (w.perform steps action).Below (w.perform (steps + 1) action) := by
  induction steps generalizing action with
  | zero => exact Or.inl rfl
  | succ steps ih =>
    cases action with
    | done found output => exact Outcome.Below.refl _
    | abort error => exact Outcome.Below.refl _
    | endless => exact Outcome.Below.refl _
    | after found action => exact (ih action).prepend found
    | visit id context => exact w.visitBy_below ih id context
    | gather ids context frame =>
      exact (Outcome.Below.gather (fun id => w.visitBy_below ih id context) ids).andThen
        fun _ _ => ih _
    | capture action frame => exact (ih action).andThen fun _ _ => ih _

/-- More steps never change an outcome that is reached. -/
theorem perform_below (w : Walk Context Output Frame) {steps more : Nat} (h : steps ≤ more)
    (action : Action Context Output Frame) :
    (w.perform steps action).Below (w.perform more action) := by
  induction h with
  | refl => exact Outcome.Below.refl _
  | step _ ih => exact ih.trans (w.perform_below_succ _ action)

theorem perform_of_le {w : Walk Context Output Frame} {steps more : Nat}
    {action : Action Context Output Frame} {found : List Diagnostic} {output : Output}
    (h : w.perform steps action = .finished found output) (hle : steps ≤ more) :
    w.perform more action = .finished found output := by
  rcases w.perform_below hle action with hu | he
  · rw [h] at hu
    cases hu
  · rw [he, h]

/-! ## Results -/

/-- An output with the diagnostics found on the way to it. -/
abbrev Result (Output : Type) := List Diagnostic × Output

/-- An action comes to a result. -/
def Yields (w : Walk Context Output Frame) (action : Action Context Output Frame)
    (r : Result Output) : Prop :=
  ∃ steps, w.perform steps action = .finished r.1 r.2

/-- The visit of a node comes to a result. -/
def Reaches (w : Walk Context Output Frame) (context : Context) (id : NodeId) (r : Result Output) :
    Prop :=
  ∃ steps, w.visit steps id context = .finished r.1 r.2

theorem Yields.unique {w : Walk Context Output Frame} {action : Action Context Output Frame}
    {r r' : Result Output} (h : w.Yields action r) (h' : w.Yields action r') : r = r' := by
  obtain ⟨n, hn⟩ := h
  obtain ⟨m, hm⟩ := h'
  have e := perform_of_le hn (Nat.le_max_left n m)
  rw [perform_of_le hm (Nat.le_max_right n m)] at e
  cases r
  cases r'
  cases e
  rfl

theorem not_yields_of_aborted {w : Walk Context Output Frame} {steps : Nat}
    {action : Action Context Output Frame} {error : CompileError}
    (h : w.perform steps action = .aborted error) (r : Result Output) : ¬ w.Yields action r := by
  rintro ⟨n, hn⟩
  have e := perform_of_le hn (Nat.le_max_left n steps)
  rcases w.perform_below (Nat.le_max_right n steps) action with hu | he
  · rw [h] at hu
    cases hu
  · rw [he, h] at e
    cases e

/-! ## The results of each kind of action -/

section Actions

variable (w : Walk Context Output Frame)

theorem yields_iff_succ (action : Action Context Output Frame) (r : Result Output) :
    w.Yields action r ↔ ∃ steps, w.perform (steps + 1) action = .finished r.1 r.2 := by
  constructor
  · rintro ⟨n, hn⟩
    exact ⟨n, perform_of_le hn (Nat.le_succ n)⟩
  · rintro ⟨n, hn⟩
    exact ⟨n + 1, hn⟩

theorem yields_done_iff (found : List Diagnostic) (output : Output) (r : Result Output) :
    w.Yields (.done found output) r ↔ r = (found, output) := by
  rw [yields_iff_succ]
  constructor
  · rintro ⟨n, hn⟩
    cases r
    cases hn
    rfl
  · rintro rfl
    exact ⟨0, rfl⟩

theorem not_yields_abort (error : CompileError) (r : Result Output) :
    ¬ w.Yields (.abort error) r :=
  not_yields_of_aborted (show w.perform 1 (.abort error) = .aborted error from rfl) r

theorem yields_after_iff (found : List Diagnostic) (action : Action Context Output Frame)
    (r : Result Output) :
    w.Yields (.after found action) r ↔
      ∃ more, w.Yields action (more, r.2) ∧ r.1 = found ++ more := by
  rw [yields_iff_succ]
  constructor
  · rintro ⟨n, hn⟩
    simp only [perform] at hn
    cases ha : w.perform n action with
    | finished more output =>
      rw [ha] at hn
      obtain ⟨first, second⟩ := r
      cases hn
      exact ⟨more, ⟨n, ha⟩, rfl⟩
    | aborted error =>
      rw [ha] at hn
      cases hn
    | unfinished =>
      rw [ha] at hn
      cases hn
  · rintro ⟨more, ⟨n, hn⟩, he⟩
    refine ⟨n, ?_⟩
    simp only [perform, hn, Outcome.prepend, he]

theorem yields_visit_iff (id : NodeId) (context : Context) (r : Result Output) :
    w.Yields (.visit id context) r ↔ w.Reaches context id r := w.yields_iff_succ _ r

/-- The result of a visit: the output for the absent node, or that of entering a node that is
there. -/
theorem reaches_iff (context : Context) (id : NodeId) (r : Result Output) :
    w.Reaches context id r ↔
      if id.isAbsent then r = ([], w.absent)
      else ∃ node, w.store.node? id = some node ∧ w.Yields (w.enter id node context) r := by
  unfold Reaches visit visitBy
  split
  · constructor
    · rintro ⟨n, hn⟩
      cases r
      cases hn
      rfl
    · rintro rfl
      exact ⟨0, rfl⟩
  · cases w.store.node? id with
    | none =>
      constructor
      · rintro ⟨n, hn⟩
        cases hn
      · rintro ⟨node, hnode, -⟩
        cases hnode
    | some node =>
      constructor
      · rintro ⟨n, hn⟩
        exact ⟨node, rfl, n, hn⟩
      · rintro ⟨node', hnode, hy⟩
        cases hnode
        exact hy

/-- Visits in a row that all come to a result do so within the same number of steps. -/
theorem exists_steps_of_reaches {context : Context} {ids : List NodeId}
    {results : List (Result Output)} (h : List.Forall₂ (w.Reaches context) ids results) :
    ∃ steps, List.Forall₂ (fun id r => w.visit steps id context = .finished r.1 r.2)
      ids results := by
  induction h with
  | nil => exact ⟨0, .nil⟩
  | @cons id r ids results first _ ih =>
    obtain ⟨n, hn⟩ := first
    obtain ⟨m, hm⟩ := ih
    have raise : ∀ k id (r : Result Output), k ≤ max n m →
        w.visit k id context = .finished r.1 r.2 →
        w.visit (max n m) id context = .finished r.1 r.2 := by
      intro k id r hle hk
      rcases w.visitBy_below (w.perform_below hle) id context with hu | he
      · rw [visit, hu] at hk
        cases hk
      · rw [visit, he]
        exact hk
    exact ⟨max n m, .cons (raise n id r (Nat.le_max_left n m) hn)
      (hm.imp fun id r => raise m id r (Nat.le_max_right n m))⟩

theorem yields_gather_iff (ids : List NodeId) (context : Context) (frame : Frame)
    (r : Result Output) :
    w.Yields (.gather ids context frame) r ↔ ∃ results,
      List.Forall₂ (w.Reaches context) ids results ∧
        w.Yields (w.resume frame (results.flatMap Prod.fst) (results.map Prod.snd)) r := by
  rw [yields_iff_succ]
  constructor
  · rintro ⟨n, hn⟩
    simp only [perform] at hn
    cases hg : Outcome.gather (fun id => w.visitBy (w.perform n) id context) ids with
    | finished found outputs =>
      rw [hg] at hn
      obtain ⟨results, hr, rfl, rfl⟩ := Outcome.gather_eq_finished_iff.1 hg
      exact ⟨results, hr.imp fun id r h => ⟨n, h⟩, n, hn⟩
    | aborted error =>
      rw [hg] at hn
      cases hn
    | unfinished =>
      rw [hg] at hn
      cases hn
  · rintro ⟨results, hr, m, hm⟩
    obtain ⟨n, hn⟩ := w.exists_steps_of_reaches hr
    have first := Outcome.gather_eq_finished_iff.2 ⟨results, hn, rfl, rfl⟩
    rcases Outcome.Below.gather (fun id => w.visitBy_below
      (w.perform_below (Nat.le_max_left n m)) id context) ids with hu | he
    · unfold visit at first
      rw [first] at hu
      cases hu
    · refine ⟨max n m, ?_⟩
      unfold visit at first
      simp only [perform]
      rw [he, first]
      exact perform_of_le hm (Nat.le_max_right n m)

theorem yields_capture_iff (action : Action Context Output Frame) (frame : Frame)
    (r : Result Output) :
    w.Yields (.capture action frame) r ↔ ∃ inner, w.Yields action inner ∧
      w.Yields (w.resume frame inner.1 [inner.2]) r := by
  rw [yields_iff_succ]
  constructor
  · rintro ⟨n, hn⟩
    simp only [perform] at hn
    cases ha : w.perform n action with
    | finished found output =>
      rw [ha] at hn
      exact ⟨(found, output), ⟨n, ha⟩, n, hn⟩
    | aborted error =>
      rw [ha] at hn
      cases hn
    | unfinished =>
      rw [ha] at hn
      cases hn
  · rintro ⟨inner, ⟨n, hn⟩, m, hm⟩
    refine ⟨max n m, ?_⟩
    simp only [perform, perform_of_le hn (Nat.le_max_left n m), Outcome.andThen]
    exact perform_of_le hm (Nat.le_max_right n m)

end Actions

end Walk

end Juxta
