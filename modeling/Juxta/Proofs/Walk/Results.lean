import Juxta.Proofs.Walk.Drains
import Juxta.Proofs.Walk.Outcomes

/-!
# Results do not depend on the way of scheduling

* `Walk.Ends.of_yields` : an action that comes to a result by recursion makes a bounded amount of
  work, in whatever order it is done;
* `Machine.onTrack_carry_iff` : the queue that carries out an action is on track for its result;
* `Walk.comes_finished_iff` : under either way of scheduling an action comes to an output exactly if
  it does so by recursion;
* `Walk.exists_finished_of_reaches` : the same for a walk from a node.
-/

namespace Juxta

variable {Context Output Frame : Type} {w : Walk Context Output Frame}
  {action : Action Context Output Frame} {scheduling : Scheduling}

namespace Walk

/-- What has come to a result by recursion ends: there is no work but that on the way to it. -/
theorem Ends.of_yields {r : Result Output} (h : w.Yields action r) : w.Ends action := by
  obtain ⟨n, hn⟩ := h
  -- on the steps of the recursion
  induction n generalizing action r with
  | zero => cases hn
  | succ n ih =>
    have visited {id : NodeId} {context : Context} {r : Result Output}
        (hv : w.visitBy (w.perform n) id context = .finished r.1 r.2) :
        w.Ends (.visit id context) := by
      refine .visit fun node ha hnode => ?_
      rw [visitBy, ha, hnode] at hv
      exact ih hv
    cases action with
    | done found output => exact ends_done found output
    | abort error => exact ends_abort error
    | endless => cases hn
    | after found action =>
      rw [perform] at hn
      cases hp : w.perform n action with
      | finished more output => exact (ih (r := (more, output)) hp).after found
      | aborted error =>
        rw [hp] at hn
        cases hn
      | unfinished =>
        rw [hp] at hn
        cases hn
    | visit id context => exact visited hn
    | gather ids context frame =>
      rw [perform] at hn
      cases hg : Outcome.gather (fun id => w.visitBy (w.perform n) id context) ids with
      | finished found outputs =>
        rw [hg] at hn
        obtain ⟨results, hr, rfl, rfl⟩ := Outcome.gather_eq_finished_iff.1 hg
        have hreaches := hr.imp fun id r (h : w.visit n id context = _) =>
          (⟨n, h⟩ : w.Reaches context id r)
        refine .gather (fun id hm => ?_) fun others ho => ?_
        · obtain ⟨i, hi, rfl⟩ := List.getElem_of_mem hm
          exact visited ((List.forall₂_iff_get.1 hr).2 i hi ((List.forall₂_iff_get.1 hr).1 ▸ hi))
        · rw [List.right_unique_forall₂' (R := w.Reaches context) (fun _ _ _ => Reaches.unique) ho
            hreaches]
          exact ih hn
      | aborted error =>
        rw [hg] at hn
        cases hn
      | unfinished =>
        rw [hg] at hn
        cases hn
    | capture action frame =>
      rw [perform] at hn
      cases hp : w.perform n action with
      | finished found output =>
        rw [hp] at hn
        have hy : w.Yields action (found, output) := ⟨n, hp⟩
        refine (ih (r := (found, output)) hp).capture fun other ho => ?_
        rw [ho.unique hy]
        exact ih hn
      | aborted error =>
        rw [hp] at hn
        cases hn
      | unfinished =>
        rw [hp] at hn
        cases hn

end Walk

namespace Machine

theorem onTrack_carry_iff {r : Walk.Result Output} :
    (carry action).OnTrack w r ↔ w.Yields action r := by
  have htasks : (carry action : Machine Context Output Frame).tasks = [.perform action .root] := rfl
  constructor
  · rintro ⟨E, hm, rfl⟩
    obtain ⟨r, hr, hE⟩ := hm.tasks _ (by rw [htasks]; exact List.mem_cons_self ..)
    rw [show E .root = r from hE]
    exact hr
  · intro hr
    refine ⟨fun _ => r, ⟨fun task hm => ?_, fun number G hG => ?_⟩, rfl⟩
    · rw [htasks, List.mem_singleton] at hm
      subst hm
      exact ⟨r, hr, rfl⟩
    · simp [gathering?, carry] at hG

/-- A queue ends within the number of steps that is enough for its one action. -/
theorem carry_run_ne {n steps : Nat} (h : w.Takes action n) (hlt : n + 1 < steps) :
    (carry action).run w steps steps ≠ .unfinished := by
  have hcarry : (carry action : Machine Context Output Frame).Bounded w
      (fun _ _ => True) [n + 1] [] := by
    refine ⟨.cons ⟨⟨n, h, Nat.le_refl _⟩, fun _ _ => trivial⟩ .nil, rfl, fun number G k hG => ?_⟩
    simp [gathering?, carry] at hG
  refine hcarry.run_ne (sound_carry action) ?_ ?_ <;>
    · rw [List.sum_singleton, List.sum_nil]
      omega

end Machine

namespace Walk

variable {found : List Diagnostic} {output : Output}

theorem yields_of_carry {steps tasks : Nat}
    (h : (Machine.carry action).run w steps tasks = .finished found output) :
    w.Yields action (found, output) := by
  have hne : (Machine.carry action).run w steps tasks ≠ .unfinished := by
    rw [h]
    exact Outcome.finished_ne_unfinished _ _
  obtain ⟨last, hl, hend, htrack⟩ := Machine.exists_last_of_run (Machine.sound_carry action) hne
  rw [h] at hend
  exact Machine.onTrack_carry_iff.1 ((htrack _).1 (Machine.onTrack_of_finished hl hend))

/-- A queue that ends comes to the result of the recursion, if that has one. -/
theorem carry_of_yields (h : w.Yields action (found, output)) {steps tasks : Nat}
    (hne : (Machine.carry action).run w steps tasks ≠ .unfinished) :
    (Machine.carry action).run w steps tasks = .finished found output := by
  cases hrun : (Machine.carry action).run w steps tasks with
  | finished found' output' =>
    cases (yields_of_carry hrun).unique h
    rfl
  | aborted error =>
    obtain ⟨last, -, hend, htrack⟩ := Machine.exists_last_of_run (Machine.sound_carry action) hne
    rw [hrun] at hend
    exact absurd ((htrack _).2 (Machine.onTrack_carry_iff.2 h))
      (Machine.not_onTrack_of_aborted hend _)
  | unfinished => exact absurd hrun hne

/-- An action comes to an output under either way of scheduling exactly if it does by recursion. -/
theorem comes_finished_iff :
    w.Comes scheduling action (.finished found output) ↔ w.Yields action (found, output) := by
  cases scheduling with
  | direct => exact exists_congr fun n => and_iff_right (Outcome.finished_ne_unfinished _ _)
  | queued =>
    constructor
    · rintro ⟨n, -, steps, hrun⟩
      exact yields_of_carry hrun
    · intro h
      obtain ⟨n, hn⟩ := Ends.of_yields h
      exact ⟨n + 2, Outcome.finished_ne_unfinished _ _, n + 2,
        carry_of_yields h (Machine.carry_run_ne hn (Nat.lt_succ_self _))⟩

/-! ## Walks from a node -/

variable {id : NodeId} {context : Context} {steps : Nat}

/-- A node comes to an output under either way of scheduling if it does by recursion. -/
theorem exists_finished_of_reaches (h : w.Reaches context id (found, output)) :
    ∃ steps, w.run scheduling steps id context = .finished found output := by
  obtain ⟨steps, outcome, hne, hrun⟩ :=
    (Ends.of_yields ((w.yields_visit_iff id context _).2 h)).drains scheduling
  have hrun := hrun steps (Nat.le_refl steps)
  refine ⟨steps, ?_⟩
  cases outcome with
  | finished found' output' =>
    rw [hrun]
    cases Reaches.unique (reaches_of_finished hrun) h
    rfl
  | aborted error => exact absurd h (not_reaches_of_aborted hrun _)
  | unfinished => exact absurd rfl hne

end Walk

end Juxta
