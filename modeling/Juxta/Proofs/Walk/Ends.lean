import Mathlib
import Juxta.Proofs.Walk.Yields

/-!
# Walks that end

How much work an action makes, whatever the order in which it is done.

* `Walk.Takes` : a number of steps that is enough for an action and all that it asks for;
* `Walk.Ends` : there is such a number; `Walk.Ends.visit`, `Walk.Ends.gather` and
  `Walk.Ends.capture` build it from those of the parts;
* `Walk.Takes.perform_ne` : recursion ends within this number of steps.
-/

namespace Juxta

variable {Context Output Frame : Type}

namespace Outcome

variable {α β : Type}

theorem finished_ne_unfinished (found : List Diagnostic) (output : α) :
    Outcome.finished found output ≠ .unfinished := nofun

theorem aborted_ne_unfinished (error : CompileError) :
    (Outcome.aborted error : Outcome α) ≠ .unfinished := nofun

theorem prepend_ne_unfinished {outcome : Outcome α} (h : outcome ≠ .unfinished)
    (found : List Diagnostic) : outcome.prepend found ≠ .unfinished := by
  cases outcome with
  | finished more output => nofun
  | aborted error => nofun
  | unfinished => exact absurd rfl h

theorem andThen_ne_unfinished {outcome : Outcome α} {next : List Diagnostic → α → Outcome β}
    (h : outcome ≠ .unfinished)
    (hnext : ∀ found output, outcome = .finished found output → next found output ≠ .unfinished) :
    outcome.andThen next ≠ .unfinished := by
  cases outcome with
  | finished found output => exact hnext found output rfl
  | aborted error => nofun
  | unfinished => exact absurd rfl h

theorem gather_ne_unfinished {visit : NodeId → Outcome α} {ids : List NodeId}
    (h : ∀ id ∈ ids, visit id ≠ .unfinished) : gather visit ids ≠ .unfinished := by
  induction ids with
  | nil => nofun
  | cons id rest ih =>
    refine andThen_ne_unfinished (h id (List.mem_cons_self ..)) fun found output _ => ?_
    refine andThen_ne_unfinished (ih fun other hm => h other (List.mem_cons_of_mem id hm)) ?_
    nofun

end Outcome

namespace Walk

variable {w : Walk Context Output Frame}

/-- A number of steps that is enough for an action and all that it asks for: each visit and each
frame that goes on has its share. What a frame goes on with is what the visits come to. -/
inductive Takes (w : Walk Context Output Frame) : Action Context Output Frame → Nat → Prop where
  | done {found output n} : 0 < n → Takes w (.done found output) n
  | abort {error n} : 0 < n → Takes w (.abort error) n
  | after {found action n total} : Takes w action n → n + 2 ≤ total →
      Takes w (.after found action) total
  | visit {id context n total} :
      (∀ node, id.isAbsent = false → w.store.node? id = some node →
        Takes w (w.enter id node context) n) →
      n + 2 ≤ total → Takes w (.visit id context) total
  | gather {ids context frame n total} (costs : NodeId → Nat) :
      (∀ id ∈ ids, Takes w (.visit id context) (costs id)) →
      (∀ results, List.Forall₂ (w.Reaches context) ids results →
        Takes w (w.resume frame (results.flatMap Prod.fst) (results.map Prod.snd)) n) →
      (ids.map costs).sum + n + 1 ≤ total → Takes w (.gather ids context frame) total
  | capture {action frame n m total} : Takes w action n →
      (∀ r, w.Yields action r → Takes w (w.resume frame r.1 [r.2]) m) →
      n + m + 1 ≤ total → Takes w (.capture action frame) total

theorem Takes.pos {action : Action Context Output Frame} {n : Nat} (h : w.Takes action n) :
    0 < n := by
  cases h <;> omega

/-- Recursion ends within the number of steps that is enough. -/
theorem Takes.perform_ne {action : Action Context Output Frame} {n steps : Nat}
    (h : w.Takes action n) (hle : n ≤ steps) : w.perform steps action ≠ .unfinished := by
  induction h generalizing steps with
  | done hpos =>
    obtain ⟨steps, rfl⟩ : ∃ k, steps = k + 1 := ⟨steps - 1, by omega⟩
    exact Outcome.finished_ne_unfinished _ _
  | abort hpos =>
    obtain ⟨steps, rfl⟩ : ∃ k, steps = k + 1 := ⟨steps - 1, by omega⟩
    exact Outcome.aborted_ne_unfinished _
  | after _ htotal ih =>
    obtain ⟨steps, rfl⟩ : ∃ k, steps = k + 1 := ⟨steps - 1, by omega⟩
    exact Outcome.prepend_ne_unfinished (ih (by omega)) _
  | @visit id context n total _ htotal ih =>
    obtain ⟨steps, rfl⟩ : ∃ k, steps = k + 1 := ⟨steps - 1, by omega⟩
    unfold perform visitBy
    dsimp only
    split
    · exact Outcome.finished_ne_unfinished _ _
    · rename_i ha
      split
      · exact Outcome.aborted_ne_unfinished _
      · rename_i node hn
        exact ih node (by simpa using ha) hn (by omega)
  | @gather ids context frame n total costs _ _ htotal ihvisit ihresume =>
    obtain ⟨steps, rfl⟩ : ∃ k, steps = k + 1 := ⟨steps - 1, by omega⟩
    refine Outcome.andThen_ne_unfinished (Outcome.gather_ne_unfinished fun id hm => ?_) ?_
    · have hcost := List.single_le_sum (fun n _ => Nat.zero_le n) _
        (List.mem_map_of_mem (f := costs) hm)
      exact ihvisit id hm (show costs id ≤ steps + 1 by omega)
    · intro found outputs hg
      obtain ⟨results, hr, rfl, rfl⟩ := Outcome.gather_eq_finished_iff.1 hg
      exact ihresume results (hr.imp fun id r h => ⟨steps, h⟩) (by omega)
  | @capture action frame n m total _ _ htotal ih ihresume =>
    obtain ⟨steps, rfl⟩ : ∃ k, steps = k + 1 := ⟨steps - 1, by omega⟩
    refine Outcome.andThen_ne_unfinished (ih (by omega)) fun found output hp => ?_
    exact ihresume (found, output) ⟨steps, hp⟩ (by omega)

/-! ## Actions that end -/

/-- Some number of steps is enough for an action and all that it asks for. -/
def Ends (w : Walk Context Output Frame) (action : Action Context Output Frame) : Prop :=
  ∃ n, w.Takes action n

theorem ends_done (found : List Diagnostic) (output : Output) : w.Ends (.done found output) :=
  ⟨1, .done Nat.one_pos⟩

theorem ends_abort (error : CompileError) : w.Ends (.abort error) := ⟨1, .abort Nat.one_pos⟩

theorem Ends.after {action : Action Context Output Frame} (h : w.Ends action)
    (found : List Diagnostic) : w.Ends (.after found action) := by
  obtain ⟨n, hn⟩ := h
  exact ⟨n + 2, .after hn (Nat.le_refl _)⟩

theorem Ends.visit {id : NodeId} {context : Context}
    (h : ∀ node, id.isAbsent = false → w.store.node? id = some node →
      w.Ends (w.enter id node context)) : w.Ends (.visit id context) := by
  by_cases hnode : ∃ node, id.isAbsent = false ∧ w.store.node? id = some node
  · obtain ⟨node, ha, hn⟩ := hnode
    obtain ⟨n, hn'⟩ := h node ha hn
    refine ⟨n + 2, .visit (fun other _ ho => ?_) (Nat.le_refl _)⟩
    rw [hn] at ho
    cases ho
    exact hn'
  · exact ⟨2, .visit (fun node ha hn => absurd ⟨node, ha, hn⟩ hnode) (Nat.le_refl _)⟩

theorem Reaches.unique {context : Context} {id : NodeId} {r r' : Result Output}
    (h : w.Reaches context id r) (h' : w.Reaches context id r') : r = r' :=
  ((w.yields_visit_iff id context r).2 h).unique ((w.yields_visit_iff id context r').2 h')

theorem Ends.gather {ids : List NodeId} {context : Context} {frame : Frame}
    (h : ∀ id ∈ ids, w.Ends (.visit id context))
    (hresume : ∀ results, List.Forall₂ (w.Reaches context) ids results →
      w.Ends (w.resume frame (results.flatMap Prod.fst) (results.map Prod.snd))) :
    w.Ends (.gather ids context frame) := by
  classical
  let costs : NodeId → Nat := fun id => if hid : w.Ends (.visit id context) then hid.choose else 0
  have hcosts : ∀ id ∈ ids, w.Takes (.visit id context) (costs id) := by
    intro id hm
    unfold costs
    rw [dif_pos (h id hm)]
    exact (h id hm).choose_spec
  by_cases hall : ∃ results, List.Forall₂ (w.Reaches context) ids results
  · obtain ⟨results, hr⟩ := hall
    obtain ⟨n, hn⟩ := hresume results hr
    refine ⟨_, .gather (n := n) costs hcosts (fun others ho => ?_) (Nat.le_refl _)⟩
    rw [List.right_unique_forall₂' (R := w.Reaches context) (fun _ _ _ => Reaches.unique) ho hr]
    exact hn
  · exact ⟨_, .gather (n := 0) costs hcosts (fun results hr => absurd ⟨results, hr⟩ hall)
      (Nat.le_refl _)⟩

theorem Ends.capture {action : Action Context Output Frame} {frame : Frame} (h : w.Ends action)
    (hresume : ∀ r, w.Yields action r → w.Ends (w.resume frame r.1 [r.2])) :
    w.Ends (.capture action frame) := by
  obtain ⟨n, hn⟩ := h
  by_cases hr : ∃ r, w.Yields action r
  · obtain ⟨r, hr⟩ := hr
    obtain ⟨m, hm⟩ := hresume r hr
    refine ⟨_, .capture (m := m) hn (fun other ho => ?_) (Nat.le_refl _)⟩
    rw [ho.unique hr]
    exact hm
  · exact ⟨_, .capture (m := 0) hn (fun r hy => absurd ⟨r, hy⟩ hr) (Nat.le_refl _)⟩

end Walk

end Juxta
