import Juxta.Proofs.Walk.Drains
import Juxta.Proofs.Walk.History

/-!
# A machine inside of another one

A machine whose root leads to an awaiter of another machine, and whose gatherings come behind
others, does what it does alone, step by step, up to its output.

* `Awaiter.placed`, `Task.placed`, `Gathering.placed` : where its awaiters lead then;
* `Machine.Placed` : a machine inside of another one; `Machine.Placed.step` is one step;
* `Machine.Ran`, `Machine.Placed.ran` : what has become of the outer machine after a run of the
  inner one;
* `Machine.Placed.run_root` : if the root leads to the root, the outcomes are the same.
-/

namespace Juxta

variable {Context Output Frame : Type}

/-! ## Places -/

/-- Where an awaiter of an inner machine leads in the outer one: its root is `base`, and so many
gatherings come before its own. -/
def Awaiter.placed (base : Awaiter) (offset : Nat) : Awaiter → Awaiter
  | .root => base
  | .after found awaiter => .after found (Awaiter.placed base offset awaiter)
  | .slot number position => .slot (offset + number) position

section

variable (base : Awaiter) (offset : Nat)

/-- A task of an inner machine in the outer one. -/
def Task.placed : Task Context Output Frame → Task Context Output Frame
  | .visit id context awaiter => .visit id context (.placed base offset awaiter)
  | .resume awaiter found output => .resume (.placed base offset awaiter) found output
  | .perform action awaiter => .perform action (.placed base offset awaiter)

/-- A gathering of an inner machine in the outer one. -/
def Gathering.placed (G : Gathering Output Frame) : Gathering Output Frame :=
  { G with awaiter := .placed base offset G.awaiter }

end

namespace Machine

/-- The outer machine has the tasks of the inner one, and its gatherings behind some others. -/
structure Placed (base : Awaiter) (earlier : Array (Gathering Output Frame))
    (m M : Machine Context Output Frame) : Prop where
  tasks : M.tasks = m.tasks.map (Task.placed base earlier.size)
  gatherings : M.gatherings = earlier ++ m.gatherings.map (Gathering.placed base earlier.size)

/-- Both machines run on, or end in the same way without an output. -/
inductive Progress.Placed (base : Awaiter) (earlier : Array (Gathering Output Frame)) :
    Progress Context Output Frame → Progress Context Output Frame → Prop where
  | running {m M : Machine Context Output Frame} : m.Placed base earlier M →
      Placed base earlier (.running m) (.running M)
  | ended {outcome : Outcome Output} : ¬ outcome.Finished →
      Placed base earlier (.ended outcome) (.ended outcome)

section

variable {w : Walk Context Output Frame} {base : Awaiter}
  {earlier : Array (Gathering Output Frame)} {m M : Machine Context Output Frame}

theorem Placed.soon (h : m.Placed base earlier M) (task : Task Context Output Frame) :
    (m.soon task).Placed base earlier (M.soon (task.placed base earlier.size)) :=
  .running ⟨congrArg (_ :: ·) h.tasks, h.gatherings⟩

theorem Placed.later (h : m.Placed base earlier M) (task : Task Context Output Frame) :
    (m.later task).Placed base earlier (M.later (task.placed base earlier.size)) := by
  refine .running ⟨?_, h.gatherings⟩
  have htasks : M.agenda.toList = m.agenda.toList.map (Task.placed base earlier.size) := h.tasks
  simp only [Machine.tasks, Agenda.toList_pushBack, htasks, List.map_append, List.map_cons,
    List.map_nil]

theorem Placed.visit (h : m.Placed base earlier M) (id : NodeId) (context : Context)
    (awaiter : Awaiter) :
    (m.visit w id context awaiter).Placed base earlier
      (M.visit w id context (.placed base earlier.size awaiter)) := by
  unfold Machine.visit
  split
  · exact h.soon (.resume awaiter [] w.absent)
  · split
    · exact .ended nofun
    · rename_i node _
      exact h.soon (.perform (w.enter id node context) awaiter)

theorem Placed.gathering? (h : m.Placed base earlier M) (number : Nat) :
    M.gatherings[earlier.size + number]? =
      (m.gatherings[number]?).map (Gathering.placed base earlier.size) := by
  rw [h.gatherings, Array.getElem?_append_right (Nat.le_add_right _ _), Nat.add_sub_cancel_left,
    Array.getElem?_map]

theorem Placed.setIfInBounds (h : m.Placed base earlier M) (number : Nat)
    (G : Gathering Output Frame) :
    Machine.Placed base earlier { m with gatherings := m.gatherings.setIfInBounds number G }
      { M with gatherings :=
          M.gatherings.setIfInBounds (earlier.size + number) (G.placed base earlier.size) } := by
  refine ⟨h.tasks, ?_⟩
  dsimp only
  rw [h.gatherings, Array.setIfInBounds_append_right (Nat.le_add_right _ _),
    Nat.add_sub_cancel_left, Array.map_setIfInBounds]

theorem Placed.resume (h : m.Placed base earlier M) {awaiter : Awaiter} (ha : awaiter ≠ .root)
    (found : List Diagnostic) (output : Output) :
    (m.resume w awaiter found output).Placed base earlier
      (M.resume w (.placed base earlier.size awaiter) found output) := by
  cases awaiter with
  | root => exact absurd rfl ha
  | after before awaiter => exact h.soon (.resume awaiter (before ++ found) output)
  | slot number position =>
    unfold Machine.resume Awaiter.placed
    dsimp only
    rw [h.gathering?]
    cases m.gatherings[number]? with
    | none => exact .running h
    | some G =>
      have hset := h.setIfInBounds number
        { G with gather := G.gather.deliver position found output }
      dsimp only [Option.map_some, Gathering.placed]
      split
      · exact hset.soon _
      · exact .running hset

theorem map_visitsFrom (number : Nat) (context : Context) (position : Nat) (ids : List NodeId) :
    (visitsFrom number context position ids : List (Task Context Output Frame)).map
        (Task.placed base earlier.size) =
      visitsFrom (earlier.size + number) context position ids := by
  induction ids generalizing position with
  | nil => rfl
  | cons id rest ih => exact congrArg (_ :: ·) (ih (position + 1))

theorem Placed.perform (h : m.Placed base earlier M) (steps : Nat)
    (action : Action Context Output Frame) (awaiter : Awaiter) :
    (m.perform w steps action awaiter).Placed base earlier
      (M.perform w steps action (.placed base earlier.size awaiter)) := by
  cases action with
  | done found output => exact h.later (.resume awaiter found output)
  | abort error => exact .ended nofun
  | endless => exact .ended nofun
  | after found action => exact h.soon (.perform action (.after found awaiter))
  | visit id context => exact h.later (.visit id context awaiter)
  | gather ids context frame =>
    unfold Machine.perform
    dsimp only
    split
    · exact h.soon (.perform (w.resume frame [] []) awaiter)
    · have htasks : M.agenda.toList = m.agenda.toList.map (Task.placed base earlier.size) := h.tasks
      refine .running ⟨?_, ?_⟩
      · simp only [Machine.tasks, toList_visits, htasks, List.map_append, map_visitsFrom,
          h.gatherings, Array.size_append, Array.size_map]
      · dsimp only
        rw [h.gatherings, Array.push_append, Array.map_push]
        rfl
  | capture action frame =>
    unfold Machine.perform
    dsimp only
    split
    · exact h.soon (.perform (w.resume frame _ _) awaiter)
    · exact .ended nofun
    · exact .ended nofun

/-- One step, before the inner machine has its output. -/
theorem Placed.step (h : m.Placed base earlier M) {task : Task Context Output Frame}
    {rest : List (Task Context Output Frame)} (ht : m.tasks = task :: rest)
    (hr : ∀ found output, task ≠ .resume .root found output) (steps : Nat) :
    (m.step w steps).Placed base earlier (M.step w steps) := by
  obtain ⟨agenda, hp, hrest⟩ := exists_pop ht
  have hT : M.tasks =
      task.placed base earlier.size :: rest.map (Task.placed base earlier.size) := by
    rw [h.tasks, ht, List.map_cons]
  obtain ⟨agenda', hP, hrest'⟩ := exists_pop hT
  have hnext : Machine.Placed base earlier { m with agenda } { M with agenda := agenda' } :=
    ⟨by rw [Machine.tasks, Machine.tasks, hrest, hrest'], h.gatherings⟩
  unfold Machine.step
  rw [hp, hP]
  cases task with
  | visit id context awaiter => exact hnext.visit id context awaiter
  | resume awaiter found output =>
    refine hnext.resume ?_ found output
    rintro rfl
    exact hr found output rfl
  | perform action awaiter => exact hnext.perform steps action awaiter

/-! ## Runs -/

/-- What has become of the outer machine when the inner one has run for some tasks: the same, or the
output of the inner machine is handed to what awaits it, and nothing else is left to do for it. -/
inductive Ran (w : Walk Context Output Frame) (steps : Nat) (base : Awaiter)
    (earlier : Array (Gathering Output Frame)) (M : Machine Context Output Frame) (tasks : Nat) :
    Outcome Output → Prop where
  | alike {outcome : Outcome Output} : ¬ outcome.Finished → M.run w steps tasks = outcome →
      Ran w steps base earlier M tasks outcome
  | handed {found : List Diagnostic} {output : Output} {used : Nat}
      {M' : Machine Context Output Frame} {later : Array (Gathering Output Frame)} : used < tasks →
      M'.tasks = [.resume base found output] → M'.gatherings = earlier ++ later →
      (∀ more, M.run w steps (used + more) = M'.run w steps more) →
      Ran w steps base earlier M tasks (.finished found output)

theorem run_running {m' : Machine Context Output Frame} {steps : Nat}
    (h : m.step w steps = .running m') (tasks : Nat) :
    m.run w steps (tasks + 1) = m'.run w steps tasks := by
  rw [Machine.run, h]

theorem run_ended {outcome : Outcome Output} {steps : Nat} (h : m.step w steps = .ended outcome)
    (tasks : Nat) : m.run w steps (tasks + 1) = outcome := by
  rw [Machine.run, h]

theorem step_root {found : List Diagnostic} {output : Output}
    {rest : List (Task Context Output Frame)} (ht : m.tasks = .resume .root found output :: rest)
    (w : Walk Context Output Frame) (steps : Nat) :
    m.step w steps = .ended (.finished found output) := by
  obtain ⟨agenda, hp, -⟩ := exists_pop ht
  unfold Machine.step
  rw [hp]
  rfl

/-- A run of an inner machine. -/
theorem Placed.ran (h : m.Placed base earlier M) (hm : m.Sound) (steps tasks : Nat) :
    M.Ran w steps base earlier tasks (m.run w steps tasks) := by
  induction tasks generalizing m M with
  | zero => exact .alike id rfl
  | succ tasks ih =>
    obtain ⟨task, rest, ht⟩ := List.exists_cons_of_ne_nil hm.tasks_ne_nil
    by_cases hr : ∃ found output, task = .resume .root found output
    · obtain ⟨found, output, rfl⟩ := hr
      obtain ⟨rfl, -⟩ := hm.alone ht rfl
      rw [run_ended (step_root ht w steps)]
      refine .handed (Nat.succ_pos tasks) ?_ h.gatherings fun more => by rw [Nat.zero_add]
      rw [h.tasks, ht]
      rfl
    · have hstep := h.step (w := w) ht (fun found output he => hr ⟨found, output, he⟩) steps
      have hspec := step_spec hm w steps
      generalize hp : m.step w steps = p at hstep hspec
      generalize hP : M.step w steps = P at hstep
      cases hstep with
      | running hnext =>
        have hran := ih hnext (hspec.sound hm)
        rw [run_running hp]
        revert hran
        generalize Machine.run w steps tasks _ = outcome
        intro hran
        cases hran with
        | alike hf hrun => exact .alike hf ((run_running hP tasks).trans hrun)
        | @handed _ _ used _ _ hlt ht' hg' hrun =>
          refine .handed (Nat.succ_lt_succ hlt) ht' hg' fun more => ?_
          rw [Nat.succ_add, run_running hP]
          exact hrun more
      | ended hf =>
        rw [run_ended hp]
        exact .alike hf (run_ended hP tasks)

/-- An inner machine whose root leads to the root of the outer one has its outcome. -/
theorem Placed.run_root (h : m.Placed .root earlier M) (hm : m.Sound) (steps tasks : Nat) :
    M.run w steps tasks = m.run w steps tasks := by
  have hran := h.ran (w := w) hm steps tasks
  revert hran
  generalize m.run w steps tasks = outcome
  intro hran
  cases hran with
  | alike _ hrun => exact hrun
  | @handed found output used M' later hlt ht hg hrun =>
    obtain ⟨more, rfl⟩ := Nat.exists_eq_add_of_lt hlt
    rw [Nat.add_assoc, hrun, run_ended (step_root ht w steps)]

end

end Machine

end Juxta
