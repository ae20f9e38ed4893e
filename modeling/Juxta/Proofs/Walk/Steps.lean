import Juxta.Proofs.Walk.Awaiting

/-!
# What one step of a machine does

* `Task.Follows`, `Task.Fails` : a task that another one takes the place of, and one that ends the
  run with an error;
* `Machine.Step` : all that a step can do;
* `Machine.step_spec` : a step of a sound machine does one of these;
* `Machine.Step.sound` : it leaves a sound machine.
-/

namespace Juxta

variable {Context Output Frame : Type}

/-- The second task takes the place of the first one. -/
inductive Task.Follows (w : Walk Context Output Frame) (steps : Nat) :
    Task Context Output Frame → Task Context Output Frame → Prop where
  | absent {id context awaiter} : id.isAbsent = true →
      Follows w steps (.visit id context awaiter) (.resume awaiter [] w.absent)
  | enter {id node context awaiter} : id.isAbsent = false → w.store.node? id = some node →
      Follows w steps (.visit id context awaiter) (.perform (w.enter id node context) awaiter)
  | pass {before awaiter found output} :
      Follows w steps (.resume (.after before awaiter) found output)
        (.resume awaiter (before ++ found) output)
  | done {found output awaiter} :
      Follows w steps (.perform (.done found output) awaiter) (.resume awaiter found output)
  | after {found action awaiter} :
      Follows w steps (.perform (.after found action) awaiter)
        (.perform action (.after found awaiter))
  | visit {id context awaiter} :
      Follows w steps (.perform (.visit id context) awaiter) (.visit id context awaiter)
  | empty {context frame awaiter} :
      Follows w steps (.perform (.gather [] context frame) awaiter)
        (.perform (w.resume frame [] []) awaiter)
  | capture {action frame awaiter found output} :
      w.perform steps action = .finished found output →
      Follows w steps (.perform (.capture action frame) awaiter)
        (.perform (w.resume frame found [output]) awaiter)

/-- A task ends the run with an error. -/
inductive Task.Fails (w : Walk Context Output Frame) (steps : Nat) :
    Task Context Output Frame → CompileError → Prop where
  | missing {id context awaiter} : id.isAbsent = false → w.store.node? id = none →
      Fails w steps (.visit id context awaiter) (.missingNode id)
  | abort {error awaiter} : Fails w steps (.perform (.abort error) awaiter) error
  | capture {action frame awaiter error} : w.perform steps action = .aborted error →
      Fails w steps (.perform (.capture action frame) awaiter) error

theorem Task.Follows.target_eq {w : Walk Context Output Frame} {steps : Nat}
    {task task' : Task Context Output Frame} (h : task.Follows w steps task') :
    task'.target = task.target := by
  cases h <;> rfl

namespace Machine

/-- What a step does with the first task. -/
inductive Step (w : Walk Context Output Frame) (steps : Nat) (m : Machine Context Output Frame) :
    Progress Context Output Frame → Prop where
  | replace {task task' rest m'} : m.tasks = task :: rest → task.Follows w steps task' →
      m'.tasks.Perm (task' :: rest) → m'.gatherings = m.gatherings →
      Step w steps m (.running m')
  /-- An output arrives at a gathering, which still waits for others. -/
  | deliver {number position found output rest G m'} :
      m.tasks = .resume (.slot number position) found output :: rest →
      m.gathering? number = some G → G.gather.slots[position]? = some none →
      (delivered G position found output).gather.missing ≠ 0 → m'.tasks = rest →
      m'.gatherings = m.gatherings.setIfInBounds number (delivered G position found output) →
      Step w steps m (.running m')
  /-- The last output of a gathering arrives. -/
  | complete {number position found output rest G results m'} :
      m.tasks = .resume (.slot number position) found output :: rest →
      m.gathering? number = some G → G.gather.slots[position]? = some none →
      (delivered G position found output).gather.missing = 0 →
      (delivered G position found output).gather.results = results →
      m'.tasks = .perform (w.resume G.frame results.1 results.2) G.awaiter :: rest →
      m'.gatherings = m.gatherings.setIfInBounds number (delivered G position found output) →
      Step w steps m (.running m')
  | spread {ids context frame awaiter rest m'} :
      m.tasks = .perform (.gather ids context frame) awaiter :: rest → ids ≠ [] →
      m'.tasks = rest ++ visitsFrom m.gatherings.size context 0 ids →
      m'.gatherings = m.gatherings.push (awaiting ids.length frame awaiter) →
      Step w steps m (.running m')
  | finish {found output rest} : m.tasks = .resume .root found output :: rest →
      Step w steps m (.ended (.finished found output))
  | fail {task rest error} : m.tasks = task :: rest → task.Fails w steps error →
      Step w steps m (.ended (.aborted error))
  /-- The action of the first task never ends, or not within the steps allowed. -/
  | stop {action awaiter rest} : m.tasks = .perform action awaiter :: rest →
      w.perform (steps + 1) action = .unfinished → Step w steps m (.ended .unfinished)

/-! ## Each kind of task -/

section Tasks

variable {w : Walk Context Output Frame} {steps : Nat} {m : Machine Context Output Frame}
  {agenda : Agenda (Task Context Output Frame)}

theorem step_soon {task task' : Task Context Output Frame} (ht : m.tasks = task :: agenda.toList)
    (hf : task.Follows w steps task') :
    Step w steps m (({ m with agenda } : Machine ..).soon task') :=
  .replace ht hf (by rw [tasks, Agenda.toList_pushFront]) rfl

theorem step_later {task task' : Task Context Output Frame} (ht : m.tasks = task :: agenda.toList)
    (hf : task.Follows w steps task') :
    Step w steps m (({ m with agenda } : Machine ..).later task') :=
  .replace ht hf (by rw [tasks, Agenda.toList_pushBack]; exact List.perm_append_singleton _ _) rfl

theorem step_visit {id : NodeId} {context : Context} {awaiter : Awaiter}
    (ht : m.tasks = .visit id context awaiter :: agenda.toList) :
    Step w steps m (({ m with agenda } : Machine ..).visit w id context awaiter) := by
  unfold Machine.visit
  split
  · rename_i ha
    exact step_soon ht (.absent ha)
  · rename_i ha
    have ha : id.isAbsent = false := by simpa using ha
    split
    · rename_i hn
      exact .fail ht (.missing ha hn)
    · rename_i node hn
      exact step_soon ht (.enter ha hn)

theorem step_resume (h : m.Sound) {awaiter : Awaiter} {found : List Diagnostic} {output : Output}
    (ht : m.tasks = .resume awaiter found output :: agenda.toList) :
    Step w steps m (({ m with agenda } : Machine ..).resume w awaiter found output) := by
  cases awaiter with
  | root => exact .finish ht
  | after before awaiter => exact step_soon ht .pass
  | slot number position =>
    have ho := h.isOpen_of_mem (show Task.resume (.slot number position) found output ∈ m.tasks by
      simp [ht])
    obtain ⟨G, hG, hs⟩ := (m.isOpen_slot_iff number position).1 ho
    have hG' : m.gatherings[number]? = some G := hG
    simp only [Machine.resume, hG']
    split
    · rename_i hm
      exact .complete ht hG hs hm rfl (by rw [tasks, Agenda.toList_pushFront]; rfl) rfl
    · rename_i hm
      exact .deliver ht hG hs hm rfl rfl

theorem step_perform {action : Action Context Output Frame} {awaiter : Awaiter}
    (ht : m.tasks = .perform action awaiter :: agenda.toList) :
    Step w steps m (({ m with agenda } : Machine ..).perform w steps action awaiter) := by
  cases action with
  | done found output => exact step_later ht .done
  | abort error => exact .fail ht .abort
  | endless => exact .stop ht rfl
  | after found action => exact step_soon ht .after
  | visit id context => exact step_later ht .visit
  | gather ids context frame =>
    cases ids with
    | nil => exact step_soon ht .empty
    | cons id rest =>
      exact .spread ht (List.cons_ne_nil _ _) (toList_visits _ _ _ _ _) rfl
  | capture action frame =>
    simp only [Machine.perform]
    split
    · rename_i hp
      exact step_soon ht (.capture hp)
    · rename_i hp
      exact .fail ht (.capture hp)
    · rename_i hp
      exact .stop ht (by rw [Walk.perform, hp]; rfl)

end Tasks

/-- A step of a sound machine does one of the things of `Step`. -/
theorem step_spec {m : Machine Context Output Frame} (h : m.Sound) (w : Walk Context Output Frame)
    (steps : Nat) : Step w steps m (m.step w steps) := by
  unfold Machine.step
  split
  · rename_i hp
    exact absurd ((m.agenda.pop?_eq_none_iff).1 hp) h.tasks_ne_nil
  · rename_i task agenda hp
    have ht : m.tasks = task :: agenda.toList := Agenda.toList_of_pop? hp
    cases task with
    | visit id context awaiter => exact step_visit ht
    | resume awaiter found output => exact step_resume h ht
    | perform action awaiter => exact step_perform ht

/-- A step leaves a sound machine. -/
theorem Step.sound {w : Walk Context Output Frame} {steps : Nat}
    {m m' : Machine Context Output Frame} (hs : Step w steps m (.running m')) (h : m.Sound) :
    m'.Sound := by
  cases hs with
  | replace ht hf ht' hg => exact h.replace ht ht' hg hf.target_eq
  | deliver ht hG hp hm ht' hg =>
    refine h.deliver ht rfl hG hp hg fun t => ?_
    rw [ht', Gathering.worksAt, decide_eq_true hm, Bool.true_and]
    rfl
  | complete ht hG hp hm _ ht' hg =>
    refine h.deliver ht rfl hG hp hg fun t => ?_
    rw [ht', List.countP_cons, ite_eq_toNat, Gathering.worksAt, decide_eq_false (not_not.2 hm),
      Bool.false_and, Bool.toNat_false, Nat.add_zero]
    rfl
  | spread ht hne ht' hg => exact h.spread ht hne ht' hg

end Machine

end Juxta
