import Juxta.Proofs.Walk.Handing

/-!
# Every awaiter is given one output

A run that finishes gives every awaiter of a visit one output, and no run gives an awaiter two.

* `Machine.history` : the tasks that a run does, and those that are left over;
* `Machine.Trace` : the steps of a run, of which a history is one (`Machine.Sound.trace`);
* `Machine.Trace.countP_le_one`, `Machine.Trace.countP_of_visit` : how often awaiters are given
  outputs;
* `Machine.Trace.left_eq_nil`, `Machine.Trace.perform_of_capture` : what else is done when a run
  finishes.
-/

namespace Juxta.Machine

variable {Context Output Frame : Type}

/-! ## Histories -/

/-- The tasks that a run does, in order, and those that are left when it ends or its tasks run
out. -/
def history (w : Walk Context Output Frame) (steps : Nat) : (tasks : Nat) →
    Machine Context Output Frame → List (Task Context Output Frame) × List (Task Context Output Frame)
  | 0, m => ([], m.tasks)
  | tasks + 1, m => match m.agenda.pop? with
    | none => ([], [])
    | some (task, agenda) => match m.step w steps with
      | .running m =>
        let rest := history w steps tasks m
        (task :: rest.1, rest.2)
      | .ended _ => ([task], agenda.toList)

section History

variable {w : Walk Context Output Frame} {steps : Nat} {m m' : Machine Context Output Frame}
  {task : Task Context Output Frame} {rest : List (Task Context Output Frame)}

theorem exists_pop (ht : m.tasks = task :: rest) :
    ∃ agenda, m.agenda.pop? = some (task, agenda) ∧ agenda.toList = rest := by
  cases hp : m.agenda.pop? with
  | none =>
    rw [Machine.tasks, (m.agenda.pop?_eq_none_iff).1 hp] at ht
    cases ht
  | some found =>
    have hlist := (Agenda.toList_of_pop? hp).symm.trans ht
    cases hlist
    exact ⟨found.2, rfl, rfl⟩

theorem history_running (ht : m.tasks = task :: rest) (hs : m.step w steps = .running m')
    (tasks : Nat) : m.history w steps (tasks + 1) =
      (task :: (m'.history w steps tasks).1, (m'.history w steps tasks).2) := by
  obtain ⟨agenda, hp, -⟩ := exists_pop ht
  rw [history, hp, hs]

theorem history_ended (ht : m.tasks = task :: rest) {outcome : Outcome Output}
    (hs : m.step w steps = .ended outcome) (tasks : Nat) :
    m.history w steps (tasks + 1) = ([task], rest) := by
  obtain ⟨agenda, hp, rfl⟩ := exists_pop ht
  rw [history, hp, hs]

end History

/-! ## Whole runs -/

/-- A run that does some tasks, leaves others over and has an outcome. -/
inductive Trace (w : Walk Context Output Frame) (steps : Nat) : Machine Context Output Frame →
    List (Task Context Output Frame) → List (Task Context Output Frame) → Outcome Output → Prop where
  | pause {m} : Trace w steps m [] m.tasks .unfinished
  | step {m m' task rest done left outcome} : m.Sound → m.tasks = task :: rest →
      Step w steps m (.running m') → Trace w steps m' done left outcome →
      Trace w steps m (task :: done) left outcome
  | finish {m task rest outcome} : m.Sound → m.tasks = task :: rest →
      Step w steps m (.ended outcome) → Trace w steps m [task] rest outcome

section Runs

variable {w : Walk Context Output Frame} {steps : Nat} {m : Machine Context Output Frame}
  {done left : List (Task Context Output Frame)} {outcome : Outcome Output} {a : Awaiter}

/-- The history of a run is a trace of it. -/
theorem Sound.trace (h : m.Sound) (tasks : Nat) :
    Trace w steps m (m.history w steps tasks).1 (m.history w steps tasks).2
      (m.run w steps tasks) := by
  induction tasks generalizing m with
  | zero => exact .pause
  | succ tasks ih =>
    obtain ⟨task, rest, ht⟩ := List.exists_cons_of_ne_nil h.tasks_ne_nil
    have hstep := step_spec h w steps
    cases hp : m.step w steps with
    | running m' =>
      rw [hp] at hstep
      rw [history_running ht hp, run, hp]
      exact .step h ht hstep (ih (hstep.sound h))
    | ended outcome =>
      rw [hp] at hstep
      rw [history_ended ht hp, run, hp]
      exact .finish h ht hstep

/-- An awaiter that has got its output does not get another, and is not handed to a visit. -/
theorem Trace.of_spent (ht : Trace w steps m done left outcome) (hsp : m.Spent a) :
    ∀ task ∈ done, task.calls a = false ∧ ∀ id context, task ≠ .visit id context a := by
  induction ht with
  | pause => nofun
  | @step m _ task rest _ _ _ h ht hs _ ih =>
    have hm := mem_of_tasks_eq ht
    exact List.forall_mem_cons.2
      ⟨⟨hsp.calls_eq_false hm, hsp.ne_visit hm⟩, ih (hs.spent h hsp)⟩
  | @finish m task rest _ h ht hs =>
    have hm := mem_of_tasks_eq ht
    exact List.forall_mem_singleton.2 ⟨hsp.calls_eq_false hm, hsp.ne_visit hm⟩

theorem Trace.countP_of_spent (ht : Trace w steps m done left outcome) (hsp : m.Spent a) :
    done.countP (Task.calls a) = 0 :=
  List.countP_eq_zero.2 fun task hm => by rw [(ht.of_spent hsp task hm).1]; exact Bool.false_ne_true

/-- No run gives an awaiter two outputs. -/
theorem Trace.countP_le_one (ht : Trace w steps m done left outcome) (a : Awaiter) :
    done.countP (Task.calls a) ≤ 1 := by
  induction ht with
  | pause => exact Nat.zero_le _
  | @step m m' task rest done _ _ h ht hs htrace ih =>
    rw [List.countP_cons]
    cases hcalls : task.calls a with
    | true =>
      rw [htrace.countP_of_spent (hs.spent_of_calls h ht hcalls)]
      exact Nat.le_refl _
    | false => exact ih
  | finish => exact List.countP_le_length

/-- A run that finishes gives an output to each awaiter for which one is on its way. -/
theorem Trace.countP_of_due
    (ht : Trace w steps m done left outcome) (hf : outcome.Finished) (hdue : m.Due a) :
    done.countP (Task.calls a) = 1 := by
  induction ht with
  | pause => exact hf.elim
  | @step m m' task rest done _ _ h ht hs htrace ih =>
    rw [List.countP_cons]
    cases hcalls : task.calls a with
    | true =>
      rw [htrace.countP_of_spent (hs.spent_of_calls h ht hcalls)]
      rfl
    | false => exact ih hf (hs.due ht hcalls hdue)
  | finish h ht hs =>
    obtain ⟨_, _, rfl⟩ := hs.eq_resume_root ht hf
    rw [h.eq_root_of_due ht hdue]
    rfl

/-- In a run that finishes, each awaiter that is handed to a visit gets an output. -/
theorem Trace.countP_of_visit {id : NodeId} {context : Context}
    (ht : Trace w steps m done left outcome) (hf : outcome.Finished)
    (hv : .visit id context a ∈ done) : done.countP (Task.calls a) = 1 := by
  induction ht with
  | pause => exact hf.elim
  | @step m m' task rest done left _ h ht hs htrace ih =>
    rw [List.mem_cons] at hv
    rcases hv with rfl | hv
    · have hserves : m.Serves a := .inl ⟨_, mem_of_tasks_eq ht, rfl⟩
      exact (Trace.step h ht hs htrace).countP_of_due hf ⟨a, hserves, .self⟩
    · rw [List.countP_cons]
      cases hcalls : task.calls a with
      | true =>
        have hspent := hs.spent_of_calls h ht hcalls
        exact absurd rfl ((htrace.of_spent hspent _ hv).2 id context)
      | false => exact ih hf hv
  | finish h ht hs =>
    obtain ⟨_, _, rfl⟩ := hs.eq_resume_root ht hf
    cases List.mem_singleton.1 hv

/-- A run that finishes leaves nothing over. -/
theorem Trace.left_eq_nil
    (ht : Trace w steps m done left outcome) (hf : outcome.Finished) : left = [] := by
  induction ht with
  | pause => exact hf.elim
  | step _ _ _ _ ih => exact ih hf
  | finish h ht hs =>
    obtain ⟨_, _, rfl⟩ := hs.eq_resume_root ht hf
    exact (h.alone ht rfl).1

/-- In a run that finishes, so does each action that is captured. -/
theorem Trace.perform_of_capture {action : Action Context Output Frame} {frame : Frame}
    (ht : Trace w steps m done left outcome) (hf : outcome.Finished)
    (hc : .perform (.capture action frame) a ∈ done) :
    (w.perform steps action).Finished := by
  induction ht with
  | pause => exact hf.elim
  | step h ht hs _ ih =>
    rw [List.mem_cons] at hc
    rcases hc with rfl | hc
    · exact hs.perform_of_capture ht
    · exact ih hf hc
  | finish h ht hs =>
    obtain ⟨_, _, rfl⟩ := hs.eq_resume_root ht hf
    cases List.mem_singleton.1 hc

end Runs

end Juxta.Machine
