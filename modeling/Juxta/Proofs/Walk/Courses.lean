import Juxta.Proofs.Walk.Confined
import Juxta.Proofs.Walk.History
import Juxta.Proofs.Walk.Outcomes

/-!
# The course of a run

What is carried out in the course of a run, whether or not the run has an output.

* `Walk.Leads` : an action is carried out by recursion in the course of another one;
* `Task.CarriesOut`, `Walk.CarriesOut` : an action is carried out by a task of the queue, and in a
  run under either way of scheduling;
* `Walk.CarriesOut.within` : what is carried out in a confined walk is within its bounds;
* `Walk.Leads.comes` : an error of what is carried out by recursion is that of the whole;
* `Walk.Stops` : an action that stops whatever carries it out, with an error;
* `Machine.Aborts`, `Walk.CarriesOut.aborted` : a run that carries out such an action ends with the
  error;
* `Walk.EndsRuns` : all runs do so in whose course an action is carried out.
-/

namespace Juxta

variable {Context Output Frame : Type}

/-- In the course of carrying out an action by recursion, another one is carried out. Of the nodes
of a gathering, those before the one that is visited have come to their results. -/
inductive Walk.Leads (w : Walk Context Output Frame) :
    Action Context Output Frame → Action Context Output Frame → Prop where
  | refl {action} : Leads w action action
  | after {found action later} : Leads w action later → Leads w (.after found action) later
  | enter {id node context later} : id.isAbsent = false → w.store.node? id = some node →
      Leads w (w.enter id node context) later → Leads w (.visit id context) later
  | node {before id rest results context frame later} :
      List.Forall₂ (w.Reaches context) before results → Leads w (.visit id context) later →
      Leads w (.gather (before ++ id :: rest) context frame) later
  | gathered {ids results context frame later} : List.Forall₂ (w.Reaches context) ids results →
      Leads w (w.resume frame (results.flatMap Prod.fst) (results.map Prod.snd)) later →
      Leads w (.gather ids context frame) later
  | inner {action frame later} : Leads w action later → Leads w (.capture action frame) later
  | captured {action frame r later} : w.Yields action r →
      Leads w (w.resume frame r.1 [r.2]) later → Leads w (.capture action frame) later

/-- What a task carries out: a visit, an action, or what it is led to by an action that it captures
the output of. -/
inductive Task.CarriesOut (w : Walk Context Output Frame) :
    Task Context Output Frame → Action Context Output Frame → Prop where
  | visit {id context awaiter} : CarriesOut w (.visit id context awaiter) (.visit id context)
  | perform {action awaiter} : CarriesOut w (.perform action awaiter) action
  | captured {action frame awaiter later} : w.Leads action later →
      CarriesOut w (.perform (.capture action frame) awaiter) later

/-- An action is carried out in a run that begins at a node. -/
def Walk.CarriesOut (w : Walk Context Output Frame) (scheduling : Scheduling) (root : NodeId)
    (context : Context) (action : Action Context Output Frame) : Prop :=
  match scheduling with
  | .direct => w.Leads (.visit root context) action
  | .queued => ∃ steps tasks, ∃ task ∈ ((Machine.start root context).history w steps tasks).1,
      task.CarriesOut w action

/-! ## Bounds -/

section Bounds

variable {w : Walk Context Output Frame} {b : Walk.Bounds Context Output Frame}
  {action later : Action Context Output Frame}

theorem Walk.Leads.within (hl : w.Leads action later) (h : w.Confined b) (ha : action.Within b) :
    later.Within b := by
  induction hl with
  | refl => exact ha
  | after _ ih => exact ih ha
  | enter _ hn _ ih => exact ih (h.enter _ _ _ hn ha.2)
  | node _ _ ih => exact ih ⟨ha.1 _ (List.mem_append_right _ (List.mem_cons_self ..)), ha.2.1⟩
  | gathered hr _ ih => exact ih (h.resume _ _ _ ha.2.2 (h.of_forall₂_reaches ha.1 ha.2.1 hr))
  | inner _ ih => exact ih ha.1
  | captured hy _ ih =>
    exact ih (h.resume _ _ _ ha.2 (List.forall_mem_singleton.2 (h.of_yields ha.1 hy)))

theorem Task.CarriesOut.within {task : Task Context Output Frame} (hc : task.CarriesOut w action)
    (h : w.Confined b) (ht : task.Within b) : action.Within b := by
  cases hc with
  | visit => exact ht
  | perform => exact ht
  | captured hl => exact hl.within h ht.1

namespace Machine

variable {m : Machine Context Output Frame} {steps : Nat}

/-- All tasks that a run of a confined walk does are within its bounds. -/
theorem Within.history (hm : m.Within b) (h : w.Confined b) (hs : m.Sound) (tasks : Nat) :
    ∀ task ∈ (m.history w steps tasks).1, task.Within b := by
  induction tasks generalizing m with
  | zero => exact fun _ ht => absurd ht List.not_mem_nil
  | succ tasks ih =>
    obtain ⟨task, rest, ht⟩ := List.exists_cons_of_ne_nil hs.tasks_ne_nil
    have hfirst : task.Within b := hm.tasks task (by rw [ht]; exact List.mem_cons_self ..)
    have hstep := step_spec hs w steps
    cases hp : m.step w steps with
    | running next =>
      rw [hp] at hstep
      rw [history_running ht hp]
      exact List.forall_mem_cons.2 ⟨hfirst, ih (hstep.within h hm) (hstep.sound hs)⟩
    | ended outcome =>
      rw [history_ended ht hp]
      exact List.forall_mem_singleton.2 hfirst

end Machine

/-- What is carried out in a run of a confined walk is within its bounds. -/
theorem Walk.CarriesOut.within {scheduling : Scheduling} {root : NodeId} {context : Context}
    (hc : w.CarriesOut scheduling root context action) (h : w.Confined b) (hroot : b.node root)
    (hcontext : b.context context) : action.Within b := by
  cases scheduling with
  | direct => exact Walk.Leads.within hc h ⟨hroot, hcontext⟩
  | queued =>
    obtain ⟨steps, tasks, task, hm, hc⟩ := hc
    exact hc.within h ((Machine.within_start hroot hcontext).history h
      (Machine.sound_start root context) tasks task hm)

end Bounds

/-! ## Errors -/

/-- The visits in a row are aborted where the first of them is. -/
theorem Outcome.gather_aborted {α : Type} {visit : NodeId → Outcome α} {before : List NodeId}
    {id : NodeId} {results : List (List Diagnostic × α)} {error : CompileError}
    (hbefore : List.Forall₂ (fun id r => visit id = .finished r.1 r.2) before results)
    (hid : visit id = .aborted error) (rest : List NodeId) :
    gather visit (before ++ id :: rest) = .aborted error := by
  induction hbefore with
  | nil => rw [List.nil_append, gather, hid, andThen]
  | cons hfirst _ ih => rw [List.cons_append, gather, hfirst, andThen, ih, andThen]

section Errors

variable {w : Walk Context Output Frame} {error : CompileError}
  {action later : Action Context Output Frame} {outcome : Outcome Output}

namespace Walk

/-! ### By recursion -/

/-- An outcome within some steps is the outcome within more. -/
theorem perform_eq_of_le {n k : Nat} (hne : outcome ≠ .unfinished)
    (h : w.perform n action = outcome) (hle : n ≤ k) : w.perform k action = outcome := by
  subst h
  exact (w.perform_below hle action).resolve_left hne

/-- The outcome of entering a node is that of visiting it. -/
theorem comes_entered {id : NodeId} {node : Node} {context : Context}
    (ha : id.isAbsent = false) (hn : w.store.node? id = some node)
    (h : w.Comes .direct (w.enter id node context) outcome) :
    w.Comes .direct (.visit id context) outcome := by
  obtain ⟨n, hne, h⟩ := h
  refine ⟨n + 1, hne, ?_⟩
  rw [perform, visitBy, ha, hn]
  exact h

theorem comes_captured_error (h : w.Comes .direct action (.aborted error)) (frame : Frame) :
    w.Comes .direct (.capture action frame) (.aborted error) := by
  obtain ⟨n, hne, h⟩ := h
  refine ⟨n + 1, hne, ?_⟩
  rw [perform, h]
  rfl

theorem comes_captured {frame : Frame} {r : Result Output} (hy : w.Yields action r)
    (h : w.Comes .direct (w.resume frame r.1 [r.2]) outcome) :
    w.Comes .direct (.capture action frame) outcome := by
  obtain ⟨n, hn⟩ := hy
  obtain ⟨k, hne, hk⟩ := h
  refine ⟨max n k + 1, hne, ?_⟩
  rw [perform, perform_of_le hn (Nat.le_max_left n k)]
  exact perform_eq_of_le hne hk (Nat.le_max_right n k)

/-- Visits that come to results do so within any number of steps that is large enough. -/
theorem exists_steps_le {context : Context} {ids : List NodeId} {results : List (Result Output)}
    (h : List.Forall₂ (w.Reaches context) ids results) (k : Nat) :
    ∃ n, k ≤ n ∧
      List.Forall₂ (fun id r => w.visit n id context = .finished r.1 r.2) ids results := by
  obtain ⟨n, hn⟩ := w.exists_steps_of_reaches h
  refine ⟨max n k, Nat.le_max_right n k, hn.imp fun id r hv => ?_⟩
  have hvisit : w.perform (n + 1) (.visit id context) = .finished r.1 r.2 := hv
  exact perform_eq_of_le (Outcome.finished_ne_unfinished _ _) hvisit
    (Nat.succ_le_succ (Nat.le_max_left n k))

theorem comes_node_error {before rest : List NodeId} {id : NodeId} {context : Context}
    {frame : Frame} {results : List (Result Output)}
    (hbefore : List.Forall₂ (w.Reaches context) before results)
    (h : w.Comes .direct (.visit id context) (.aborted error)) :
    w.Comes .direct (.gather (before ++ id :: rest) context frame) (.aborted error) := by
  obtain ⟨k, hne, hk⟩ := h
  obtain ⟨n, hle, hn⟩ := exists_steps_le hbefore k
  have hid : w.visit n id context = .aborted error :=
    perform_eq_of_le hne hk (Nat.le_succ_of_le hle)
  refine ⟨n + 1, hne, ?_⟩
  have hgather := Outcome.gather_aborted hn hid rest
  unfold visit at hgather
  rw [perform, hgather]
  rfl

theorem comes_gathered {ids : List NodeId} {context : Context} {frame : Frame}
    {results : List (Result Output)} (hids : List.Forall₂ (w.Reaches context) ids results)
    (h : w.Comes .direct
      (w.resume frame (results.flatMap Prod.fst) (results.map Prod.snd)) outcome) :
    w.Comes .direct (.gather ids context frame) outcome := by
  obtain ⟨k, hne, hk⟩ := h
  obtain ⟨n, hle, hn⟩ := exists_steps_le hids k
  refine ⟨n + 1, hne, ?_⟩
  have hgather := Outcome.gather_eq_finished_iff.2 ⟨results, hn, rfl, rfl⟩
  unfold visit at hgather
  rw [perform, hgather]
  exact perform_eq_of_le hne hk hle

/-- An error of what is carried out is that of the whole. -/
theorem Leads.comes (h : w.Leads action later) (hl : w.Comes .direct later (.aborted error)) :
    w.Comes .direct action (.aborted error) := by
  induction h with
  | refl => exact hl
  | after _ ih => exact comes_after (ih hl) _
  | enter ha hn _ ih => exact comes_entered ha hn (ih hl)
  | node hbefore _ ih => exact comes_node_error hbefore (ih hl)
  | gathered hids _ ih => exact comes_gathered hids (ih hl)
  | inner _ ih => exact comes_captured_error (ih hl) _
  | captured hy _ ih => exact comes_captured hy (ih hl)

/-- An action that stops whatever carries it out with an error: it aborts the run, or an action
does that it captures the output of, at once or after others. -/
inductive Stops (w : Walk Context Output Frame) (error : CompileError) :
    Action Context Output Frame → Prop where
  | abort : Stops w error (.abort error)
  | after {found action} : Stops w error action → Stops w error (.after found action)
  | inner {action frame} : w.Comes .direct action (.aborted error) →
      Stops w error (.capture action frame)
  | captured {action frame r} : w.Yields action r → Stops w error (w.resume frame r.1 [r.2]) →
      Stops w error (.capture action frame)

theorem Stops.comes (h : w.Stops error action) : w.Comes .direct action (.aborted error) := by
  induction h with
  | abort => exact w.comes_abort .direct error
  | after _ ih => exact comes_after ih _
  | inner h => exact comes_captured_error h _
  | captured hy _ ih => exact comes_captured hy ih

end Walk

/-! ### By a queue -/

namespace Machine

variable {m : Machine Context Output Frame} {task : Task Context Output Frame}
  {rest : List (Task Context Output Frame)} {awaiter : Awaiter}

/-- A step that does not end the run is the same when more is allowed to what it captures. -/
theorem step_of_le {m' : Machine Context Output Frame} {steps more : Nat} (hle : steps ≤ more)
    (h : m.step w steps = .running m') : m.step w more = .running m' := by
  unfold step at h ⊢
  split
  · rename_i hp
    rw [hp] at h
    cases h
  · rename_i task agenda hp
    rw [hp] at h
    cases task with
    | visit id context awaiter => exact h
    | resume awaiter found output => exact h
    | perform action awaiter =>
      dsimp only at h ⊢
      rcases perform_below (w := w) hle ({ m with agenda } : Machine ..) action awaiter with
        hu | he
      · rw [hu] at h
        cases h
      · rw [he]
        exact h

/-- A run that is aborted with an error, if enough is allowed to what is captured. -/
def Aborts (w : Walk Context Output Frame) (m : Machine Context Output Frame)
    (error : CompileError) : Prop :=
  ∃ steps tasks, ∀ more, steps ≤ more → m.run w more tasks = .aborted error

theorem aborts_of_ended (steps : Nat)
    (h : ∀ more, steps ≤ more → m.step w more = .ended (.aborted error)) : m.Aborts w error :=
  ⟨steps, 1, fun more hle => run_ended (h more hle) 0⟩

theorem Aborts.of_running {m' : Machine Context Output Frame} (h : m'.Aborts w error) (steps : Nat)
    (hs : m.step w steps = .running m') : m.Aborts w error := by
  obtain ⟨enough, tasks, hrun⟩ := h
  refine ⟨max steps enough, tasks + 1, fun more hle => ?_⟩
  rw [run_running (step_of_le (by omega) hs)]
  exact hrun more (by omega)

/-- A machine that is about to carry out an action which stops it. -/
theorem aborts_of_stops (h : w.Stops error action)
    (ht : m.tasks = .perform action awaiter :: rest) : m.Aborts w error := by
  induction h generalizing m awaiter with
  | abort =>
    obtain ⟨agenda, hp, -⟩ := exists_pop ht
    refine aborts_of_ended 0 fun more _ => ?_
    rw [step, hp]
    rfl
  | @after found action _ ih =>
    obtain ⟨agenda, hp, hrest⟩ := exists_pop ht
    have hnext := ih (m := ⟨agenda.pushFront (.perform action (.after found awaiter)),
      m.gatherings⟩) (congrArg (_ :: ·) hrest)
    refine hnext.of_running 0 ?_
    rw [step, hp]
    rfl
  | @inner action frame hc =>
    obtain ⟨n, hne, hn⟩ := hc
    obtain ⟨agenda, hp, -⟩ := exists_pop ht
    refine aborts_of_ended n fun more hle => ?_
    rw [step, hp]
    dsimp only [perform]
    rw [Walk.perform_eq_of_le hne hn hle]
  | @captured action frame r hy _ ih =>
    obtain ⟨n, hn⟩ := hy
    obtain ⟨agenda, hp, hrest⟩ := exists_pop ht
    have hnext := ih (m := ⟨agenda.pushFront (.perform (w.resume frame r.1 [r.2]) awaiter),
      m.gatherings⟩) (congrArg (_ :: ·) hrest)
    refine hnext.of_running n ?_
    rw [step, hp]
    dsimp only [perform]
    rw [hn]
    rfl

theorem aborts_of_carriesOut (hs : w.Stops error action) (hc : task.CarriesOut w action)
    (ht : m.tasks = task :: rest) : m.Aborts w error := by
  cases hc with
  | visit => cases hs
  | perform => exact aborts_of_stops hs ht
  | captured hl => exact aborts_of_stops (.inner (hl.comes hs.comes)) ht

/-- A run in whose course an action is carried out that stops it. -/
theorem aborts_of_history (hs : w.Stops error action) (hc : task.CarriesOut w action)
    {steps tasks : Nat} (hm : task ∈ (m.history w steps tasks).1) : m.Aborts w error := by
  induction tasks generalizing m with
  | zero => cases hm
  | succ tasks ih =>
    cases ht : m.tasks with
    | nil =>
      rw [history, (m.agenda.pop?_eq_none_iff).2 ht] at hm
      cases hm
    | cons first rest =>
      cases hp : m.step w steps with
      | running next =>
        rw [history_running ht hp] at hm
        rcases List.mem_cons.1 hm with rfl | hm
        · exact aborts_of_carriesOut hs hc ht
        · exact (ih hm).of_running _ hp
      | ended outcome =>
        rw [history_ended ht hp, List.mem_singleton] at hm
        subst hm
        exact aborts_of_carriesOut hs hc ht

end Machine

/-- A run that carries out an action which stops it ends with the error, whatever else is left to be
done. -/
theorem Walk.CarriesOut.aborted {scheduling : Scheduling} {root : NodeId} {context : Context}
    (hc : w.CarriesOut scheduling root context action) (hs : w.Stops error action) :
    ∃ n, ∀ more, n ≤ more → w.run scheduling more root context = .aborted error := by
  cases scheduling with
  | direct =>
    obtain ⟨n, hne, hn⟩ := Walk.Leads.comes hc hs.comes
    exact ⟨n, fun more hle => Walk.perform_eq_of_le hne hn (Nat.le_succ_of_le hle)⟩
  | queued =>
    obtain ⟨steps, tasks, task, hm, hc⟩ := hc
    obtain ⟨enough, count, hrun⟩ := Machine.aborts_of_history hs hc hm
    refine ⟨max enough count, fun more hle => ?_⟩
    have hbelow := Machine.run_below (w := w) (Nat.le_refl more)
      (show count ≤ more by omega) (Machine.start root context)
    rw [hrun more (by omega)] at hbelow
    exact hbelow.resolve_left (Outcome.aborted_ne_unfinished error)

end Errors

end Juxta
