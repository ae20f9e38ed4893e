import Mathlib.Data.List.Forall2
import Juxta.Compile

/-!
# Walks that go on where others run away

Two walks over one store may differ in that one aborts for want of room where the other goes on. As
long as it does not abort, both do the same in the same steps.

* `Action.Prolongs` : the same action, but for an abort inside it for want of room;
* `Walk.Prolongs` : what must be shown of two walks;
* `Outcome.RanAway`, `Walk.Prolongs.perform` : by recursion;
* `Task.Prolongs`, `Machine.Prolongs` : tasks that wait, `Machine.Prolongs.run` : by a queue;
* `Walk.Prolongs.run` : under either way of scheduling.
-/

namespace Juxta

variable {Context Output Frame : Type}

/-- The same action, unless the second one aborts because too many scopes were to be entered. -/
inductive Action.Prolongs : Action Context Output Frame → Action Context Output Frame → Prop where
  | done (found : List Diagnostic) (output : Output) :
      Prolongs (.done found output) (.done found output)
  | abort (error : CompileError) : Prolongs (.abort error) (.abort error)
  | runaway (action : Action Context Output Frame) (cause : Runaway) (place : Option Coord) :
      Prolongs action (.abort (.runaway cause place))
  | endless : Prolongs .endless .endless
  | after {action' action : Action Context Output Frame} (found : List Diagnostic) :
      Prolongs action' action → Prolongs (.after found action') (.after found action)
  | visit (node : NodeId) (context : Context) :
      Prolongs (.visit node context) (.visit node context)
  | gather (nodes : List NodeId) (context : Context) (frame : Frame) :
      Prolongs (.gather nodes context frame) (.gather nodes context frame)
  | capture {action' action : Action Context Output Frame} (frame : Frame) :
      Prolongs action' action → Prolongs (.capture action' frame) (.capture action frame)

theorem Action.Prolongs.refl (action : Action Context Output Frame) : action.Prolongs action := by
  induction action with
  | done found output => exact .done found output
  | abort error => exact .abort error
  | endless => exact .endless
  | after found action ih => exact .after found ih
  | visit node context => exact .visit node context
  | gather nodes context frame => exact .gather nodes context frame
  | capture action frame ih => exact .capture frame ih

/-- A walk that does what another one does, unless that one aborts for want of room. -/
structure Walk.Prolongs (w' w : Walk Context Output Frame) : Prop where
  store : w'.store = w.store
  absent : w'.absent = w.absent
  enter : ∀ id node context, (w'.enter id node context).Prolongs (w.enter id node context)
  resume : ∀ frame found outputs,
    (w'.resume frame found outputs).Prolongs (w.resume frame found outputs)

/-! ## By recursion -/

namespace Outcome

variable {α β : Type}

/-- Too many scopes were to be entered. -/
inductive RanAway : Outcome α → Prop where
  | aborted (cause : Runaway) (place : Option Coord) : RanAway (.aborted (.runaway cause place))

theorem RanAway.exists_eq {o : Outcome α} (h : o.RanAway) :
    ∃ cause place, o = .aborted (.runaway cause place) := by
  cases h with
  | aborted cause place => exact ⟨cause, place, rfl⟩

/-- The same outcome, unless the second one has run away. -/
def Prolongs (o' o : Outcome α) : Prop := o.RanAway ∨ o' = o

theorem Prolongs.refl (o : Outcome α) : o.Prolongs o := .inr rfl

theorem Prolongs.prepend {o' o : Outcome α} (h : o'.Prolongs o) (found : List Diagnostic) :
    (o'.prepend found).Prolongs (o.prepend found) := by
  rcases h with ⟨cause, place⟩ | rfl
  · exact .inl (.aborted cause place)
  · exact .refl _

theorem Prolongs.andThen {o' o : Outcome α} {next' next : List Diagnostic → α → Outcome β}
    (h : o'.Prolongs o) (k : ∀ found output, (next' found output).Prolongs (next found output)) :
    (o'.andThen next').Prolongs (o.andThen next) := by
  rcases h with ⟨cause, place⟩ | rfl
  · exact .inl (.aborted cause place)
  · cases o' with
    | finished found output => exact k found output
    | aborted error => exact .refl _
    | unfinished => exact .refl _

theorem Prolongs.gather {visit' visit : NodeId → Outcome α}
    (h : ∀ id, (visit' id).Prolongs (visit id)) (ids : List NodeId) :
    (gather visit' ids).Prolongs (gather visit ids) := by
  induction ids with
  | nil => exact .refl _
  | cons id rest ih => exact (h id).andThen fun _ _ => ih.andThen fun _ _ => .refl _

end Outcome

namespace Walk.Prolongs

variable {w' w : Walk Context Output Frame}

theorem visitBy (h : w'.Prolongs w)
    {perform' perform : Action Context Output Frame → Outcome Output}
    (hp : ∀ action' action, action'.Prolongs action → (perform' action').Prolongs (perform action))
    (id : NodeId) (context : Context) :
    (w'.visitBy perform' id context).Prolongs (w.visitBy perform id context) := by
  unfold Walk.visitBy
  rw [h.store, h.absent]
  split
  · exact .refl _
  · split
    · exact .refl _
    · exact hp _ _ (h.enter id _ context)

theorem perform (h : w'.Prolongs w) (steps : Nat) {action' action : Action Context Output Frame}
    (ha : action'.Prolongs action) :
    (w'.perform steps action').Prolongs (w.perform steps action) := by
  induction steps generalizing action' action with
  | zero => exact .refl _
  | succ steps ih =>
    cases ha with
    | done found output => exact .refl _
    | abort error => exact .refl _
    | runaway action' cause place => exact .inl (.aborted cause place)
    | endless => exact .refl _
    | after found ha => exact (ih ha).prepend found
    | visit id context => exact h.visitBy (fun _ _ => ih) id context
    | gather ids context frame =>
      refine (Outcome.Prolongs.gather (h.visitBy (fun _ _ => ih) · context) ids).andThen ?_
      exact fun found outputs => ih (h.resume frame found outputs)
    | capture frame ha =>
      exact (ih ha).andThen fun found output => ih (h.resume frame found [output])

end Walk.Prolongs

/-! ## By a queue -/

/-- The same task, but for what an action does inside it. -/
inductive Task.Prolongs : Task Context Output Frame → Task Context Output Frame → Prop where
  | visit (node : NodeId) (context : Context) (awaiter : Awaiter) :
      Prolongs (.visit node context awaiter) (.visit node context awaiter)
  | resume (awaiter : Awaiter) (found : List Diagnostic) (output : Output) :
      Prolongs (.resume awaiter found output) (.resume awaiter found output)
  | perform {action' action : Action Context Output Frame} (awaiter : Awaiter) :
      action'.Prolongs action → Prolongs (.perform action' awaiter) (.perform action awaiter)

theorem Task.Prolongs.refl (task : Task Context Output Frame) : task.Prolongs task := by
  cases task with
  | visit node context awaiter => exact .visit node context awaiter
  | resume awaiter found output => exact .resume awaiter found output
  | perform action awaiter => exact .perform awaiter (.refl action)

namespace Machine

/-- The same gatherings, and tasks that do the same in the same order. -/
structure Prolongs (m' m : Machine Context Output Frame) : Prop where
  front : List.Forall₂ Task.Prolongs m'.agenda.front m.agenda.front
  back : List.Forall₂ Task.Prolongs m'.agenda.back m.agenda.back
  gatherings : m'.gatherings = m.gatherings

/-- Machines that do the same, or the same outcome, unless the second one has run away. -/
inductive Progress.Prolongs :
    Progress Context Output Frame → Progress Context Output Frame → Prop where
  | running {m' m : Machine Context Output Frame} : m'.Prolongs m →
      Prolongs (.running m') (.running m)
  | ended (outcome : Outcome Output) : Prolongs (.ended outcome) (.ended outcome)
  | ranAway (progress : Progress Context Output Frame) {outcome : Outcome Output} :
      outcome.RanAway → Prolongs progress (.ended outcome)

variable {w' w : Walk Context Output Frame} {m' m : Machine Context Output Frame}
  {task' task : Task Context Output Frame}

theorem Prolongs.soon (h : m'.Prolongs m) (ht : task'.Prolongs task) :
    (m'.soon task').Prolongs (m.soon task) := .running ⟨.cons ht h.front, h.back, h.gatherings⟩

theorem Prolongs.later (h : m'.Prolongs m) (ht : task'.Prolongs task) :
    (m'.later task').Prolongs (m.later task) := .running ⟨h.front, .cons ht h.back, h.gatherings⟩

theorem Prolongs.visit (h : m'.Prolongs m) (hw : w'.Prolongs w) (id : NodeId) (context : Context)
    (awaiter : Awaiter) :
    (m'.visit w' id context awaiter).Prolongs (m.visit w id context awaiter) := by
  unfold Machine.visit
  rw [hw.store, hw.absent]
  split
  · exact h.soon (.refl _)
  · split
    · exact .ended _
    · exact h.soon (.perform awaiter (hw.enter id _ context))

theorem Prolongs.withGatherings (h : m'.Prolongs m) (gatherings : Array (Gathering Output Frame)) :
    Machine.Prolongs { m' with gatherings } { m with gatherings } := ⟨h.front, h.back, rfl⟩

theorem Prolongs.resume (h : m'.Prolongs m) (hw : w'.Prolongs w) (awaiter : Awaiter)
    (found : List Diagnostic) (output : Output) :
    (m'.resume w' awaiter found output).Prolongs (m.resume w awaiter found output) := by
  cases awaiter with
  | root => exact .ended _
  | after before awaiter => exact h.soon (.refl _)
  | slot number position =>
    unfold Machine.resume
    dsimp only
    rw [h.gatherings]
    split
    · exact .running h
    · split
      · exact (h.withGatherings _).soon (.perform _ (hw.resume _ _ _))
      · exact .running (h.withGatherings _)

theorem visits_prolongs (number : Nat) (context : Context) (ids : List NodeId) (position : Nat)
    {agenda' agenda : Agenda (Task Context Output Frame)}
    (hfront : List.Forall₂ Task.Prolongs agenda'.front agenda.front)
    (hback : List.Forall₂ Task.Prolongs agenda'.back agenda.back) :
    List.Forall₂ Task.Prolongs (visits number context position ids agenda').front
        (visits number context position ids agenda).front ∧
      List.Forall₂ Task.Prolongs (visits number context position ids agenda').back
        (visits number context position ids agenda).back := by
  induction ids generalizing position agenda' agenda with
  | nil => exact ⟨hfront, hback⟩
  | cons id rest ih => exact ih (position + 1) hfront (.cons (.refl _) hback)

theorem Prolongs.perform (h : m'.Prolongs m) (hw : w'.Prolongs w) (steps : Nat)
    {action' action : Action Context Output Frame} (ha : action'.Prolongs action)
    (awaiter : Awaiter) :
    (m'.perform w' steps action' awaiter).Prolongs (m.perform w steps action awaiter) := by
  cases ha with
  | done found output => exact h.later (.refl _)
  | abort error => exact .ended _
  | runaway action' cause place => exact .ranAway _ (.aborted cause place)
  | endless => exact .ended _
  | after found ha => exact h.soon (.perform _ ha)
  | visit id context => exact h.later (.refl _)
  | gather ids context frame =>
    unfold Machine.perform
    dsimp only
    split
    · exact h.soon (.perform awaiter (hw.resume frame [] []))
    · rw [h.gatherings]
      obtain ⟨hfront, hback⟩ :=
        visits_prolongs m.gatherings.size context ids 0 h.front h.back
      exact .running ⟨hfront, hback, rfl⟩
  | @capture action' action frame ha =>
    unfold Machine.perform
    dsimp only
    rcases hw.perform steps ha with haway | hsame
    · generalize w.perform steps action = outcome at haway
      obtain ⟨cause, place⟩ := haway
      exact .ranAway _ (.aborted cause place)
    · rw [hsame]
      split
      · exact h.soon (.perform awaiter (hw.resume frame _ _))
      · exact .ended _
      · exact .ended _

theorem Prolongs.pop? (h : m'.Prolongs m) :
    (m'.agenda.pop? = none ∧ m.agenda.pop? = none) ∨
      ∃ task' task agenda' agenda, m'.agenda.pop? = some (task', agenda') ∧
        m.agenda.pop? = some (task, agenda) ∧ task'.Prolongs task ∧
        Machine.Prolongs { m' with agenda := agenda' } { m with agenda } := by
  obtain ⟨⟨front', back'⟩, gatherings'⟩ := m'
  obtain ⟨⟨front, back⟩, gatherings⟩ := m
  obtain ⟨hfront, hback, hgatherings⟩ := h
  unfold Agenda.pop?
  cases hfront with
  | cons htask hrest => exact .inr ⟨_, _, _, _, rfl, rfl, htask, hrest, hback, hgatherings⟩
  | nil =>
    have hreverse := List.rel_reverse hback
    dsimp only at hreverse ⊢
    generalize back'.reverse = tasks' at hreverse ⊢
    generalize back.reverse = tasks at hreverse ⊢
    cases hreverse with
    | nil => exact .inl ⟨rfl, rfl⟩
    | cons htask hrest => exact .inr ⟨_, _, _, _, rfl, rfl, htask, hrest, .nil, hgatherings⟩

theorem Prolongs.step (h : m'.Prolongs m) (hw : w'.Prolongs w) (steps : Nat) :
    (m'.step w' steps).Prolongs (m.step w steps) := by
  unfold Machine.step
  rcases h.pop? with ⟨hm', hm⟩ | ⟨task', task, agenda', agenda, hm', hm, htask, hrest⟩
  · rw [hm', hm]
    exact .ended _
  · rw [hm', hm]
    cases htask with
    | visit id context awaiter => exact hrest.visit hw id context awaiter
    | resume awaiter found output => exact hrest.resume hw awaiter found output
    | perform awaiter ha => exact hrest.perform hw steps ha awaiter

theorem Prolongs.run (h : m'.Prolongs m) (hw : w'.Prolongs w) (steps tasks : Nat) :
    (m'.run w' steps tasks).Prolongs (m.run w steps tasks) := by
  induction tasks generalizing m' m with
  | zero => exact .refl _
  | succ tasks ih =>
    have hstep := h.step hw steps
    unfold Machine.run
    generalize m'.step w' steps = p' at hstep ⊢
    generalize m.step w steps = p at hstep ⊢
    cases hstep with
    | running hm => exact ih hm
    | ended outcome => exact .refl _
    | ranAway p' haway => exact .inl haway

end Machine

/-- The outcomes are the same within the same steps, unless the second walk has run away. -/
theorem Walk.Prolongs.run {w' w : Walk Context Output Frame} (h : w'.Prolongs w)
    (scheduling : Scheduling) (steps : Nat) (id : NodeId) (context : Context) :
    (w'.run scheduling steps id context).Prolongs (w.run scheduling steps id context) := by
  cases scheduling with
  | direct => exact h.visitBy (fun _ _ => h.perform steps) id context
  | queued =>
    have hstart : (Machine.start id context : Machine Context Output Frame).Prolongs
        (.start id context) := ⟨.nil, .cons (.refl _) .nil, rfl⟩
    exact hstart.run h steps steps

end Juxta
