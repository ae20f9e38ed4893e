import Juxta.Proofs.Walk.Handing

/-!
# Visits with continuations

By recursion a visit gives back its outcome. Here it is handed a continuation instead, which it
calls with its output, and a record is kept of the continuations handed to visits and of those that
are called. The outcome is the same, and if there is an output, every continuation has been called
once.

* `Calls` : the record; `Calls.Leads`, `Calls.Settles` : what may come to it, and what does if
  nothing is cut short;
* `Walk.performWith`, `Walk.visitWith` : actions and visits with continuations;
* `Outcome.Continues` : a continuation is called with the output of an outcome;
* `Walk.performWith_continues` : that is so of all actions;
* `Walk.exists_passing` : the outcome and the record of a whole walk.
-/

namespace Juxta

/-! ## Records of calls -/

/-- The continuations handed to visits, which are numbered from zero on, and those that are
called. -/
structure Calls where
  handed : Nat
  called : List Nat

namespace Calls

def none : Calls := ⟨0, []⟩

/-- A continuation is handed to a visit. -/
def hand (log : Calls) : Calls := { log with handed := log.handed + 1 }

/-- The continuation with a number is called. -/
def call (log : Calls) (number : Nat) : Calls := { log with called := number :: log.called }

/-- Every continuation has been called once. -/
def Complete (log : Calls) : Prop := ∀ number < log.handed, log.called.count number = 1

/-- How often a continuation is called if each one handed on after the first record and before the
second one is called once. -/
def fresh (log log' : Calls) (number : Nat) : Nat :=
  if log.handed ≤ number ∧ number < log'.handed then 1 else 0

/-- From one record to another only continuations handed on in between are called, none twice. -/
structure Leads (log log' : Calls) : Prop where
  handed : log.handed ≤ log'.handed
  called : ∀ number, log'.called.count number ≤ log.called.count number + log.fresh log' number

/-- From one record to another the continuations handed on in between are called, each once. -/
structure Settles (log log' : Calls) : Prop where
  handed : log.handed ≤ log'.handed
  called : ∀ number, log'.called.count number = log.called.count number + log.fresh log' number

variable {log log' log'' : Calls}

theorem fresh_self (log : Calls) (number : Nat) : log.fresh log number = 0 :=
  if_neg fun h => Nat.not_lt.2 h.1 h.2

theorem fresh_add_fresh (h : log.handed ≤ log'.handed) (h' : log'.handed ≤ log''.handed)
    (number : Nat) : log.fresh log' number + log'.fresh log'' number = log.fresh log'' number := by
  unfold fresh
  split_ifs <;> omega

theorem fresh_hand (h : log.hand.handed ≤ log'.handed) (number : Nat) :
    log.fresh log' number = log.hand.fresh log' number + if log.handed = number then 1 else 0 := by
  unfold fresh hand at *
  dsimp only at h ⊢
  split_ifs <;> omega

theorem Settles.leads (h : log.Settles log') : log.Leads log' :=
  ⟨h.handed, fun number => Nat.le_of_eq (h.called number)⟩

theorem Settles.refl (log : Calls) : log.Settles log :=
  ⟨Nat.le_refl _, fun number => by rw [fresh_self, Nat.add_zero]⟩

theorem Settles.trans (h : log.Settles log') (h' : log'.Settles log'') : log.Settles log'' where
  handed := Nat.le_trans h.handed h'.handed
  called number := by
    rw [h'.called, h.called, Nat.add_assoc, fresh_add_fresh h.handed h'.handed]

theorem Leads.trans (h : log.Leads log') (h' : log'.Leads log'') : log.Leads log'' where
  handed := Nat.le_trans h.handed h'.handed
  called number := by
    have hfirst := h.called number
    have hsecond := h'.called number
    rw [← fresh_add_fresh h.handed h'.handed]
    omega

/-- A continuation handed on is called after all those handed on since. -/
theorem Settles.call (h : log.hand.Settles log') : log.Settles (log'.call log.handed) where
  handed := Nat.le_trans (Nat.le_succ _) h.handed
  called number := by
    have hcalled := h.called number
    have hfresh : log.fresh (log'.call log.handed) number = log.fresh log' number := rfl
    rw [hfresh, fresh_hand h.handed]
    unfold Calls.call
    rw [List.count_cons, hcalled]
    simp only [beq_iff_eq]
    exact Nat.add_assoc ..

/-- A continuation handed on need not be called. -/
theorem Leads.of_hand (h : log.hand.Leads log') : log.Leads log' where
  handed := Nat.le_trans (Nat.le_succ _) h.handed
  called number := by
    have hcalled : log'.called.count number ≤ log.called.count number + log.hand.fresh log' number :=
      h.called number
    rw [fresh_hand h.handed]
    omega

theorem Settles.complete (h : none.Settles log) : log.Complete := by
  intro number hlt
  rw [h.called, fresh, if_pos ⟨Nat.zero_le _, hlt⟩]
  rfl

theorem Leads.count_le_one (h : none.Leads log) (number : Nat) : log.called.count number ≤ 1 := by
  have hcalled : log.called.count number ≤ 0 + none.fresh log number := h.called number
  unfold fresh at hcalled
  split at hcalled <;> omega

end Calls

variable {Context Output Frame : Type}

/-! ## Continuations -/

/-- What is done with an output, given the record of calls so far. -/
abbrev Continuation (Output α : Type) :=
  List Diagnostic → α → Calls → Outcome Output × Calls

/-- The walk ends with the output. -/
def Continuation.finish : Continuation Output Output := fun found output log =>
  (.finished found output, log)

/-- A computation that goes on with a continuation. -/
abbrev Passing (Output α : Type) := Continuation Output α → Calls → Outcome Output × Calls

namespace Passing

/-- Hands the continuation to a visit. -/
def hand (visit : Passing Output Output) : Passing Output Output := fun next log =>
  visit (fun found output log' => next found output (log'.call log.handed)) log.hand

/-- Brings a computation to its end before the continuation is called. -/
def capture (p : Passing Output Output) : Passing Output Output := fun next log =>
  match p .finish log with
  | (.finished found output, log) => next found output log
  | (.aborted error, log) => (.aborted error, log)
  | (.unfinished, log) => (.unfinished, log)

/-- Goes on with the outputs of several visits in a row. -/
def gather (visit : NodeId → Passing Output Output) : List NodeId → Passing Output (List Output)
  | [] => fun next log => next [] [] log
  | id :: rest => fun next => visit id fun found output =>
    gather visit rest fun more outputs => next (found ++ more) (output :: outputs)

end Passing

namespace Walk

/-- Visits a node for a continuation. -/
def visitWith (w : Walk Context Output Frame)
    (perform : Action Context Output Frame → Passing Output Output) (id : NodeId)
    (context : Context) : Passing Output Output :=
  Passing.hand <|
    if id.isAbsent then fun next log => next [] w.absent log
    else match w.store.node? id with
      | none => fun _ log => (.aborted (.missingNode id), log)
      | some node => perform (w.enter id node context)

/-- Carries out an action for a continuation. -/
def performWith (w : Walk Context Output Frame) : (steps : Nat) → Action Context Output Frame →
    Passing Output Output
  | 0, _ => fun _ log => (.unfinished, log)
  | steps + 1, action => match action with
    | .done found output => fun next log => next found output log
    | .abort error => fun _ log => (.aborted error, log)
    | .endless => fun _ log => (.unfinished, log)
    | .after found action => fun next =>
      w.performWith steps action fun more => next (found ++ more)
    | .visit id context => w.visitWith (w.performWith steps) id context
    | .gather ids context frame => fun next =>
      Passing.gather (fun id => w.visitWith (w.performWith steps) id context) ids
        fun found outputs => w.performWith steps (w.resume frame found outputs) next
    | .capture action frame => fun next =>
      (w.performWith steps action).capture fun found output =>
        w.performWith steps (w.resume frame found [output]) next

/-- The outcome of an action, and the record of the continuations handed to visits. -/
def passing (w : Walk Context Output Frame) (steps : Nat) (action : Action Context Output Frame) :
    Outcome Output × Calls :=
  w.performWith steps action .finish .none

end Walk

/-! ## Where they lead -/

namespace Outcome

variable {α β : Type}

/-- The answer, from one record of calls to another: that of the continuation if there is an output,
when every continuation handed on in between has been called, and else the outcome itself. -/
def Answers (outcome : Outcome α) (next : Continuation Output α) (log log' : Calls)
    (answer : Outcome Output × Calls) : Prop :=
  match outcome with
  | .finished found output => log.Settles log' ∧ answer = next found output log'
  | .aborted error => log.Leads log' ∧ answer = (.aborted error, log')
  | .unfinished => log.Leads log' ∧ answer = (.unfinished, log')

/-- A computation answers as an outcome does, whatever its continuation. -/
def Continues (outcome : Outcome α) (p : Passing Output α) : Prop :=
  ∀ next log, ∃ log', outcome.Answers next log log' (p next log)

theorem Answers.of_settles {outcome : Outcome α} {next : Continuation Output α}
    {log log' log'' : Calls} {answer : Outcome Output × Calls}
    (h : outcome.Answers next log' log'' answer) (hs : log.Settles log') :
    outcome.Answers next log log'' answer := by
  cases outcome with
  | finished found output => exact ⟨hs.trans h.1, h.2⟩
  | aborted error => exact ⟨hs.leads.trans h.1, h.2⟩
  | unfinished => exact ⟨hs.leads.trans h.1, h.2⟩

theorem continues_finished (found : List Diagnostic) (output : α) :
    (finished found output).Continues fun (next : Continuation Output α) log => next found output log :=
  fun _ log => ⟨log, .refl log, rfl⟩

theorem continues_aborted (error : CompileError) :
    (aborted error).Continues fun (_ : Continuation Output α) log => (.aborted error, log) :=
  fun _ log => ⟨log, (Calls.Settles.refl log).leads, rfl⟩

theorem continues_unfinished :
    unfinished.Continues fun (_ : Continuation Output α) log => (.unfinished, log) :=
  fun _ log => ⟨log, (Calls.Settles.refl log).leads, rfl⟩

theorem Continues.andThen {outcome : Outcome α} {p : Passing Output α}
    {next : List Diagnostic → α → Outcome β} {q : List Diagnostic → α → Passing Output β}
    (h : outcome.Continues p) (hq : ∀ found output, (next found output).Continues (q found output)) :
    (outcome.andThen next).Continues fun k => p fun found output => q found output k := by
  intro k log
  obtain ⟨log', hp⟩ := h (fun found output => q found output k) log
  cases outcome with
  | aborted error => exact ⟨log', hp⟩
  | unfinished => exact ⟨log', hp⟩
  | finished found output =>
    obtain ⟨hsettles, he⟩ := hp
    obtain ⟨log'', hnext⟩ := hq found output k log'
    refine ⟨log'', ?_⟩
    show (next found output).Answers k log log'' (p (fun found output => q found output k) log)
    rw [he]
    exact hnext.of_settles hsettles

theorem Continues.prepend {outcome : Outcome α} {p : Passing Output α} (h : outcome.Continues p)
    (found : List Diagnostic) :
    (outcome.prepend found).Continues fun k => p fun more => k (found ++ more) := by
  intro k log
  obtain ⟨log', hp⟩ := h (fun more => k (found ++ more)) log
  cases outcome <;> exact ⟨log', hp⟩

theorem Continues.gather {visit : NodeId → Outcome Output}
    {passing : NodeId → Passing Output Output} (h : ∀ id, (visit id).Continues (passing id))
    (ids : List NodeId) : (gather visit ids).Continues (Passing.gather passing ids) := by
  induction ids with
  | nil => exact continues_finished [] []
  | cons id rest ih =>
    exact (h id).andThen fun found output =>
      ih.andThen fun more outputs => continues_finished (found ++ more) (output :: outputs)

/-- The continuation handed to a visit is called after those that the visit hands on. -/
theorem Continues.hand {outcome : Outcome Output} {p : Passing Output Output}
    (h : outcome.Continues p) : outcome.Continues p.hand := by
  intro next log
  obtain ⟨log', hp⟩ :=
    h (fun found output log' => next found output (log'.call log.handed)) log.hand
  cases outcome with
  | finished found output => exact ⟨log'.call log.handed, hp.1.call, hp.2⟩
  | aborted error => exact ⟨log', hp.1.of_hand, hp.2⟩
  | unfinished => exact ⟨log', hp.1.of_hand, hp.2⟩

theorem Continues.capture {outcome : Outcome Output} {p : Passing Output Output}
    (h : outcome.Continues p) : outcome.Continues p.capture := by
  intro next log
  obtain ⟨log', hp⟩ := h .finish log
  refine ⟨log', ?_⟩
  unfold Passing.capture
  cases outcome <;> rw [hp.2] <;> exact ⟨hp.1, rfl⟩

end Outcome

namespace Walk

variable {w : Walk Context Output Frame}

theorem visitWith_continues {perform : Action Context Output Frame → Outcome Output}
    {passing : Action Context Output Frame → Passing Output Output}
    (h : ∀ action, (perform action).Continues (passing action)) (id : NodeId) (context : Context) :
    (w.visitBy perform id context).Continues (w.visitWith passing id context) := by
  unfold visitBy visitWith
  refine Outcome.Continues.hand ?_
  split
  · exact Outcome.continues_finished [] w.absent
  · cases w.store.node? id with
    | none => exact Outcome.continues_aborted _
    | some node => exact h _

/-- An action with a continuation answers as the action does by recursion. -/
theorem performWith_continues (w : Walk Context Output Frame) (steps : Nat)
    (action : Action Context Output Frame) :
    (w.perform steps action).Continues (w.performWith steps action) := by
  induction steps generalizing action with
  | zero => exact Outcome.continues_unfinished
  | succ steps ih =>
    cases action with
    | done found output => exact Outcome.continues_finished found output
    | abort error => exact Outcome.continues_aborted error
    | endless => exact Outcome.continues_unfinished
    | after found action => exact (ih action).prepend found
    | visit id context => exact visitWith_continues ih id context
    | gather ids context frame =>
      exact (Outcome.Continues.gather (fun id => visitWith_continues ih id context) ids).andThen
        fun found outputs => ih (w.resume frame found outputs)
    | capture action frame =>
      exact (ih action).capture.andThen fun found output => ih (w.resume frame found [output])

/-! ## Whole runs -/

/-- With continuations a walk has the same outcome. No continuation is called twice, and if there is
an output each one has been called. -/
theorem exists_passing (w : Walk Context Output Frame) (steps : Nat)
    (action : Action Context Output Frame) : ∃ log, w.passing steps action =
      (w.perform steps action, log) ∧ (∀ number, log.called.count number ≤ 1) ∧
        ((w.perform steps action).Finished → log.Complete) := by
  obtain ⟨log, hp⟩ := w.performWith_continues steps action .finish .none
  unfold passing
  cases ho : w.perform steps action with
  | finished found output =>
    rw [ho] at hp
    exact ⟨log, hp.2, hp.1.leads.count_le_one, fun _ => hp.1.complete⟩
  | aborted error =>
    rw [ho] at hp
    exact ⟨log, hp.2, hp.1.count_le_one, False.elim⟩
  | unfinished =>
    rw [ho] at hp
    exact ⟨log, hp.2, hp.1.count_le_one, False.elim⟩

end Walk

end Juxta
