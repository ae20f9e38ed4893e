import Juxta.Proofs.Scheduling
import Juxta.Proofs.Walk.History
import Juxta.Proofs.Walk.Passing

/-!
# Every visit resumes

Whatever the nodes of a snapshot are, a walk over them either is stopped by a call one scope too
deep, or never ends, or calls each continuation handed to a visit once.

* `Walk.CallsOnce`, `Machine.CallsOnce` : how often continuations are called by recursion and by a
  queue; every walk is so (`Walk.callsOnce`, `Machine.Sound.callsOnce`);
* `CompileResult.Ends` : how compilation ends, once a snapshot is accepted (`ends_compileWithin`).
-/

namespace Juxta

variable {Context Output Frame : Type}

/-! ## Walks -/

/-- By recursion no continuation handed to a visit is called twice, and if there is an output, each
is called. -/
def Walk.CallsOnce (w : Walk Context Output Frame) (steps : Nat)
    (action : Action Context Output Frame) : Prop :=
  ∃ log, w.passing steps action = (w.perform steps action, log) ∧
    (∀ number, log.called.count number ≤ 1) ∧ ((w.perform steps action).Finished → log.Complete)

/-- A run by a queue gives no awaiter two outputs. If it finishes, each awaiter handed to a visit has
got one, nothing is left to do, and each action that was captured has finished; those are carried
out by recursion. -/
structure Machine.CallsOnce (w : Walk Context Output Frame) (steps : Nat)
    (m : Machine Context Output Frame) (tasks : Nat) : Prop where
  once : ∀ a, (m.history w steps tasks).1.countP (Task.calls a) ≤ 1
  visits : (m.run w steps tasks).Finished → ∀ id context a,
    .visit id context a ∈ (m.history w steps tasks).1 →
      (m.history w steps tasks).1.countP (Task.calls a) = 1
  left : (m.run w steps tasks).Finished → (m.history w steps tasks).2 = []
  captures : ∀ action frame a,
    .perform (.capture action frame) a ∈ (m.history w steps tasks).1 → w.CallsOnce steps action
  captured : (m.run w steps tasks).Finished → ∀ action frame a,
    .perform (.capture action frame) a ∈ (m.history w steps tasks).1 →
      (w.perform steps action).Finished

/-- How often continuations are called in a walk from a node, under either way of scheduling. -/
def Walk.RunCallsOnce (w : Walk Context Output Frame) (scheduling : Scheduling) (steps : Nat)
    (root : NodeId) (context : Context) : Prop :=
  match scheduling with
  | .direct => w.CallsOnce (steps + 1) (.visit root context)
  | .queued => (Machine.start root context).CallsOnce w steps steps

theorem Walk.callsOnce (w : Walk Context Output Frame) (steps : Nat)
    (action : Action Context Output Frame) : w.CallsOnce steps action :=
  w.exists_passing steps action

/-- The visit of a list hands on one continuation for itself and one for each element. -/
example : (checking Store.nulls).passing 20 (.visit ⟨2⟩ ()) =
    (.finished [] .list, ⟨3, [0, 2, 1]⟩) := rfl

theorem Machine.Sound.callsOnce {m : Machine Context Output Frame} (h : m.Sound)
    (w : Walk Context Output Frame) (steps tasks : Nat) : m.CallsOnce w steps tasks where
  once := (h.trace tasks).countP_le_one
  visits hf _ _ _ hv := (h.trace tasks).countP_of_visit hf hv
  left := (h.trace tasks).left_eq_nil
  captures action _ _ _ := w.callsOnce steps action
  captured hf _ _ _ hc := (h.trace tasks).perform_of_capture hf hc

theorem Walk.runCallsOnce (w : Walk Context Output Frame) (scheduling : Scheduling) (steps : Nat)
    (root : NodeId) (context : Context) : w.RunCallsOnce scheduling steps root context := by
  cases scheduling with
  | direct => exact w.callsOnce (steps + 1) (.visit root context)
  | queued => exact (Machine.sound_start root context).callsOnce w steps steps

/-! ## Compilation -/

/-- How compilation ends, once a snapshot is accepted: nothing is missing, and nothing is left
without an output. -/
inductive CompileResult.Ends (config : Config) (snapshot : Snapshot) (check : Outcome Shape)
    (value : Outcome Value) : CompileResult → Prop where
  /-- Another version is wanted, and no walk begins. -/
  | otherVersion {expected : String} : config.version = some expected →
      expected ≠ snapshot.version →
      Ends config snapshot check value (.failed (.versionMismatch expected snapshot.version))
  | compiled (compiled : Compiled) : Ends config snapshot check value (.compiled compiled)
  | runaway (cause : Runaway) (place : Option Coord) :
      Ends config snapshot check value (.failed (.runaway cause place))
  /-- One of the walks does not end. -/
  | unfinished : check = .unfinished ∨ value = .unfinished →
      Ends config snapshot check value .unfinished

/-- A snapshot that is accepted is loaded, unless another version is wanted. -/
theorem Config.load_of_load (config : Config) {snapshot : Snapshot} {store : Store}
    (h : snapshot.load = .ok store) :
    config.load snapshot = .ok store ∨ ∃ expected, config.version = some expected ∧
      expected ≠ snapshot.version ∧
        config.load snapshot = .error (.versionMismatch expected snapshot.version) := by
  unfold Config.load
  rw [h]
  cases hv : config.version with
  | none => exact .inl rfl
  | some expected =>
    by_cases he : expected = snapshot.version
    · dsimp only
      rw [if_pos he]
      exact .inl rfl
    · dsimp only
      rw [if_neg he]
      exact .inr ⟨expected, rfl, he, rfl⟩

section Ends

variable {config : Config} {snapshot : Snapshot} {store : Store}

/-- Evaluation gives a value, or is stopped by a call one scope too deep, or does not end. -/
theorem Config.ends_evaluate (hg : store.Grounded) {root : NodeId} (hr : store.Knows root)
    (data : Json) (steps : Nat) (check : Outcome Shape) :
    CompileResult.Ends config snapshot check
      ((Evaluator.walk ⟨store, .ofJson data, config.recursionLimit,
        config.caseFallthrough⟩).run config.scheduling steps root .global)
      (config.evaluate steps store root data) := by
  let e : Evaluator := ⟨store, .ofJson data, config.recursionLimit, config.caseFallthrough⟩
  have hc : (e.bounds e.Callable 0).context .global := Context.within_global _
  have he := (Evaluator.confined (e.admits_callable 0) hg (Value.within_data _ data)).run_within
    config.scheduling steps hr hc
  unfold Config.evaluate
  dsimp only
  revert he
  generalize Walk.run _ config.scheduling steps root _ = outcome
  intro he
  cases outcome with
  | finished found value => exact .compiled _
  | aborted error =>
    obtain ⟨place, rfl⟩ := he
    exact .runaway _ place
  | unfinished => exact .unfinished (.inr rfl)

/-- Compilation of a snapshot that is accepted ends with a value or with diagnostics, or is stopped
by a call one scope too deep, or does not end, if no other version is wanted. -/
theorem ends_compileWithin (hload : snapshot.load = .ok store) (data : Json) (steps : Nat) :
    CompileResult.Ends config snapshot
      ((checking store).run config.scheduling steps snapshot.root ())
      ((Evaluator.walk ⟨store, .ofJson data, config.recursionLimit,
        config.caseFallthrough⟩).run config.scheduling steps snapshot.root .global)
      (compileWithin steps config snapshot data) := by
  obtain ⟨hg, hroot⟩ := Snapshot.load_grounded hload
  have hk := ((store.node?_ne_none_iff _).1 hroot).2
  have hcontext : (checkBounds store).context () := trivial
  unfold compileWithin
  rcases config.load_of_load hload with hl | ⟨expected, hv, hne, hl⟩
  · rw [hl]
    have hcheck := (checking_confined hg).run_within config.scheduling steps hk hcontext
    dsimp only
    cases ho : (checking store).run config.scheduling steps snapshot.root () with
    | finished found shape =>
      dsimp only
      split
      · exact config.ends_evaluate hg hk data steps _
      · exact .compiled _
    | aborted error =>
      rw [ho] at hcheck
      exact hcheck.elim
    | unfinished => exact .unfinished (.inl rfl)
  · rw [hl]
    exact .otherVersion hv hne

end Ends

/-- Whatever the nodes of a snapshot that is accepted, the data and the configuration: compilation
ends as it should, and both walks call each continuation handed to a visit once. -/
theorem visits_resume (config : Config) {snapshot : Snapshot} {store : Store}
    (hload : snapshot.load = .ok store) (data : Json) (steps : Nat) :
    CompileResult.Ends config snapshot
        ((checking store).run config.scheduling steps snapshot.root ())
        ((Evaluator.walk ⟨store, .ofJson data, config.recursionLimit,
          config.caseFallthrough⟩).run config.scheduling steps snapshot.root .global)
        (compileWithin steps config snapshot data) ∧
      (checking store).RunCallsOnce config.scheduling steps snapshot.root () ∧
      (Evaluator.walk ⟨store, .ofJson data, config.recursionLimit,
        config.caseFallthrough⟩).RunCallsOnce config.scheduling steps snapshot.root .global :=
  ⟨ends_compileWithin hload data steps, Walk.runCallsOnce _ _ _ _ _,
    Walk.runCallsOnce _ _ _ _ _⟩

/-- The list of null, twice. -/
theorem visits_resume_nulls :
    (Store.nulls.snapshot ⟨2⟩).load = .ok Store.nulls ∧
      CompileResult.Ends .standard (Store.nulls.snapshot ⟨2⟩)
        ((checking Store.nulls).run .queued 20 ⟨2⟩ ())
        ((Evaluator.walk ⟨Store.nulls, .ofJson .null, Config.standard.recursionLimit,
          .empty⟩).run .queued 20 ⟨2⟩ .global)
        (compileWithin 20 .standard (Store.nulls.snapshot ⟨2⟩) .null) ∧
      (checking Store.nulls).RunCallsOnce .queued 20 ⟨2⟩ () ∧
      (Evaluator.walk ⟨Store.nulls, .ofJson .null, Config.standard.recursionLimit,
        .empty⟩).RunCallsOnce .queued 20 ⟨2⟩ .global :=
  have hload := Config.load_eq_ok (load_nulls .queued)
  ⟨hload, visits_resume .standard hload .null 20⟩

end Juxta
