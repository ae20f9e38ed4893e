import Juxta.Compile
import Juxta.Proofs.Evaluation
import Juxta.Proofs.Walk.Queue

/-!
# Both ways of scheduling agree

* `CompileError.Alike`, `CompileResult.Agree` : the same result; only the place of a call one scope
  too deep may differ;
* `Walk.Confined.run_within`, `Walk.Confined.run_agree` : the outcomes of a confined walk under
  either way of scheduling, and under both;
* `compileWithin_agree` : the results of a snapshot under both.
-/

namespace Juxta

/-- The same error, but for the place of a call one scope too deep. -/
inductive CompileError.Alike : CompileError → CompileError → Prop where
  | same (error : CompileError) : Alike error error
  | runaway (cause : Runaway) (place place' : Option Coord) :
      Alike (.runaway cause place) (.runaway cause place')

/-- The same value and the same diagnostics in the same order, or the same error but for the place
of a call one scope too deep. -/
inductive CompileResult.Agree : CompileResult → CompileResult → Prop where
  | compiled (compiled : Compiled) : Agree (.compiled compiled) (.compiled compiled)
  | failed {error error' : CompileError} : error.Alike error' →
      Agree (.failed error) (.failed error')

namespace Walk

variable {Context Output Frame : Type} {w : Walk Context Output Frame}

/-- The same output, or errors that satisfy a condition. -/
inductive SameOutcome (error : CompileError → Prop) : Outcome Output → Outcome Output → Prop where
  | finished (found : List Diagnostic) (output : Output) :
      SameOutcome error (.finished found output) (.finished found output)
  | aborted {cause cause' : CompileError} : error cause → error cause' →
      SameOutcome error (.aborted cause) (.aborted cause')

/-- A confined walk stays within its bounds under either way of scheduling. -/
theorem Confined.run_within {b : Bounds Context Output Frame} (h : w.Confined b)
    (scheduling : Scheduling) (steps : Nat) {id : NodeId} {context : Context} (hid : b.node id)
    (hc : b.context context) : (w.run scheduling steps id context).Within b.output b.error := by
  cases scheduling with
  | direct => exact h.visit steps hid hc
  | queued => exact h.run steps hid hc

/-- A confined walk that ends by a queue and by recursion has the same outcome. -/
theorem Confined.run_agree {b : Bounds Context Output Frame} (h : w.Confined b)
    {steps steps' : Nat} {id : NodeId} {context : Context} (hid : b.node id)
    (hc : b.context context) (hq : w.run .queued steps id context ≠ .unfinished)
    (hd : w.run .direct steps' id context ≠ .unfinished) :
    SameOutcome b.error (w.run .queued steps id context) (w.run .direct steps' id context) := by
  have queued := h.run_within .queued steps hid hc
  have direct := h.run_within .direct steps' hid hc
  cases ho : w.run .queued steps id context with
  | finished found output =>
    have hr := reaches_of_finished ho
    cases ho' : w.run .direct steps' id context with
    | finished found' output' =>
      have he := ((w.yields_visit_iff id context _).2 hr).unique
        ((w.yields_visit_iff id context _).2 (reaches_of_finished ho'))
      cases he
      exact .finished found output
    | aborted error => exact absurd hr (not_reaches_of_aborted ho' _)
    | unfinished => exact absurd ho' hd
  | aborted error =>
    cases ho' : w.run .direct steps' id context with
    | finished found' output' =>
      exact absurd (reaches_of_finished ho') (not_reaches_of_aborted ho _)
    | aborted error' =>
      rw [ho] at queued
      rw [ho'] at direct
      exact .aborted queued direct
    | unfinished => exact absurd ho' hd
  | unfinished => exact absurd ho hq

end Walk

theorem Config.load_eq_ok {config : Config} {snapshot : Snapshot} {store : Store}
    (h : config.load snapshot = .ok store) : snapshot.load = .ok store := by
  unfold Config.load at h
  dsimp only at h
  split at h
  · cases h
  · split at h
    · rename_i hs
      cases h
      exact hs
    · cases h

/-- Evaluation under both ways of scheduling. -/
theorem Config.evaluate_agree (config : Config) {steps steps' : Nat} {store : Store}
    (h : store.Grounded) {root : NodeId} (hr : store.Knows root) (data : Json)
    (hq : { config with scheduling := .queued }.evaluate steps store root data ≠ .unfinished)
    (hd : { config with scheduling := .direct }.evaluate steps' store root data ≠ .unfinished) :
    ({ config with scheduling := .queued }.evaluate steps store root data).Agree
      ({ config with scheduling := .direct }.evaluate steps' store root data) := by
  let e : Evaluator := ⟨store, .ofJson data, config.recursionLimit, config.caseFallthrough⟩
  have he := Evaluator.confined (e.admits_callable 0) h (Value.within_data _ data)
  have hc : (e.bounds e.Callable 0).context .global := Context.within_global _
  unfold Config.evaluate at hq hd ⊢
  dsimp only at hq hd ⊢
  have hagree := he.run_agree hr hc (fun hu => hq (by rw [hu]))
    (fun hu => hd (by rw [hu]))
  revert hagree
  generalize Walk.run _ Scheduling.queued steps root _ = queued
  generalize Walk.run _ Scheduling.direct steps' root _ = direct
  intro hagree
  cases hagree with
  | finished found value => exact .compiled _
  | aborted hc hc' =>
    obtain ⟨place, rfl⟩ := hc
    obtain ⟨place', rfl⟩ := hc'
    exact .failed (.runaway _ place place')

/-- A program in which nothing is wrong has the value that its evaluation comes to. -/
theorem compileWithin_eq_compiled {config : Config} {snapshot : Snapshot} {data : Json}
    {store : Store} {steps : Nat} {shape : Shape} {found : List Diagnostic} {value : Value}
    (hl : config.load snapshot = .ok store)
    (hc : (checking store).run config.scheduling steps snapshot.root () = .finished [] shape)
    (hv : (Evaluator.walk ⟨store, .ofJson data, config.recursionLimit,
      config.caseFallthrough⟩).run config.scheduling steps snapshot.root .global =
        .finished found value) :
    compileWithin steps config snapshot data = .compiled ⟨found, some value.json⟩ := by
  have he : config.evaluate steps store snapshot.root data =
      .compiled ⟨found, some value.json⟩ := by
    unfold Config.evaluate
    dsimp only
    rw [hv]
  unfold compileWithin
  rw [hl]
  simp only [hc]
  exact he

/-- Whatever the snapshot, the data and the configuration: if compilation ends under both ways of
scheduling, within however many steps, the results are the same. -/
theorem compileWithin_agree (config : Config) (snapshot : Snapshot) (data : Json)
    (steps steps' : Nat)
    (hq : compileWithin steps { config with scheduling := .queued } snapshot data ≠ .unfinished)
    (hd : compileWithin steps' { config with scheduling := .direct } snapshot data ≠
      .unfinished) :
    (compileWithin steps { config with scheduling := .queued } snapshot data).Agree
      (compileWithin steps' { config with scheduling := .direct } snapshot data) := by
  have hload : { config with scheduling := .direct }.load snapshot =
      { config with scheduling := .queued }.load snapshot := rfl
  unfold compileWithin at hq hd ⊢
  rw [hload] at hd ⊢
  cases hl : { config with scheduling := .queued }.load snapshot with
  | error error => exact .failed (.same error)
  | ok store =>
    have hs := Config.load_eq_ok hl
    obtain ⟨hg, hroot⟩ := Snapshot.load_grounded hs
    have hk := ((store.node?_ne_none_iff _).1 hroot).2
    simp only [hl] at hq hd ⊢
    have hc : (checkBounds store).context () := trivial
    have hcheck := (checking_confined hg).run_agree hk hc
      (fun hu => hq (by rw [hu])) (fun hu => hd (by rw [hu]))
    generalize (checking store).run .queued steps snapshot.root () = queued at hq hcheck ⊢
    generalize (checking store).run .direct steps' snapshot.root () = direct at hd hcheck ⊢
    cases hcheck with
    | finished found shape =>
      dsimp only at hq hd ⊢
      split
      · rename_i hempty
        rw [if_pos hempty] at hq hd
        exact config.evaluate_agree hg hk data hq hd
      · exact .compiled _
    | aborted hc => exact hc.elim

/-- A list of null, twice. -/
def Store.nulls : Store :=
  (Store.empty.push ⟨.null, []⟩ none (by simp [empty])).push (.branch .list [⟨1⟩, ⟨1⟩]) none
    (by simp [empty, push, Node.branch])

theorem load_nulls (scheduling : Scheduling) :
    { Config.standard with scheduling }.load (Store.nulls.snapshot ⟨2⟩) = .ok Store.nulls := by
  have hbuilt : Store.nulls.Built := .push (.push .empty fun _ hm => nomatch hm)
    (by simp [Store.Knows, Store.size, Store.push, Store.empty])
  have hload : (Store.nulls.snapshot ⟨2⟩).load = .ok Store.nulls :=
    hbuilt.load_snapshot (Option.some_ne_none _)
  unfold Config.load
  rw [hload]
  rfl

theorem compileWithin_nulls (scheduling : Scheduling) :
    compileWithin 20 { Config.standard with scheduling } (Store.nulls.snapshot ⟨2⟩) .null =
      .compiled ⟨[], some (.arr [.null, .null])⟩ := by
  have hcheck : (checking Store.nulls).run scheduling 20 ⟨2⟩ () = .finished [] .list := by
    cases scheduling <;> rfl
  have hvalue : (Evaluator.walk ⟨Store.nulls, .ofJson .null, Config.standard.recursionLimit,
      Config.standard.caseFallthrough⟩).run scheduling 20 ⟨2⟩ .global =
        .finished [] (.list [.null, .null]) := by
    cases scheduling <;> rfl
  rw [compileWithin_eq_compiled (load_nulls scheduling) hcheck hvalue]
  rfl

/-- The list of null, twice, under both ways of scheduling. -/
theorem compileWithin_agree_nulls :
    compileWithin 20 { Config.standard with scheduling := .queued } (Store.nulls.snapshot ⟨2⟩)
        .null ≠ .unfinished ∧
      compileWithin 20 { Config.standard with scheduling := .direct } (Store.nulls.snapshot ⟨2⟩)
        .null ≠ .unfinished ∧
      (compileWithin 20 { Config.standard with scheduling := .queued } (Store.nulls.snapshot ⟨2⟩)
        .null).Agree
      (compileWithin 20 { Config.standard with scheduling := .direct } (Store.nulls.snapshot ⟨2⟩)
        .null) := by
  have ends : ∀ scheduling, compileWithin 20 { Config.standard with scheduling }
      (Store.nulls.snapshot ⟨2⟩) .null ≠ .unfinished := by
    intro scheduling
    rw [compileWithin_nulls]
    nofun
  exact ⟨ends .queued, ends .direct,
    compileWithin_agree .standard _ .null 20 20 (ends .queued) (ends .direct)⟩

end Juxta
