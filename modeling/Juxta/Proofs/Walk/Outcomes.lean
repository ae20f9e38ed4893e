import Juxta.Compile
import Juxta.Proofs.Walk.Placed

/-!
# What actions come to

The outcome of an action that is carried out alone, by recursion or by a queue, follows from those
of the actions that it asks for, also if it is no output.

* `Machine.carry` : the machine that carries out an action;
* `Walk.ComesIn`, `Walk.Comes` : the outcome of an action, within so many steps, and at all; there
  is at most one (`Walk.Comes.unique`);
* `Walk.ComesIn.of_after`, `Walk.comes_after` : diagnostics that come first;
* `Walk.ComesIn.of_visiting`, `Walk.comes_visiting` : an action that goes on with the output of one
  node;
* `Walk.GoesOn`, `Walk.goesOn_visiting` : actions that come to what others come to, behind some
  diagnostics.
-/

namespace Juxta

variable {Context Output Frame : Type}

/-- The machine that carries out an action. -/
def Machine.carry (action : Action Context Output Frame) : Machine Context Output Frame :=
  ⟨Agenda.empty.pushBack (.perform action .root), #[]⟩

/-- A machine with one task, for the root. -/
theorem Machine.sound_of_root {m : Machine Context Output Frame} {task : Task Context Output Frame}
    (ht : m.tasks = [task]) (hr : task.target = .root) (hg : m.gatherings = #[]) : m.Sound where
  held t := by
    cases t <;> simp [holders, ht, hr, hg, isOpen, Machine.gathering?]
  missing number G hG := by simp [Machine.gathering?, hg] at hG
  earlier number G hG := by simp [Machine.gathering?, hg] at hG

theorem Machine.sound_carry (action : Action Context Output Frame) :
    (Machine.carry action).Sound := sound_of_root rfl rfl rfl

section

variable {w : Walk Context Output Frame} {steps : Nat} {M : Machine Context Output Frame}
  {found : List Diagnostic} {output : Output}

/-- Diagnostics that come first, on the way to the root. -/
theorem Machine.run_after_root {before : List Diagnostic}
    (ht : M.tasks = [.resume (.after before .root) found output]) (more : Nat) :
    M.run w steps (more + 2) = .finished (before ++ found) output := by
  obtain ⟨agenda, hp, hrest⟩ := exists_pop ht
  let next : Machine Context Output Frame :=
    ⟨agenda.pushFront (.resume .root (before ++ found) output), M.gatherings⟩
  have hstep : M.step w steps = .running next := by
    unfold Machine.step
    rw [hp]
    rfl
  have htasks : next.tasks = [.resume .root (before ++ found) output] :=
    congrArg (Task.resume .root (before ++ found) output :: ·) hrest
  rw [run_running hstep, run_ended (step_root htasks w steps)]

/-- The only output of a gathering arrives. -/
theorem Machine.exists_placed_of_only {frame : Frame} {later : Array (Gathering Output Frame)}
    (ht : M.tasks = [.resume (.slot 0 0) found output])
    (hg : M.gatherings = #[awaiting 1 frame .root] ++ later) :
    ∃ earlier M', M.step w steps = .running M' ∧
      (Machine.carry (w.resume frame found [output])).Placed .root earlier M' := by
  obtain ⟨agenda, hp, hrest⟩ := exists_pop ht
  let G : Gathering Output Frame := delivered (awaiting 1 frame .root) 0 found output
  let next : Machine Context Output Frame :=
    ⟨agenda.pushFront (.perform (w.resume frame found [output]) .root),
      M.gatherings.setIfInBounds 0 G⟩
  have hlook : M.gatherings[0]? = some (awaiting 1 frame .root) := by simp [hg]
  have hresults : G.gather.results = (found, [output]) := by
    simp [G, delivered, awaiting, Gather.start, Gather.deliver, Gather.results]
  have hstep : M.step w steps = .running next := by
    unfold Machine.step
    rw [hp]
    dsimp only [Machine.resume]
    rw [hlook]
    change (if G.gather.missing = 0 then
      ({ M with agenda, gatherings := M.gatherings.setIfInBounds 0 G } : Machine ..).soon
        (.perform (w.resume frame G.gather.results.1 G.gather.results.2) .root) else _) = _
    rw [if_pos (show G.gather.missing = 0 from rfl), hresults]
    rfl
  have htasks : next.tasks = [.perform (w.resume frame found [output]) .root] :=
    congrArg (Task.perform (w.resume frame found [output]) .root :: ·) hrest
  exact ⟨next.gatherings, next, hstep, htasks, by simp [carry]⟩

end

theorem Outcome.prepend_nil (outcome : Outcome Output) : outcome.prepend [] = outcome := by
  cases outcome <;> rfl

theorem Outcome.prepend_prepend (outcome : Outcome Output) (first second : List Diagnostic) :
    (outcome.prepend second).prepend first = outcome.prepend (first ++ second) := by
  cases outcome with
  | finished found output => exact congrArg (Outcome.finished · output) (List.append_assoc ..).symm
  | aborted => rfl
  | unfinished => rfl

/-- Of two outcomes below a third one that have ended, there is one. -/
theorem Outcome.Below.eq_of_ne {a b c : Outcome Output} (h : a.Below c) (h' : b.Below c)
    (hne : a ≠ .unfinished) (hne' : b ≠ .unfinished) : a = b :=
  (h.resolve_left hne).symm.trans (h'.resolve_left hne')

/-- A run ends in one way. -/
theorem Machine.run_unique {w : Walk Context Output Frame} {m : Machine Context Output Frame}
    {steps steps' tasks tasks' : Nat} (h : m.run w steps tasks ≠ .unfinished)
    (h' : m.run w steps' tasks' ≠ .unfinished) :
    m.run w steps tasks = m.run w steps' tasks' :=
  (Machine.run_below (Nat.le_max_left steps steps') (Nat.le_max_left tasks tasks') m).eq_of_ne
    (Machine.run_below (Nat.le_max_right steps steps') (Nat.le_max_right tasks tasks') m) h h'

namespace Walk

/-- An action that is carried out alone comes to an outcome within so many steps. -/
def ComesIn (w : Walk Context Output Frame) (scheduling : Scheduling) (n : Nat)
    (action : Action Context Output Frame) (outcome : Outcome Output) : Prop :=
  outcome ≠ .unfinished ∧ match scheduling with
    | .direct => w.perform n action = outcome
    | .queued => ∃ steps, (Machine.carry action).run w steps n = outcome

/-- An action that is carried out alone comes to an outcome. -/
def Comes (w : Walk Context Output Frame) (scheduling : Scheduling)
    (action : Action Context Output Frame) (outcome : Outcome Output) : Prop :=
  ∃ n, w.ComesIn scheduling n action outcome

variable {w : Walk Context Output Frame} {scheduling : Scheduling}
  {action : Action Context Output Frame} {outcome outcome' : Outcome Output}

/-- There is one outcome. -/
theorem Comes.unique (h : w.Comes scheduling action outcome)
    (h' : w.Comes scheduling action outcome') : outcome = outcome' := by
  obtain ⟨n, hne, h⟩ := h
  obtain ⟨k, hne', h'⟩ := h'
  cases scheduling with
  | direct =>
    subst h h'
    exact (w.perform_below (Nat.le_max_left n k) action).eq_of_ne
      (w.perform_below (Nat.le_max_right n k) action) hne hne'
  | queued =>
    obtain ⟨steps, rfl⟩ := h
    obtain ⟨steps', rfl⟩ := h'
    exact Machine.run_unique hne hne'

theorem not_comesIn_zero : ¬ w.ComesIn scheduling 0 action outcome := by
  rintro ⟨hne, h⟩
  cases scheduling with
  | direct => exact hne h.symm
  | queued =>
    obtain ⟨steps, h⟩ := h
    exact hne h.symm

theorem comes_done (w : Walk Context Output Frame) (scheduling : Scheduling)
    (found : List Diagnostic) (output : Output) :
    w.Comes scheduling (.done found output) (.finished found output) := by
  cases scheduling with
  | direct => exact ⟨1, nofun, rfl⟩
  | queued => exact ⟨2, nofun, 0, rfl⟩

theorem comes_abort (w : Walk Context Output Frame) (scheduling : Scheduling)
    (error : CompileError) : w.Comes scheduling (.abort error) (.aborted error) := by
  cases scheduling with
  | direct => exact ⟨1, nofun, rfl⟩
  | queued => exact ⟨1, nofun, 0, rfl⟩

/-! ## Diagnostics that come first -/

/-- The queue carries out the action, with diagnostics that come first on the way to the root. -/
theorem exists_placed_after (w : Walk Context Output Frame) (steps : Nat) (found : List Diagnostic)
    (action : Action Context Output Frame) :
    ∃ M, (Machine.carry (.after found action)).step w steps = .running M ∧
      (Machine.carry action).Placed (.after found .root) #[] M :=
  ⟨⟨⟨[.perform action (.after found .root)], []⟩, #[]⟩, rfl, rfl, by simp [Machine.carry]⟩

/-- The outcome of an action whose diagnostics come after some others. -/
theorem ComesIn.of_after {n : Nat} {found : List Diagnostic}
    (h : w.ComesIn scheduling n (.after found action) outcome) :
    ∃ k < n, ∃ inner, w.ComesIn scheduling k action inner ∧ outcome = inner.prepend found := by
  cases n with
  | zero => exact absurd h not_comesIn_zero
  | succ k =>
    obtain ⟨hne, h⟩ := h
    refine ⟨k, Nat.lt_succ_self k, ?_⟩
    cases scheduling with
    | direct =>
      subst h
      refine ⟨w.perform k action, ⟨fun hu => hne ?_, rfl⟩, rfl⟩
      rw [perform, hu]
      rfl
    | queued =>
      obtain ⟨steps, h⟩ := h
      obtain ⟨M, hstep, hplaced⟩ := w.exists_placed_after steps found action
      rw [Machine.run_running hstep] at h
      refine ⟨(Machine.carry action).run w steps k, ?_⟩
      have hran := hplaced.ran (w := w) (Machine.sound_carry action) steps k
      generalize hinner : (Machine.carry action).run w steps k = inner at hran
      cases hran with
      | alike hf hrun =>
        obtain rfl := h.symm.trans hrun
        refine ⟨⟨hne, steps, hinner⟩, ?_⟩
        cases outcome with
        | finished => exact absurd trivial hf
        | aborted => rfl
        | unfinished => rfl
      | @handed more output used M' later _ ht _ hrun =>
        have hend := (hrun (0 + 2)).trans (Machine.run_after_root ht 0)
        refine ⟨⟨Outcome.finished_ne_unfinished _ _, steps, hinner⟩, h.symm.trans ?_⟩
        rw [Machine.run_unique (by rwa [h]) (hend ▸ Outcome.finished_ne_unfinished _ _), hend]
        rfl

theorem comes_after (h : w.Comes scheduling action outcome) (found : List Diagnostic) :
    w.Comes scheduling (.after found action) (outcome.prepend found) := by
  obtain ⟨n, hne, h⟩ := h
  cases scheduling with
  | direct =>
    subst h
    exact ⟨n + 1, Outcome.prepend_ne_unfinished hne found, rfl⟩
  | queued =>
    obtain ⟨steps, h⟩ := h
    obtain ⟨M, hstep, hplaced⟩ := w.exists_placed_after steps found action
    have hran := hplaced.ran (w := w) (Machine.sound_carry action) steps n
    rw [h] at hran
    cases hran with
    | alike hf hrun =>
      refine ⟨n + 1, Outcome.prepend_ne_unfinished hne found, steps, ?_⟩
      rw [Machine.run_running hstep, hrun]
      cases outcome with
      | finished => exact absurd trivial hf
      | aborted => rfl
      | unfinished => rfl
    | @handed more output used M' later hlt ht hg hrun =>
      refine ⟨used + (0 + 2) + 1, Outcome.finished_ne_unfinished _ _, steps, ?_⟩
      rw [Machine.run_running hstep, hrun, Machine.run_after_root ht]
      rfl

/-! ## The output of one node -/

section

variable {id : NodeId} {context : Context} {frame : Frame} {found : List Diagnostic}
  {output : Output}

/-- The queue visits the node for the one position of a gathering. -/
theorem exists_placed_visiting (w : Walk Context Output Frame) (steps : Nat) (id : NodeId)
    (context : Context) (frame : Frame) :
    ∃ M, (Machine.carry (.gather [id] context frame)).step w steps = .running M ∧
      (Machine.start id context).Placed (.slot 0 0) #[Machine.awaiting 1 frame .root] M :=
  ⟨⟨⟨[], [.visit id context (.slot 0 0)]⟩, #[Machine.awaiting 1 frame .root]⟩, rfl, rfl,
    by simp [Machine.start]⟩

/-- The queue visits a node after one step. -/
theorem comes_visit_of_start {steps k : Nat} (hne : outcome ≠ .unfinished)
    (h : (Machine.start id context).run w steps k = outcome) :
    w.Comes .queued (.visit id context) outcome := by
  have hstep : (Machine.carry (.visit id context)).step w steps =
      .running (Machine.start id context) := rfl
  exact ⟨k + 1, hne, steps, (Machine.run_running hstep k).trans h⟩

/-- The outcome of an action that goes on with the output of one node. -/
theorem ComesIn.of_visiting {n : Nat}
    (h : w.ComesIn scheduling n (.gather [id] context frame) outcome) :
    (∃ error, outcome = .aborted error ∧ w.Comes scheduling (.visit id context) outcome) ∨
      ∃ found output, w.Comes scheduling (.visit id context) (.finished found output) ∧
        ∃ k < n, w.ComesIn scheduling k (w.resume frame found [output]) outcome := by
  cases n with
  | zero => exact absurd h not_comesIn_zero
  | succ k =>
    obtain ⟨hne, h⟩ := h
    cases scheduling with
    | direct =>
      have hvisit : w.perform (k + 1) (.visit id context) =
          w.visitBy (w.perform k) id context := rfl
      rw [perform, Outcome.gather, Outcome.gather] at h
      cases hv : w.visitBy (w.perform k) id context with
      | finished found output =>
        rw [hv] at h hvisit
        dsimp only [Outcome.andThen] at h
        rw [List.append_nil] at h
        exact .inr ⟨found, output, ⟨k + 1, Outcome.finished_ne_unfinished _ _, hvisit⟩, k,
          Nat.lt_succ_self k, hne, h⟩
      | aborted error =>
        rw [hv] at h hvisit
        subst h
        exact .inl ⟨error, rfl, k + 1, hne, hvisit⟩
      | unfinished =>
        rw [hv] at h
        exact absurd h.symm hne
    | queued =>
      obtain ⟨steps, h⟩ := h
      obtain ⟨M, hstep, hplaced⟩ := w.exists_placed_visiting steps id context frame
      rw [Machine.run_running hstep] at h
      have hran := hplaced.ran (w := w) (Machine.sound_start id context) steps k
      generalize hvisit : (Machine.start id context).run w steps k = visited at hran
      cases hran with
      | alike hf hrun =>
        obtain rfl := h.symm.trans hrun
        refine .inl ?_
        cases outcome with
        | finished => exact absurd trivial hf
        | aborted error => exact ⟨error, rfl, comes_visit_of_start hne hvisit⟩
        | unfinished => exact absurd rfl hne
      | @handed found output used M' later hlt ht hg hrun =>
        refine .inr ⟨found, output,
          comes_visit_of_start (Outcome.finished_ne_unfinished _ _) hvisit, ?_⟩
        obtain ⟨more, rfl⟩ := Nat.exists_eq_add_of_lt hlt
        obtain ⟨earlier, next, hdelivered, hnext⟩ :=
          Machine.exists_placed_of_only (w := w) ht hg
        rw [Nat.add_assoc, hrun, Machine.run_running hdelivered,
          hnext.run_root (Machine.sound_carry _)] at h
        exact ⟨more, by omega, hne, steps, h⟩

theorem comes_visiting (h : w.Comes scheduling (.visit id context) (.finished found output))
    (h' : w.Comes scheduling (w.resume frame found [output]) outcome) :
    w.Comes scheduling (.gather [id] context frame) outcome := by
  obtain ⟨n, hn⟩ := h
  obtain ⟨k, hne, h'⟩ := h'
  cases n with
  | zero => exact absurd hn not_comesIn_zero
  | succ n =>
    obtain ⟨-, h⟩ := hn
    cases scheduling with
    | direct =>
      have hvisit : w.visitBy (w.perform n) id context = .finished found output := h
      have hbelow := w.visitBy_below (w.perform_below (Nat.le_max_left n k)) id context
      rw [hvisit] at hbelow
      have hgo := (w.perform_below (Nat.le_max_right n k)
        (w.resume frame found [output])).resolve_left (by rwa [h'])
      refine ⟨max n k + 1, hne, ?_⟩
      rw [perform, Outcome.gather, Outcome.gather,
        hbelow.resolve_left (Outcome.finished_ne_unfinished _ _)]
      dsimp only [Outcome.andThen]
      rw [List.append_nil, hgo, h']
    | queued =>
      obtain ⟨steps, h⟩ := h
      obtain ⟨steps', h'⟩ := h'
      have hfirst : (Machine.start id context).run w steps n = .finished found output := h
      -- what is captured on the way may take the steps of either
      have hvisit := (Machine.run_below (w := w) (Nat.le_max_left steps steps') (Nat.le_refl n)
        (Machine.start id context)).resolve_left (hfirst ▸ Outcome.finished_ne_unfinished _ _)
      have hgo := (Machine.run_below (w := w) (Nat.le_max_right steps steps') (Nat.le_refl k)
        (Machine.carry (w.resume frame found [output]))).resolve_left (by rwa [h'])
      obtain ⟨M, hstep, hplaced⟩ := w.exists_placed_visiting (max steps steps') id context frame
      have hran := hplaced.ran (w := w) (Machine.sound_start id context) (max steps steps') n
      rw [hvisit, hfirst] at hran
      cases hran with
      | alike hf => exact absurd trivial hf
      | @handed _ _ used M' later hlt ht hg hrun =>
        obtain ⟨earlier, next, hdelivered, hnext⟩ :=
          Machine.exists_placed_of_only (w := w) ht hg
        refine ⟨used + (k + 1) + 1, hne, max steps steps', ?_⟩
        rw [Machine.run_running hstep, hrun, Machine.run_running hdelivered,
          hnext.run_root (Machine.sound_carry _), hgo, h']

end

/-! ## Actions that go on as others -/

/-- An action comes to what another one comes to, behind some diagnostics. -/
def GoesOn (w : Walk Context Output Frame) (scheduling : Scheduling)
    (action : Action Context Output Frame) (found : List Diagnostic)
    (next : Action Context Output Frame) : Prop :=
  ∀ outcome, w.Comes scheduling action outcome ↔
    ∃ last, w.Comes scheduling next last ∧ outcome = last.prepend found

theorem GoesOn.refl : w.GoesOn scheduling action [] action := by
  intro outcome
  constructor
  · exact fun h => ⟨outcome, h, outcome.prepend_nil.symm⟩
  · rintro ⟨last, h, rfl⟩
    rwa [last.prepend_nil]

theorem GoesOn.trans {next later : Action Context Output Frame} {found more : List Diagnostic}
    (h : w.GoesOn scheduling action found next) (h' : w.GoesOn scheduling next more later) :
    w.GoesOn scheduling action (found ++ more) later := by
  intro outcome
  rw [h outcome]
  constructor
  · rintro ⟨middle, hmiddle, rfl⟩
    obtain ⟨last, hlast, rfl⟩ := (h' middle).1 hmiddle
    exact ⟨last, hlast, last.prepend_prepend found more⟩
  · rintro ⟨last, hlast, rfl⟩
    exact ⟨last.prepend more, (h' _).2 ⟨last, hlast, rfl⟩, (last.prepend_prepend found more).symm⟩

/-- An action goes on with the output of one node. -/
theorem goesOn_visiting {id : NodeId} {context : Context} {frame : Frame}
    {next : Action Context Output Frame} {found : List Diagnostic} {output : Output}
    (h : w.Comes scheduling (.visit id context) (.finished found output))
    (hresume : w.resume frame found [output] = .after found next) :
    w.GoesOn scheduling (.gather [id] context frame) found next := by
  intro outcome
  constructor
  · rintro ⟨n, hn⟩
    rcases hn.of_visiting with ⟨error, rfl, h'⟩ | ⟨found', output', h', k, -, hk⟩
    · cases h.unique h'
    · cases h.unique h'
      rw [hresume] at hk
      obtain ⟨j, -, last, hlast, rfl⟩ := hk.of_after
      exact ⟨last, ⟨j, hlast⟩, rfl⟩
  · rintro ⟨last, hlast, rfl⟩
    refine comes_visiting h ?_
    rw [hresume]
    exact comes_after hlast found

end Walk

end Juxta
