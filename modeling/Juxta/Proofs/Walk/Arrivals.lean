import Juxta.Proofs.Scheduling

/-!
# Outputs arrive in any order

The outputs that a gathering awaits may arrive in every order, with any other work of the machine
between them: all of them but the last are only put down, and the last one hands them on, in the
order of the nodes and not in that of the arrivals. Equal nodes have positions of their own.

* `Gather.Holds` : the outputs of some positions are there, and as many as there are others are
  missing (`Holds.start`, `Holds.deliver`, `Holds.results_eq`);
* `Machine.Works` : work that brings no output to a gathering (`Works.gathering?`), and every step
  is such work or an arrival (`works_or_arrives_of_step`);
* `Machine.Arrivals` : arrivals in a given order with work between them, and the tasks that each of
  them adds (`exists_arrivals`, `Arrivals.handed_eq`);
* `Machine.gathers_once` : nodes are visited for their positions, and in whatever order the outputs
  arrive, exactly the last one hands all of them on.
-/

namespace Juxta

variable {Context Output Frame : Type}

/-! ## The slots -/

namespace Gather

/-- The outputs of the positions `arrived` are there, those of the others are missing. -/
structure Holds (g : Gather Output) (results : Nat → Walk.Result Output) (count : Nat)
    (arrived : List Nat) : Prop where
  slot : ∀ i, g.slots[i]? =
    if i < count then some (if i ∈ arrived then some (results i) else none) else none
  missing : g.missing + arrived.length = count

variable {g : Gather Output} {results : Nat → Walk.Result Output} {count : Nat}
  {arrived : List Nat}

theorem Holds.start (results : Nat → Walk.Result Output) (count : Nat) :
    (Gather.start count).Holds results count [] where
  slot i := by simp [Gather.start, Array.getElem?_replicate]
  missing := rfl

/-- An output that has been missing is there afterwards. -/
theorem Holds.deliver (h : g.Holds results count arrived) {position : Nat} {rest : List Nat}
    (hperm : (position :: rest ++ arrived).Perm (List.range count)) :
    (g.deliver position (results position).1 (results position).2).Holds results count
      (position :: arrived) := by
  have hlt : position < count := List.mem_range.1 (hperm.subset (by simp))
  have hlength : rest.length + arrived.length + 1 = count := by simpa using hperm.length_eq
  refine ⟨fun i => ?_, ?_⟩
  · have hsize : position < g.slots.size := by
      by_contra hsize
      have hslot := h.slot position
      rw [Array.getElem?_eq_none (Nat.not_lt.1 hsize), if_pos hlt] at hslot
      cases hslot
    show (g.slots.setIfInBounds position _)[i]? = _
    rw [Array.getElem?_setIfInBounds]
    by_cases hi : position = i
    · subst hi
      simp [hsize, hlt]
    · have hi' : i ≠ position := Ne.symm hi
      rw [if_neg hi, h.slot i]
      simp [hi']
  · show g.missing - 1 + (arrived.length + 1) = count
    have := h.missing
    omega

/-- When everything has arrived, the results are in the order of the positions. -/
theorem Holds.results_eq (h : g.Holds results count arrived)
    (hperm : arrived.Perm (List.range count)) :
    g.results = ((List.range count).flatMap fun i => (results i).1,
      (List.range count).map fun i => (results i).2) := by
  have hslots : g.slots.toList = (List.range count).map fun i => some (results i) := by
    refine List.ext_getElem? fun i => ?_
    rw [Array.getElem?_toList, h.slot i, List.getElem?_map]
    by_cases hi : i < count
    · have hmem : i ∈ arrived := hperm.mem_iff.2 (List.mem_range.2 hi)
      rw [if_pos hi, if_pos hmem, List.getElem?_range hi]
      rfl
    · rw [if_neg hi, List.getElem?_eq_none (by simpa using hi)]
      rfl
  unfold Gather.results
  simp only [hslots, List.filterMap_map, Function.comp_def, id_eq, List.filterMap_eq_map',
    List.flatMap_map, List.map_map]

end Gather

/-! ## Work that is not an arrival -/

namespace Machine

/-- Work that brings no output to the gathering with the number: tasks are added, taken away and
arranged in any way, or one is done, whatever tasks are left to do. -/
inductive Works (w : Walk Context Output Frame) (steps number : Nat)
    (m : Machine Context Output Frame) : Machine Context Output Frame → Prop where
  | arrange (agenda : Agenda (Task Context Output Frame)) : Works w steps number m { m with agenda }
  | visit {agenda id context awaiter m'} :
      ({ m with agenda } : Machine ..).visit w id context awaiter = .running m' →
      Works w steps number m m'
  | perform {agenda action awaiter m'} :
      ({ m with agenda } : Machine ..).perform w steps action awaiter = .running m' →
      Works w steps number m m'
  | resume {agenda awaiter found output m'} : (∀ position, awaiter ≠ .slot number position) →
      ({ m with agenda } : Machine ..).resume w awaiter found output = .running m' →
      Works w steps number m m'

/-- Outputs arrive at a gathering at the positions of a list, one after the other, with any other
work before, between and behind them. `handed` are the tasks that each of them adds. -/
inductive Arrivals (w : Walk Context Output Frame) (steps number : Nat)
    (results : Nat → Walk.Result Output) :
    Machine Context Output Frame → (order : List Nat) →
      (handed : List (List (Task Context Output Frame))) → Machine Context Output Frame → Prop where
  | none {m} : Arrivals w steps number results m [] [] m
  | work {m m' m'' order handed} : Works w steps number m m' →
      Arrivals w steps number results m' order handed m'' →
      Arrivals w steps number results m order handed m''
  | arrive {m m' m'' position added order handed} :
      m.resume w (.slot number position) (results position).1 (results position).2 = .running m' →
      m'.tasks = added ++ m.tasks → Arrivals w steps number results m' order handed m'' →
      Arrivals w steps number results m (position :: order) (added :: handed) m''

variable {w : Walk Context Output Frame} {steps number : Nat} {m m' : Machine Context Output Frame}

theorem gatherings_visit {id : NodeId} {context : Context} {awaiter : Awaiter}
    (h : m.visit w id context awaiter = .running m') : m'.gatherings = m.gatherings := by
  unfold Machine.visit at h
  split at h
  · cases h
    rfl
  · split at h
    · cases h
    · cases h
      rfl

/-- An action leaves the gatherings, or a new one comes behind them. -/
theorem gatherings_perform {action : Action Context Output Frame} {awaiter : Awaiter}
    (h : m.perform w steps action awaiter = .running m') :
    m'.gatherings = m.gatherings ∨ ∃ G, m'.gatherings = m.gatherings.push G := by
  unfold Machine.perform at h
  cases action with
  | gather ids context frame =>
    dsimp only at h
    split at h
    · cases h
      exact .inl rfl
    · cases h
      exact .inr ⟨_, rfl⟩
  | capture action frame =>
    dsimp only at h
    split at h
    · cases h
      exact .inl rfl
    · cases h
    · cases h
  | abort error => cases h
  | endless => cases h
  | done found output | after found action | visit id context =>
    cases h
    exact .inl rfl

/-- An output that arrives at another gathering, or at none, leaves this one. -/
theorem gathering?_resume {awaiter : Awaiter} {found : List Diagnostic} {output : Output}
    (hne : ∀ position, awaiter ≠ .slot number position)
    (h : m.resume w awaiter found output = .running m') :
    m'.gathering? number = m.gathering? number := by
  unfold Machine.resume at h
  cases awaiter with
  | root => cases h
  | after before awaiter =>
    cases h
    rfl
  | slot other position =>
    have hother : other ≠ number := fun heq => hne position (heq ▸ rfl)
    dsimp only at h
    split at h
    · cases h
      rfl
    · split at h <;>
      · cases h
        exact Array.getElem?_setIfInBounds_ne hother

/-- Such work leaves the gathering as it is. -/
theorem Works.gathering? (h : Works w steps number m m') (hlt : number < m.gatherings.size) :
    m'.gathering? number = m.gathering? number := by
  cases h with
  | arrange agenda => rfl
  | visit hv =>
    have heq := gatherings_visit hv
    exact congrArg (·[number]?) heq
  | perform hp =>
    rcases gatherings_perform hp with heq | ⟨G, heq⟩
    · exact congrArg (·[number]?) heq
    · rw [Machine.gathering?, heq, Array.getElem?_push, if_neg (Nat.ne_of_lt hlt)]
  | resume hne hr =>
    have heq := gathering?_resume hne hr
    exact heq

/-- A step is such work, or it brings an output to the gathering. -/
theorem works_or_arrives_of_step (number : Nat) (h : m.step w steps = .running m') :
    Works w steps number m m' ∨ ∃ position found output agenda,
      m.agenda.pop? = some (.resume (.slot number position) found output, agenda) ∧
      ({ m with agenda } : Machine ..).resume w (.slot number position) found output
        = .running m' := by
  unfold Machine.step at h
  split at h
  · cases h
  · rename_i task agenda hpop
    cases task with
    | visit id context awaiter => exact .inl (.visit h)
    | perform action awaiter => exact .inl (.perform h)
    | resume awaiter found output =>
      by_cases hslot : ∃ position, awaiter = .slot number position
      · obtain ⟨position, rfl⟩ := hslot
        exact .inr ⟨position, found, output, agenda, hpop, h⟩
      · exact .inl (.resume (fun position heq => hslot ⟨position, heq⟩) h)

/-! ## Arrivals -/

variable {results : Nat → Walk.Result Output} {position count : Nat} {order arrived : List Nat}
  {handed : List (List (Task Context Output Frame))} {G : Gathering Output Frame}

/-- What an output that has arrived adds: nothing, or what goes on with all outputs. -/
def handedOn (w : Walk Context Output Frame) (G : Gathering Output Frame) :
    List (Task Context Output Frame) :=
  if G.gather.missing = 0 then
    [.perform (w.resume G.frame G.gather.results.1 G.gather.results.2) G.awaiter]
  else []

theorem handedOn_of_complete {found : List Diagnostic} {outputs : List Output}
    (hmissing : G.gather.missing = 0) (hresults : G.gather.results = (found, outputs)) :
    handedOn w G = [.perform (w.resume G.frame found outputs) G.awaiter] := by
  rw [handedOn, if_pos hmissing, hresults]

theorem resume_slot (w : Walk Context Output Frame) (hG : m.gathering? number = some G)
    (position : Nat) (found : List Diagnostic) (output : Output) :
    ∃ m', m.resume w (.slot number position) found output = .running m' ∧
      m'.gathering? number = some (delivered G position found output) ∧
      m'.tasks = handedOn w (delivered G position found output) ++ m.tasks := by
  have hG' : m.gatherings[number]? = some G := hG
  have hdelivered : (m.gatherings.setIfInBounds number (delivered G position found output))[number]?
      = some (delivered G position found output) :=
    Array.getElem?_setIfInBounds_self_of_lt (Array.getElem?_eq_some_iff.1 hG).1
  unfold handedOn
  simp only [Machine.resume, hG']
  by_cases hmissing : (delivered G position found output).gather.missing = 0
  · exact ⟨_, if_pos hmissing, hdelivered, by rw [if_pos hmissing]; rfl⟩
  · exact ⟨_, if_neg hmissing, hdelivered, by rw [if_neg hmissing]; rfl⟩

/-- There are arrivals in every order. -/
theorem exists_arrivals (w : Walk Context Output Frame) (steps : Nat)
    (results : Nat → Walk.Result Output) (order : List Nat)
    (hG : m.gathering? number = some G) :
    ∃ handed m', Arrivals w steps number results m order handed m' := by
  induction order generalizing m G with
  | nil => exact ⟨[], m, .none⟩
  | cons position rest ih =>
    obtain ⟨m₁, hr, hget, hadded⟩ :=
      resume_slot w hG position (results position).1 (results position).2
    obtain ⟨handed, m', hrest⟩ := ih hget
    exact ⟨_ :: handed, m', .arrive hr hadded hrest⟩

theorem Arrivals.handed_nil (h : Arrivals w steps number results m [] handed m') :
    handed = [] := by
  generalize hnil : [] = order at h
  induction h with
  | none => rfl
  | work _ _ ih => exact ih hnil
  | arrive => cases hnil

/-- While outputs are missing, those that arrive add nothing; the last one adds the task that goes
on with all of them. The induction is on the arrivals, and what has arrived before carries it. -/
theorem Arrivals.handed_eq {frame : Frame} {awaiter : Awaiter} {g : Gather Output}
    (h : Arrivals w steps number results m order handed m') (hne : order ≠ [])
    (hG : m.gathering? number = some ⟨g, frame, awaiter⟩) (hg : g.Holds results count arrived)
    (hperm : (order ++ arrived).Perm (List.range count)) :
    handed = List.replicate (order.length - 1) [] ++
      [[.perform (w.resume frame ((List.range count).flatMap fun i => (results i).1)
        ((List.range count).map fun i => (results i).2)) awaiter]] := by
  induction h generalizing g arrived with
  | none => exact absurd rfl hne
  | work hw _ ih =>
    have hlt := (Array.getElem?_eq_some_iff.1 hG).1
    exact ih hne ((hw.gathering? hlt).trans hG) hg hperm
  | @arrive m₀ m₁ m₂ position added rest handed hr hadded harr ih =>
    obtain ⟨m₁', hr', hget, hadded'⟩ :=
      resume_slot w hG position (results position).1 (results position).2
    rw [hr'] at hr
    cases hr
    have hadds := List.append_cancel_right (hadded.symm.trans hadded')
    have hholds := hg.deliver hperm
    have hmissing := hholds.missing
    have hlength : rest.length + arrived.length + 1 = count := by simpa using hperm.length_eq
    rw [List.length_cons] at hmissing
    cases rest with
    | nil =>
      have hzero : (g.deliver position (results position).1 (results position).2).missing = 0 := by
        rw [List.length_nil] at hlength
        omega
      have hlast := hadds.trans (handedOn_of_complete hzero
        (hholds.results_eq (List.perm_middle.trans hperm)))
      rw [harr.handed_nil, hlast]
      rfl
    | cons next rest =>
      have hpos : (g.deliver position (results position).1 (results position).2).missing ≠ 0 := by
        rw [List.length_cons] at hlength
        omega
      have hnone : added = [] := hadds.trans (if_neg hpos)
      rw [hnone, ih (List.cons_ne_nil _ _) hget hholds (List.perm_middle.trans hperm)]
      rfl

end Machine

/-- The recursion visits the nodes in order, and gathers the same. -/
theorem Outcome.gather_eq_of_finished {visit : NodeId → Outcome Output} {ids : List NodeId}
    {results : Nat → Walk.Result Output}
    (h : ∀ i id, ids[i]? = some id → visit id = .finished (results i).1 (results i).2) :
    Outcome.gather visit ids = .finished ((List.range ids.length).flatMap fun i => (results i).1)
      ((List.range ids.length).map fun i => (results i).2) := by
  refine gather_eq_finished_iff.2 ⟨(List.range ids.length).map results, ?_, ?_, ?_⟩
  · refine List.forall₂_iff_get.2 ⟨by simp, fun i hi _ => ?_⟩
    simpa using h i ids[i] (List.getElem?_eq_getElem hi)
  · rw [List.flatMap_map]
  · rw [List.map_map]
    rfl

/-- Nodes are visited for their positions, and in whatever order their outputs arrive, with any
other work between them, all but the last add nothing. The last one, and no other, hands on the
outputs and the diagnostics in the order of the nodes; so does the recursion. -/
theorem Machine.gathers_once (w : Walk Context Output Frame) (steps : Nat)
    (m : Machine Context Output Frame) {ids : List NodeId} (hids : ids ≠ []) (context : Context)
    (frame : Frame) (awaiter : Awaiter) (results : Nat → Walk.Result Output) :
    ∃ m₀, m.perform w steps (.gather ids context frame) awaiter = .running m₀ ∧
      m₀.tasks = m.tasks ++ visitsFrom m.gatherings.size context 0 ids ∧
      (∀ order : List Nat, order.Perm (List.range ids.length) →
        (∃ handed m', Arrivals w steps m.gatherings.size results m₀ order handed m') ∧
        ∀ handed m', Arrivals w steps m.gatherings.size results m₀ order handed m' →
          handed = List.replicate (ids.length - 1) [] ++
            [[.perform (w.resume frame ((List.range ids.length).flatMap fun i => (results i).1)
              ((List.range ids.length).map fun i => (results i).2)) awaiter]]) ∧
      ∀ visit : NodeId → Outcome Output,
        (∀ i id, ids[i]? = some id → visit id = .finished (results i).1 (results i).2) →
        Outcome.gather visit ids =
          .finished ((List.range ids.length).flatMap fun i => (results i).1)
            ((List.range ids.length).map fun i => (results i).2) := by
  have hempty : ids.isEmpty = false := by simpa using hids
  refine ⟨_, if_neg (by rw [hempty]; exact Bool.false_ne_true), toList_visits _ _ _ _ _,
    fun order horder => ?_, fun visit h => Outcome.gather_eq_of_finished h⟩
  have hlength : order.length = ids.length := by simpa using horder.length_eq
  have hne : order ≠ [] := by
    rintro rfl
    exact hids (List.length_eq_zero_iff.1 hlength.symm)
  refine ⟨exists_arrivals w steps results order Array.getElem?_push_size, fun handed m' h => ?_⟩
  rw [← hlength]
  have heq := h.handed_eq hne Array.getElem?_push_size (.start results ids.length)
    (by simpa using horder)
  rwa [hlength] at heq ⊢

/-- Of two equal items of a list the second one comes first: nothing happens, and then the list is
put together in its own order. -/
theorem Machine.gathers_once_swapped :
    [NodeId.mk 1, ⟨1⟩] ≠ [] ∧ [1, 0].Perm (List.range [NodeId.mk 1, ⟨1⟩].length) ∧
      ∃ m m' : Machine Juxta.Context Value EvalFrame,
        (Machine.start ⟨2⟩ .global).perform (Evaluator.walk ⟨.nulls, .null, 1, .empty⟩) 0
          (.gather [⟨1⟩, ⟨1⟩] .global .last) .root = .running m ∧
        Arrivals (Evaluator.walk ⟨.nulls, .null, 1, .empty⟩) 0 0
          (fun i => ([], if i = 0 then .null else .bool true)) m [1, 0]
          [[], [.perform ((Evaluator.walk ⟨.nulls, .null, 1, .empty⟩).resume .last []
            [.null, .bool true]) .root]] m' := by
  have hids : [NodeId.mk 1, ⟨1⟩] ≠ [] := by decide
  have horder : [1, 0].Perm (List.range [NodeId.mk 1, ⟨1⟩].length) := by decide
  obtain ⟨m, hm, -, harrivals, -⟩ := Machine.gathers_once
    (Evaluator.walk ⟨.nulls, .null, 1, .empty⟩) 0 (Machine.start ⟨2⟩ .global) hids .global .last
    .root fun i => ([], if i = 0 then .null else .bool true)
  obtain ⟨⟨handed, m', h⟩, hall⟩ := harrivals [1, 0] horder
  have hhanded := hall handed m' h
  subst hhanded
  exact ⟨hids, horder, m, m', hm, h⟩

end Juxta
