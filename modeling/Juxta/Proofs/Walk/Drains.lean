import Juxta.Compile
import Juxta.Proofs.Walk.Ends
import Juxta.Proofs.Walk.Queue

/-!
# Queues that run out

A machine has a budget: each task costs what its action takes, and each gathering what its frame
takes once its outputs are there. A step always costs something, whatever the order of the tasks.

* `Promise` : what the targets of a machine may get;
* `Task.Bounded`, `Gathering.Bounded` : a task or a gathering within some cost that gives its target
  what is promised to it;
* `Machine.Bounded` : the budget of a machine; `Machine.Step.bounded` : a step uses some of it;
* `Machine.Bounded.run_ne` : a run ends within its budget;
* `Machine.run_below` : more steps never change how a run ends;
* `Walk.Drains`, `Walk.Ends.drains` : a walk from a node ends under either way of scheduling.
-/

namespace Juxta

variable {Context Output Frame : Type}

/-- How many times an awaiter adds diagnostics. -/
def Awaiter.stages : Awaiter → Nat
  | .after _ awaiter => awaiter.stages + 1
  | _ => 0

theorem Awaiter.stages_after (found : List Diagnostic) (awaiter : Awaiter) :
    (Awaiter.after found awaiter).stages = awaiter.stages + 1 := rfl

/-- What targets may get. -/
abbrev Promise (Output : Type) := Target → Walk.Result Output → Prop

/-- A number of steps that is enough until the output of a task is handed over. -/
def Task.Costs (w : Walk Context Output Frame) : Task Context Output Frame → Nat → Prop
  | .visit id context awaiter, n => ∃ m, w.Takes (.visit id context) m ∧ m + awaiter.stages ≤ n
  | .resume awaiter _ _, n => 1 + awaiter.stages ≤ n
  | .perform action awaiter, n => ∃ m, w.Takes action m ∧ m + 1 + awaiter.stages ≤ n

/-- A task whose steps are enough, and which gives its target only what is promised to it. -/
structure Task.Bounded (w : Walk Context Output Frame) (E : Promise Output)
    (task : Task Context Output Frame) (n : Nat) : Prop where
  costs : task.Costs w n
  honest : ∀ r, task.Meets w (fun _ => r) → E task.target r

/-- A gathering that has got what is promised to its positions. If it is not complete, then with
anything that is promised to the others its frame goes on as a bounded task. -/
structure Gathering.Bounded (w : Walk Context Output Frame) (E : Promise Output) (number : Nat)
    (G : Gathering Output Frame) (n : Nat) : Prop where
  arrived : ∀ (i : Nat) r, G.gather.slots[i]? = some (some r) → E (.slot number i) r
  awaited : G.gather.missing ≠ 0 → ∀ results : List (Walk.Result Output),
    results.length = G.gather.slots.size → (∀ i r, results[i]? = some r → E (.slot number i) r) →
    (Task.perform (w.resume G.frame (results.flatMap Prod.fst) (results.map Prod.snd))
      G.awaiter : Task Context Output Frame).Bounded w E n

/-- The tasks and gatherings of a machine within some budget. -/
structure Machine.Bounded (w : Walk Context Output Frame) (m : Machine Context Output Frame)
    (E : Promise Output) (costs waits : List Nat) : Prop where
  tasks : List.Forall₂ (Task.Bounded w E) m.tasks costs
  length : waits.length = m.gatherings.size
  gatherings : ∀ number G n, m.gathering? number = some G → waits[number]? = some n →
    G.Bounded w E number n

/-! ## Tasks in the place of others -/

section Tasks

variable {w : Walk Context Output Frame} {E : Promise Output} {steps n : Nat}

theorem Task.Follows.costs {task task' : Task Context Output Frame}
    (h : task.Follows w steps task') (hc : task.Costs w n) : ∃ m, m < n ∧ task'.Costs w m := by
  cases h with
  | absent ha =>
    obtain ⟨m, hm, hle⟩ := hc
    cases hm with
    | visit _ htotal => exact ⟨_, by omega, Nat.le_refl _⟩
  | enter ha hn =>
    obtain ⟨m, hm, hle⟩ := hc
    cases hm with
    | visit henter htotal => exact ⟨_, by omega, _, henter _ ha hn, Nat.le_refl _⟩
  | @pass before awaiter found output =>
    have hle : 1 + (awaiter.stages + 1) ≤ n := hc
    exact ⟨_, by omega, Nat.le_refl _⟩
  | done =>
    obtain ⟨m, hm, hle⟩ := hc
    have := hm.pos
    exact ⟨_, by omega, Nat.le_refl _⟩
  | after =>
    obtain ⟨m, hm, hle⟩ := hc
    cases hm with
    | after haction htotal =>
      refine ⟨_, ?_, _, haction, Nat.le_refl _⟩
      rw [Awaiter.stages_after]
      omega
  | visit =>
    obtain ⟨m, hm, hle⟩ := hc
    exact ⟨_, by omega, m, hm, Nat.le_refl _⟩
  | empty =>
    obtain ⟨m, hm, hle⟩ := hc
    cases hm with
    | gather costs _ hresume htotal =>
      exact ⟨_, by omega, _, hresume [] .nil, Nat.le_refl _⟩
  | capture hp =>
    obtain ⟨m, hm, hle⟩ := hc
    cases hm with
    | capture haction hresume htotal =>
      exact ⟨_, by omega, _, hresume (_, _) ⟨_, hp⟩, Nat.le_refl _⟩

theorem Task.Follows.bounded {task task' : Task Context Output Frame}
    (h : task.Follows w steps task') (hb : task.Bounded w E n) :
    ∃ m, m < n ∧ task'.Bounded w E m := by
  obtain ⟨m, hlt, hm⟩ := h.costs hb.costs
  refine ⟨m, hlt, hm, fun r hr => ?_⟩
  rw [h.target_eq]
  exact hb.honest r ((h.meets_iff _).1 hr)

end Tasks

/-! ## Gatherings -/

section Gatherings

variable {w : Walk Context Output Frame} {E : Promise Output} {number position n : Nat}
  {G : Gathering Output Frame} {found : List Diagnostic} {output : Output}

/-- A gathering gets an output that is promised to one of its positions. -/
theorem Gathering.Bounded.deliver (h : G.Bounded w E number n)
    (hs : G.gather.slots[position]? = some none)
    (hE : E (.slot number position) (found, output)) (hlive : G.gather.missing ≠ 0) :
    (Machine.delivered G position found output).Bounded w E number n := by
  refine ⟨fun i r hr => ?_, fun _ results hlength hresults => ?_⟩
  · rw [Machine.getElem?_slots_delivered hs] at hr
    split at hr
    · rename_i hi
      cases hr
      rw [hi]
      exact hE
    · exact h.arrived i r hr
  · refine h.awaited hlive results ?_ hresults
    rw [hlength]
    simp [Machine.delivered, Gather.deliver]

/-- A gathering that is complete goes on as a bounded task. -/
theorem Gathering.Bounded.complete (h : G.Bounded w E number n)
    (hs : G.gather.slots[position]? = some none)
    (hE : E (.slot number position) (found, output)) (hlive : G.gather.missing ≠ 0)
    (hfull : (Machine.delivered G position found output).gather.slots.toList.countP
      Option.isNone = 0) :
    (Task.perform (w.resume G.frame
        (Machine.delivered G position found output).gather.results.1
        (Machine.delivered G position found output).gather.results.2)
      G.awaiter : Task Context Output Frame).Bounded w E n := by
  obtain ⟨results, hslots, hresults⟩ := Gather.exists_results hfull
  have hsize : results.length = G.gather.slots.size := by
    have := congrArg List.length hslots
    simpa [Machine.delivered, Gather.deliver] using this.symm
  rw [hresults]
  refine h.awaited hlive results hsize fun i r hr => ?_
  refine (h.deliver hs hE hlive).arrived i r ?_
  rw [← Array.getElem?_toList, hslots, List.getElem?_map, hr]
  rfl

end Gatherings

/-! ## Gatherings that begin -/

/-- A promise that gives the positions of one more gathering what its nodes come to. -/
def Promise.extend (w : Walk Context Output Frame) (E : Promise Output) (number : Nat)
    (context : Context) (ids : List NodeId) : Promise Output
  | .root, r => E .root r
  | .slot j i, r =>
    if j = number then ∃ id, ids[i]? = some id ∧ w.Reaches context id r else E (.slot j i) r

section Spread

variable {w : Walk Context Output Frame} {E : Promise Output} {m : Machine Context Output Frame}
  {context : Context} {ids : List NodeId}

theorem Promise.extend_slot {number i : Nat} {r : Walk.Result Output} :
    E.extend w number context ids (.slot number i) r ↔
      ∃ id, ids[i]? = some id ∧ w.Reaches context id r :=
  iff_of_eq (if_pos rfl)

theorem Promise.extend_of_ne {number : Nat} {t : Target} (ht : ∀ i, t ≠ .slot number i)
    (r : Walk.Result Output) : E.extend w number context ids t r ↔ E t r := by
  cases t with
  | root => exact Iff.rfl
  | slot j i => exact iff_of_eq (if_neg fun e => ht i (by rw [e]))

theorem Task.Bounded.extend {task : Task Context Output Frame} {n : Nat}
    (h : task.Bounded w E n) (ho : m.isOpen task.target = true) :
    task.Bounded w (E.extend w m.gatherings.size context ids) n :=
  ⟨h.costs, fun r hr => (Promise.extend_of_ne (Machine.ne_of_isOpen ho) r).2 (h.honest r hr)⟩

theorem Task.forall₂_extend {tasks : List (Task Context Output Frame)} {costs : List Nat}
    (h : List.Forall₂ (Task.Bounded w E) tasks costs)
    (ho : ∀ task ∈ tasks, m.isOpen task.target = true) :
    List.Forall₂ (Task.Bounded w (E.extend w m.gatherings.size context ids)) tasks costs := by
  induction h with
  | nil => exact .nil
  | cons hfirst _ ih =>
    obtain ⟨hopen, hrest⟩ := List.forall_mem_cons.1 ho
    exact .cons (hfirst.extend hopen) (ih hrest)

theorem Gathering.Bounded.extend (hm : m.Sound) {number n : Nat} {G : Gathering Output Frame}
    (h : G.Bounded w E number n) (hG : m.gathering? number = some G) :
    G.Bounded w (E.extend w m.gatherings.size context ids) number n := by
  have hlt := (Array.getElem?_eq_some_iff.1 hG).1
  have hslot : ∀ i r, E.extend w m.gatherings.size context ids (.slot number i) r ↔
      E (.slot number i) r :=
    fun i r => Promise.extend_of_ne (fun j e => Nat.ne_of_lt hlt (Target.slot.inj e).1) r
  refine ⟨fun i r hr => (hslot i r).2 (h.arrived i r hr), fun hlive results hlength hr => ?_⟩
  have hold := h.awaited hlive results hlength fun i r he => (hslot i r).1 (hr i r he)
  exact hold.extend (hm.isOpen_of_missing hG hlive)

/-- The visits for the positions of a new gathering. -/
theorem Machine.bounded_visitsFrom {number : Nat} {all : List NodeId} {costs : NodeId → Nat}
    (hc : ∀ id ∈ ids, w.Takes (.visit id context) (costs id)) {position : Nat}
    (hall : ∀ i id, ids[i]? = some id → all[position + i]? = some id) :
    List.Forall₂ (Task.Bounded w (E.extend w number context all))
      (visitsFrom number context position ids) (ids.map costs) := by
  induction ids generalizing position with
  | nil => exact .nil
  | cons id rest ih =>
    obtain ⟨hfirst, hrest⟩ := List.forall_mem_cons.1 hc
    refine .cons ⟨⟨_, hfirst, Nat.le_refl _⟩, fun r hr => ?_⟩ (ih hrest fun i other ho => ?_)
    · obtain ⟨_, hreaches, rfl⟩ := hr
      exact Promise.extend_slot.2 ⟨id, hall 0 id rfl, hreaches⟩
    · rw [← hall (i + 1) other ho]
      congr 1
      omega

/-- The gathering that begins with a task goes on within what the frame takes. -/
theorem Task.Bounded.awaiting {frame : Frame} {awaiter : Awaiter} {k n : Nat}
    (h : (Task.perform (.gather ids context frame) awaiter).Bounded w E k)
    (hresume : ∀ results, List.Forall₂ (w.Reaches context) ids results →
      w.Takes (w.resume frame (results.flatMap Prod.fst) (results.map Prod.snd)) n)
    (ho : m.isOpen awaiter.target = true) :
    (Machine.awaiting ids.length frame awaiter : Gathering Output Frame).Bounded w
      (E.extend w m.gatherings.size context ids) m.gatherings.size
      (n + 1 + awaiter.stages) := by
  refine ⟨fun i r hr => ?_, fun _ results hlength hresults => ?_⟩
  · simp only [Machine.awaiting, Gather.start, Array.getElem?_replicate] at hr
    split at hr <;> cases hr
  · have hlength : ids.length = results.length := by
      rw [hlength]
      simp [Machine.awaiting, Gather.start]
    have hall : List.Forall₂ (w.Reaches context) ids results := by
      refine List.forall₂_iff_get.2 ⟨hlength, fun i hi hi' => ?_⟩
      obtain ⟨id, hid, hr⟩ := Promise.extend_slot.1 (hresults i _ (List.getElem?_eq_getElem hi'))
      rw [List.getElem?_eq_getElem hi, Option.some.injEq] at hid
      rw [← hid] at hr
      exact hr
    refine ⟨⟨n, hresume results hall, Nat.le_refl _⟩, fun r hr => ?_⟩
    refine (Promise.extend_of_ne (Machine.ne_of_isOpen ho) r).2 (h.honest r ?_)
    obtain ⟨r, hy, he⟩ := hr
    exact ⟨r, (w.yields_gather_iff _ _ _ _).2 ⟨results, hall, hy⟩, he⟩

end Spread

/-! ## Steps -/

theorem sum_set_zero {l : List Nat} {i n : Nat} (h : l[i]? = some n) :
    (l.set i 0).sum + n = l.sum := by
  induction l generalizing i with
  | nil => cases h
  | cons first rest ih =>
    cases i with
    | zero =>
      cases h
      rw [List.set_cons_zero, List.sum_cons, List.sum_cons, Nat.zero_add, Nat.add_comm]
    | succ i =>
      have := ih (i := i) h
      rw [List.set_cons_succ, List.sum_cons, List.sum_cons]
      omega

namespace Machine

variable {w : Walk Context Output Frame} {E : Promise Output} {steps : Nat}
  {m : Machine Context Output Frame} {costs waits : List Nat}

theorem Bounded.exists_wait (h : m.Bounded w E costs waits) {number : Nat}
    {G : Gathering Output Frame} (hG : m.gathering? number = some G) :
    ∃ n, waits[number]? = some n ∧ G.Bounded w E number n := by
  have hlt := (Array.getElem?_eq_some_iff.1 hG).1
  have hn := List.getElem?_eq_getElem (h.length ▸ hlt)
  exact ⟨_, hn, h.gatherings number G _ hG hn⟩

/-- The first task, with its cost and the budget of the others. -/
theorem Bounded.exists_first (h : m.Bounded w E costs waits)
    {task : Task Context Output Frame} {rest : List (Task Context Output Frame)}
    (ht : m.tasks = task :: rest) :
    ∃ n ns, costs = n :: ns ∧ task.Bounded w E n ∧ List.Forall₂ (Task.Bounded w E) rest ns := by
  have htasks := h.tasks
  rw [ht] at htasks
  cases htasks with
  | cons hfirst hrest => exact ⟨_, _, rfl, hfirst, hrest⟩

/-- A step uses some of the budget. -/
theorem Step.bounded {m' : Machine Context Output Frame} (hs : Step w steps m (.running m'))
    (h : m.Sound) (hb : m.Bounded w E costs waits) :
    ∃ E' costs' waits', m'.Bounded w E' costs' waits' ∧
      costs'.sum + waits'.sum < costs.sum + waits.sum := by
  cases hs with
  | replace ht hf ht' hg =>
    obtain ⟨n, ns, rfl, hfirst, hrest⟩ := hb.exists_first ht
    obtain ⟨k, hlt, hk⟩ := hf.bounded hfirst
    obtain ⟨costs', hcosts, hperm⟩ := List.perm_comp_forall₂ ht' (.cons hk hrest)
    refine ⟨E, costs', waits, ⟨hcosts, by rw [hg, hb.length], fun number G n hG => ?_⟩, ?_⟩
    · exact hb.gatherings number G n (by rwa [gathering?, ← hg])
    · rw [hperm.sum_eq, List.sum_cons, List.sum_cons]
      omega
  | @deliver number position found output rest G _ ht hG hp hm ht' hg =>
    obtain ⟨n, ns, rfl, hfirst, hrest⟩ := hb.exists_first ht
    have hlive := (h.missing_ne_zero_iff hG).2
      ⟨position, (m.isOpen_slot_iff _ _).2 ⟨G, hG, hp⟩⟩
    have hE : E (.slot number position) (found, output) :=
      hfirst.honest _ ⟨(found, output), rfl, rfl⟩
    refine ⟨E, ns, waits, ⟨ht' ▸ hrest, by rw [hg, hb.length, Array.size_setIfInBounds],
      fun j G' k hG' hk => ?_⟩, ?_⟩
    · rw [gathering?_delivered hG hg] at hG'
      split at hG'
      · rename_i hj
        cases hG'
        subst hj
        exact (hb.gatherings _ G k hG hk).deliver hp hE hlive
      · exact hb.gatherings j G' k hG' hk
    · have hcost : 1 + 0 ≤ n := hfirst.costs
      rw [List.sum_cons]
      omega
  | @complete number position found output rest G results _ ht hG hp hm hres ht' hg =>
    obtain ⟨n, ns, rfl, hfirst, hrest⟩ := hb.exists_first ht
    have hlive := (h.missing_ne_zero_iff hG).2
      ⟨position, (m.isOpen_slot_iff _ _).2 ⟨G, hG, hp⟩⟩
    have hE : E (.slot number position) (found, output) :=
      hfirst.honest _ ⟨(found, output), rfl, rfl⟩
    obtain ⟨k, hk, hbounded⟩ := hb.exists_wait hG
    have hfull : (delivered G position found output).gather.slots.toList.countP
        Option.isNone = 0 := (missing_delivered h hG hp).symm.trans hm
    have hnext := hbounded.complete hp hE hlive hfull
    rw [hres] at hnext
    refine ⟨E, k :: ns, waits.set number 0, ⟨ht' ▸ .cons hnext hrest,
      by rw [hg, List.length_set, hb.length, Array.size_setIfInBounds],
      fun j G' k' hG' hk' => ?_⟩, ?_⟩
    · rw [gathering?_delivered hG hg] at hG'
      split at hG'
      · rename_i hj
        cases hG'
        subst hj
        exact ⟨(hbounded.deliver hp hE hlive).arrived, fun hne => absurd hm hne⟩
      · rename_i hj
        rw [List.getElem?_set_ne (Ne.symm hj)] at hk'
        exact hb.gatherings j G' k' hG' hk'
    · have hcost : 1 + 0 ≤ n := hfirst.costs
      have hsum := sum_set_zero hk
      rw [List.sum_cons, List.sum_cons]
      omega
  | @spread ids context frame awaiter rest _ ht hne ht' hg =>
    obtain ⟨n, ns, rfl, hfirst, hrest⟩ := hb.exists_first ht
    have hopen := h.isOpen_of_mem (show .perform (.gather ids context frame) awaiter ∈ m.tasks by
      rw [ht]
      exact List.mem_cons_self ..)
    obtain ⟨k, hk, hle⟩ := hfirst.costs
    cases hk with
    | gather costs hvisit hresume htotal =>
      rename_i p
      let E' := E.extend w m.gatherings.size context ids
      have hrest : List.Forall₂ (Task.Bounded w E') rest ns :=
        Task.forall₂_extend hrest fun task hm => h.isOpen_of_mem (show task ∈ m.tasks by
          rw [ht]
          exact List.mem_cons_of_mem _ hm)
      have hvisits : List.Forall₂ (Task.Bounded w E') (visitsFrom m.gatherings.size context 0 ids)
          (ids.map costs) :=
        bounded_visitsFrom hvisit fun i id hid => by rwa [Nat.zero_add]
      refine ⟨E', ns ++ ids.map costs,
        waits ++ [p + 1 + awaiter.stages], ⟨ht' ▸ List.rel_append hrest hvisits, ?_,
        fun j G k hG hk => ?_⟩, ?_⟩
      · rw [hg, Array.size_push, List.length_append, hb.length]
        rfl
      · rw [getElem?_push_gathering hg] at hG
        split at hG
        · rename_i hj
          cases hG
          subst hj
          rw [← hb.length, List.getElem?_concat_length] at hk
          cases hk
          exact hfirst.awaiting hresume hopen
        · rename_i hj
          have hlt := (Array.getElem?_eq_some_iff.1 hG).1
          rw [List.getElem?_append_left (hb.length ▸ hlt)] at hk
          exact (hb.gatherings j G k hG hk).extend h hG
      · rw [List.sum_append, List.sum_append, List.sum_singleton, List.sum_cons]
        omega

/-- A step within the budget does not end before the walk does. -/
theorem Step.ended_ne {outcome : Outcome Output} (hs : Step w steps m (.ended outcome))
    (hb : m.Bounded w E costs waits) (hle : costs.sum ≤ steps) : outcome ≠ .unfinished := by
  cases hs with
  | finish ht => nofun
  | fail ht hf => nofun
  | stop ht hu =>
    obtain ⟨n, ns, rfl, hfirst, -⟩ := hb.exists_first ht
    obtain ⟨k, hk, hn⟩ := hfirst.costs
    rw [List.sum_cons] at hle
    exact absurd hu (hk.perform_ne (by omega))

/-- A run ends within the budget of its machine. -/
theorem Bounded.run_ne (hb : m.Bounded w E costs waits) (h : m.Sound) {tasks : Nat}
    (hsteps : costs.sum + waits.sum ≤ steps) (htasks : costs.sum + waits.sum < tasks) :
    m.run w steps tasks ≠ .unfinished := by
  induction tasks generalizing m E costs waits with
  | zero => omega
  | succ tasks ih =>
    have hstep := step_spec h w steps
    unfold run
    cases hp : m.step w steps with
    | running next =>
      rw [hp] at hstep
      obtain ⟨E', costs', waits', hnext, hlt⟩ := hstep.bounded h hb
      exact ih hnext (hstep.sound h) (by omega) (by omega)
    | ended outcome =>
      rw [hp] at hstep
      exact hstep.ended_ne hb (by omega)

/-! ## More steps -/

theorem perform_below {steps' : Nat} (hle : steps ≤ steps') (m : Machine Context Output Frame)
    (action : Action Context Output Frame) (awaiter : Awaiter) :
    m.perform w steps action awaiter = .ended .unfinished ∨
      m.perform w steps' action awaiter = m.perform w steps action awaiter := by
  cases action with
  | capture action frame =>
    simp only [perform]
    rcases w.perform_below hle action with hu | he
    · rw [hu]
      exact Or.inl rfl
    · rw [he]
      exact Or.inr rfl
  | _ => exact Or.inr rfl

/-- More steps never change how a run ends. -/
theorem run_below {steps' tasks tasks' : Nat} (hsteps : steps ≤ steps') (htasks : tasks ≤ tasks')
    (m : Machine Context Output Frame) :
    (m.run w steps tasks).Below (m.run w steps' tasks') := by
  induction tasks generalizing m tasks' with
  | zero => exact Or.inl rfl
  | succ tasks ih =>
    obtain ⟨tasks', rfl⟩ : ∃ k, tasks' = k + 1 := ⟨tasks' - 1, by omega⟩
    have hstep : m.step w steps = .ended .unfinished ∨ m.step w steps' = m.step w steps := by
      unfold step
      split
      · exact Or.inr rfl
      · split
        · exact Or.inr rfl
        · exact Or.inr rfl
        · exact perform_below hsteps _ _ _
    unfold run
    rcases hstep with hu | he
    · rw [hu]
      exact Or.inl rfl
    · rw [he]
      cases m.step w steps with
      | running next => exact ih (by omega) next
      | ended outcome => exact Outcome.Below.refl _

end Machine

/-! ## Walks from a node -/

namespace Walk

variable {w : Walk Context Output Frame}

/-- A walk that begins at a node ends, and more steps do not change how. -/
def Drains (w : Walk Context Output Frame) (scheduling : Scheduling) (root : NodeId)
    (context : Context) : Prop :=
  ∃ steps outcome, outcome ≠ .unfinished ∧
    ∀ more, steps ≤ more → w.run scheduling more root context = outcome

theorem Takes.start_run_ne {root : NodeId} {context : Context} {n steps : Nat}
    (h : w.Takes (.visit root context) n) (hlt : n < steps) :
    (Machine.start root context).run w steps steps ≠ .unfinished := by
  have hstart : (Machine.start root context : Machine Context Output Frame).Bounded w
      (fun _ _ => True) [n] [] := by
    refine ⟨.cons ⟨⟨n, h, Nat.le_refl _⟩, fun _ _ => trivial⟩ .nil, rfl, fun number G k hG => ?_⟩
    simp [Machine.gathering?, Machine.start] at hG
  refine hstart.run_ne (Machine.sound_start root context) ?_ ?_ <;>
    · rw [List.sum_singleton, List.sum_nil]
      omega

/-- A walk whose actions end is done under either way of scheduling. -/
theorem Ends.drains {root : NodeId} {context : Context} (h : w.Ends (.visit root context))
    (scheduling : Scheduling) : w.Drains scheduling root context := by
  obtain ⟨n, hn⟩ := h
  have hne : w.run scheduling (n + 1) root context ≠ .unfinished := by
    cases scheduling with
    | direct =>
      show w.perform (n + 2) (.visit root context) ≠ .unfinished
      exact hn.perform_ne (by omega)
    | queued => exact hn.start_run_ne (Nat.lt_succ_self n)
  refine ⟨n + 1, _, hne, fun more hle => ?_⟩
  have hbelow : (w.run scheduling (n + 1) root context).Below
      (w.run scheduling more root context) := by
    cases scheduling with
    | direct => exact w.visitBy_below (w.perform_below hle) root context
    | queued => exact Machine.run_below hle hle _
  rcases hbelow with hu | he
  · exact absurd hu hne
  · exact he

end Walk

end Juxta
