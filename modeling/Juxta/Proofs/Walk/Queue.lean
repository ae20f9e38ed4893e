import Juxta.Compile
import Juxta.Proofs.Walk.Steps
import Juxta.Proofs.Walk.Yields

/-!
# A queue comes to what recursion comes to

The results that the targets of a machine will get are fixed as soon as it is known what its root
will get. A machine is on track for a result if there is such an assignment; a step can neither
leave the track nor find it, whatever its order.

* `Task.Meets`, `Gathering.Meets` : a task or a gathering will give its target what is assigned;
* `Machine.OnTrack` : an assignment that all tasks and gatherings meet;
* `Machine.onTrack_iff_of_step` : a step keeps and reflects this;
* `Walk.reaches_of_run`, `Walk.not_reaches_of_run` : a run by a queue that finishes has the result
  of the recursion, and if it is aborted the recursion has none;
* `Walk.reaches_of_finished`, `Walk.not_reaches_of_aborted` : the same under either way of
  scheduling.
-/

namespace Juxta

variable {Context Output Frame : Type}

/-- What arrives where an awaiter leads: diagnostics that come first are added on the way. -/
def Awaiter.received : Awaiter → Walk.Result Output → Walk.Result Output
  | .after before awaiter, r => awaiter.received (before ++ r.1, r.2)
  | _, r => r

/-- A task comes to a result. -/
def Task.Comes (w : Walk Context Output Frame) :
    Task Context Output Frame → Walk.Result Output → Prop
  | .visit id context _, r => w.Reaches context id r
  | .resume _ found output, r => r = (found, output)
  | .perform action _, r => w.Yields action r

/-- The results that targets get in the end. -/
abbrev Assignment (Output : Type) := Target → Walk.Result Output

/-- A task gives its target what is assigned to it. -/
def Task.Meets (w : Walk Context Output Frame) (E : Assignment Output)
    (task : Task Context Output Frame) : Prop :=
  ∃ r, task.Comes w r ∧ E task.target = task.awaiter.received r

/-- The results assigned to the positions of a gathering. -/
def Assignment.results (E : Assignment Output) (number count : Nat) : List (Walk.Result Output) :=
  (List.range' 0 count).map fun i => E (.slot number i)

/-- What has arrived at a gathering is what is assigned to its positions. -/
def Gathering.Arrived (E : Assignment Output) (number : Nat) (G : Gathering Output Frame) : Prop :=
  ∀ (i : Nat) r, G.gather.slots[i]? = some (some r) → E (.slot number i) = r

/-- With what is assigned to its positions, a gathering gives its target what is assigned to
that. -/
def Gathering.Awaited (w : Walk Context Output Frame) (E : Assignment Output) (number : Nat)
    (G : Gathering Output Frame) : Prop :=
  ∃ r, w.Yields (w.resume G.frame ((E.results number G.gather.slots.size).flatMap Prod.fst)
      ((E.results number G.gather.slots.size).map Prod.snd)) r ∧
    E G.awaiter.target = G.awaiter.received r

/-- A gathering has got what is assigned to its positions, and if it is not complete it will give
its target what is assigned to that. -/
structure Gathering.Meets (w : Walk Context Output Frame) (E : Assignment Output) (number : Nat)
    (G : Gathering Output Frame) : Prop where
  arrived : G.Arrived E number
  awaited : G.gather.missing ≠ 0 → G.Awaited w E number

namespace Machine

/-- All tasks and gatherings give their targets what is assigned to them. -/
structure Meets (w : Walk Context Output Frame) (m : Machine Context Output Frame)
    (E : Assignment Output) : Prop where
  tasks : ∀ task ∈ m.tasks, task.Meets w E
  gatherings : ∀ number G, m.gathering? number = some G → G.Meets w E number

/-- The root will get a result. -/
def OnTrack (w : Walk Context Output Frame) (m : Machine Context Output Frame)
    (r : Walk.Result Output) : Prop :=
  ∃ E, m.Meets w E ∧ E .root = r

end Machine

/-! ## Tasks in the place of others -/

theorem Task.Follows.meets_iff {w : Walk Context Output Frame} {steps : Nat}
    {task task' : Task Context Output Frame} (h : task.Follows w steps task')
    (E : Assignment Output) : task'.Meets w E ↔ task.Meets w E := by
  cases h with
  | absent ha =>
    unfold Meets Comes
    simp only [w.reaches_iff, ha, if_true]
    rfl
  | enter ha hn =>
    unfold Meets Comes
    simp only [w.reaches_iff, ha, Bool.false_eq_true, if_false, hn, Option.some.injEq,
      exists_eq_left']
    rfl
  | pass =>
    constructor
    · rintro ⟨r, rfl, hE⟩
      exact ⟨_, rfl, hE⟩
    · rintro ⟨r, rfl, hE⟩
      exact ⟨_, rfl, hE⟩
  | done =>
    unfold Meets Comes
    simp only [w.yields_done_iff]
    rfl
  | @after found action awaiter =>
    constructor
    · rintro ⟨r, hr, hE⟩
      exact ⟨(found ++ r.1, r.2), (w.yields_after_iff _ _ _).2 ⟨r.1, hr, rfl⟩, hE⟩
    · rintro ⟨⟨first, output⟩, hr, hE⟩
      obtain ⟨more, hm, rfl⟩ := (w.yields_after_iff _ _ _).1 hr
      exact ⟨(more, output), hm, hE⟩
  | visit =>
    unfold Meets Comes
    simp only [w.yields_visit_iff]
    rfl
  | empty =>
    unfold Meets Comes
    simp only [w.yields_gather_iff, List.forall₂_nil_left_iff, exists_eq_left, List.flatMap_nil,
      List.map_nil]
    rfl
  | @capture action frame awaiter found output hp =>
    have hy : ∀ r, w.Yields (.capture action frame) r ↔
        w.Yields (w.resume frame found [output]) r := by
      intro r
      rw [w.yields_capture_iff]
      constructor
      · rintro ⟨inner, hi, hr⟩
        have he : inner = (found, output) := hi.unique ⟨steps, hp⟩
        subst he
        exact hr
      · intro hr
        exact ⟨(found, output), ⟨steps, hp⟩, hr⟩
    unfold Meets Comes
    simp only [hy]
    rfl

theorem Task.Fails.not_meets {w : Walk Context Output Frame} {steps : Nat}
    {task : Task Context Output Frame} {error : CompileError} (h : task.Fails w steps error)
    (E : Assignment Output) : ¬ task.Meets w E := by
  rintro ⟨r, hr, -⟩
  cases h with
  | missing ha hn =>
    obtain ⟨node, hnode, -⟩ := by simpa [ha] using (w.reaches_iff _ _ r).1 hr
    rw [hn] at hnode
    cases hnode
  | abort => exact w.not_yields_abort _ r hr
  | capture hp =>
    obtain ⟨inner, hi, -⟩ := (w.yields_capture_iff _ _ r).1 hr
    exact Walk.not_yields_of_aborted hp inner hi

/-! ## Gatherings -/

/-- All outputs of a gathering in order, when none is missing. -/
theorem Gather.exists_results {g : Gather Output}
    (h : g.slots.toList.countP Option.isNone = 0) :
    ∃ results : List (Walk.Result Output), g.slots.toList = results.map some ∧
      g.results = (results.flatMap Prod.fst, results.map Prod.snd) := by
  obtain ⟨results, hr⟩ : ∃ results : List (Walk.Result Output),
      g.slots.toList = results.map some := by
    generalize g.slots.toList = slots at h
    induction slots with
    | nil => exact ⟨[], rfl⟩
    | cons slot rest ih =>
      cases slot with
      | none => simp at h
      | some r =>
        obtain ⟨results, hr⟩ := ih (by simpa using h)
        exact ⟨r :: results, by rw [hr]; rfl⟩
  refine ⟨results, hr, ?_⟩
  unfold Gather.results
  simp only [hr, List.filterMap_map, Function.comp_def, id_eq, List.filterMap_some]

/-- A gathering to which all outputs have come has the results assigned to its positions. -/
theorem Gathering.Arrived.results_eq {G : Gathering Output Frame} {E : Assignment Output}
    {number : Nat} (h : G.Arrived E number)
    (hfull : G.gather.slots.toList.countP Option.isNone = 0) :
    G.gather.results = ((E.results number G.gather.slots.size).flatMap Prod.fst,
      (E.results number G.gather.slots.size).map Prod.snd) := by
  obtain ⟨results, hslots, hresults⟩ := Gather.exists_results hfull
  have hsize : results.length = G.gather.slots.size := by
    have := congrArg List.length hslots
    simpa using this.symm
  have hall : results = E.results number G.gather.slots.size := by
    refine List.ext_getElem (by simp [Assignment.results, hsize]) fun i hi _ => ?_
    have hget : G.gather.slots[i]? = some (some results[i]) := by
      rw [← Array.getElem?_toList, hslots, List.getElem?_map, List.getElem?_eq_getElem hi]
      rfl
    simp [Assignment.results, h i _ hget]
  rw [hresults, hall]

namespace Machine

section Deliver

variable {w : Walk Context Output Frame} {E : Assignment Output} {number position : Nat}
  {G : Gathering Output Frame} {found : List Diagnostic} {output : Output}

/-- What has arrived at a gathering is right after a new output exactly if it was right before and
the new output is right. -/
theorem arrived_delivered_iff (hs : G.gather.slots[position]? = some none) :
    (delivered G position found output).Arrived E number ↔
      E (.slot number position) = (found, output) ∧ G.Arrived E number := by
  unfold Gathering.Arrived
  simp only [getElem?_slots_delivered hs]
  constructor
  · intro h
    refine ⟨h position _ (if_pos rfl), fun i r hr => h i r ?_⟩
    rw [if_neg]
    · exact hr
    · rintro rfl
      rw [hs] at hr
      cases hr
  · rintro ⟨hp, h⟩ i r hr
    split at hr
    · rename_i hi
      cases hr
      rw [hi, hp]
    · exact h i r hr

theorem awaited_delivered :
    (delivered G position found output).Awaited w E number ↔ G.Awaited w E number := by
  unfold Gathering.Awaited
  rw [show (delivered G position found output).gather.slots.size = G.gather.slots.size by
    simp [delivered, Gather.deliver]]
  rfl

/-- The gatherings meet an assignment after an output has arrived exactly if they did before and
the output is right; only if the gathering is complete now, nothing is said of what it awaits. -/
theorem meets_delivered_iff {m m' : Machine Context Output Frame} (h : m.Sound)
    (hG : m.gathering? number = some G) (hs : G.gather.slots[position]? = some none)
    (hg : m'.gatherings = m.gatherings.setIfInBounds number (delivered G position found output)) :
    ((∀ j G', m'.gathering? j = some G' → G'.Meets w E j) ∧
        ((delivered G position found output).gather.missing = 0 → G.Awaited w E number)) ↔
      E (.slot number position) = (found, output) ∧
        ∀ j G', m.gathering? j = some G' → G'.Meets w E j := by
  have hlive : G.gather.missing ≠ 0 :=
    (h.missing_ne_zero_iff hG).2 ⟨position, (m.isOpen_slot_iff _ _).2 ⟨G, hG, hs⟩⟩
  constructor
  · rintro ⟨hgs, hlast⟩
    have hmeets := hgs number _ ((gathering?_delivered hG hg number).trans (if_pos rfl))
    have hnew := (arrived_delivered_iff hs).1 hmeets.arrived
    refine ⟨hnew.1, fun j G' hG' => ?_⟩
    by_cases hj : j = number
    · subst hj
      rw [hG] at hG'
      cases hG'
      refine ⟨hnew.2, fun _ => ?_⟩
      by_cases hm : (delivered G position found output).gather.missing = 0
      · exact hlast hm
      · exact awaited_delivered.1 (hmeets.awaited hm)
    · exact hgs j G' ((gathering?_delivered hG hg j).trans ((if_neg hj).trans hG'))
  · rintro ⟨hE, hgs⟩
    have hold := hgs number G hG
    refine ⟨fun j G' hG' => ?_, fun _ => hold.awaited hlive⟩
    rw [gathering?_delivered hG hg] at hG'
    split at hG'
    · rename_i hj
      cases hG'
      rw [hj]
      exact ⟨(arrived_delivered_iff hs).2 ⟨hE, hold.arrived⟩,
        fun _ => awaited_delivered.2 (hold.awaited hlive)⟩
    · exact hgs j G' hG'

end Deliver

/-- Visits give the positions of a gathering what is assigned to them exactly if the nodes come to
those results. -/
theorem meets_visitsFrom_iff (w : Walk Context Output Frame) (E : Assignment Output) (number : Nat)
    (context : Context) (position : Nat) (ids : List NodeId) :
    (∀ task ∈ (visitsFrom number context position ids : List (Task Context Output Frame)),
        task.Meets w E) ↔
      List.Forall₂ (w.Reaches context) ids
        ((List.range' position ids.length).map fun i => E (.slot number i)) := by
  induction ids generalizing position with
  | nil => simp [visitsFrom]
  | cons id rest ih =>
    have hmeets : (Task.visit id context (.slot number position) :
        Task Context Output Frame).Meets w E ↔
          w.Reaches context id (E (.slot number position)) := by
      constructor
      · rintro ⟨r, hr, hE⟩
        rw [show E (.slot number position) = r from hE]
        exact hr
      · intro hr
        exact ⟨_, hr, rfl⟩
    rw [visitsFrom, List.forall_mem_cons, ih, hmeets, List.length_cons, List.range'_succ,
      List.map_cons, List.forall₂_cons]

section Spread

/-- An assignment with results for the positions of one more gathering. -/
def extend (E : Assignment Output) (number : Nat) (results : List (Walk.Result Output)) :
    Assignment Output
  | .root => E .root
  | .slot j i => if j = number then results.getD i (E .root) else E (.slot j i)

variable {w : Walk Context Output Frame} {m : Machine Context Output Frame}
  {E : Assignment Output} {results : List (Walk.Result Output)}

theorem extend_of_ne {number : Nat} {t : Target} (ht : ∀ i, t ≠ .slot number i) :
    extend E number results t = E t := by
  cases t with
  | root => rfl
  | slot j i => exact if_neg fun e => ht i (by rw [e])

theorem map_extend (E : Assignment Output) (number : Nat) (results : List (Walk.Result Output)) :
    ((List.range' 0 results.length).map fun i => extend E number results (.slot number i)) =
      results := by
  refine List.ext_getElem (by simp) fun i hi hi' => ?_
  simp [extend, List.getElem?_eq_getElem hi']

/-- The positions of a gathering that has not begun are not open. -/
theorem ne_of_isOpen {t : Target} (ht : m.isOpen t = true) (i : Nat) :
    t ≠ .slot m.gatherings.size i := by
  rintro rfl
  obtain ⟨G, hG, -⟩ := (m.isOpen_slot_iff _ _).1 ht
  exact absurd (Array.getElem?_eq_some_iff.1 hG).1 (Nat.lt_irrefl _)

theorem meets_extend_task (h : m.Sound) {task : Task Context Output Frame} (hm : task ∈ m.tasks)
    (ht : task.Meets w E) : task.Meets w (extend E m.gatherings.size results) := by
  obtain ⟨r, hr, hE⟩ := ht
  exact ⟨r, hr, (extend_of_ne (ne_of_isOpen (h.isOpen_of_mem hm))).trans hE⟩

theorem meets_extend_gathering (h : m.Sound) {number : Nat} {G : Gathering Output Frame}
    (hG : m.gathering? number = some G) (hm : G.Meets w E number) :
    G.Meets w (extend E m.gatherings.size results) number := by
  have hlt := (Array.getElem?_eq_some_iff.1 hG).1
  have hslot : ∀ i, extend E m.gatherings.size results (.slot number i) = E (.slot number i) :=
    fun i => if_neg (Nat.ne_of_lt hlt)
  refine ⟨fun i r hr => (hslot i).trans (hm.arrived i r hr), fun hlive => ?_⟩
  obtain ⟨r, hr, hE⟩ := hm.awaited hlive
  refine ⟨r, ?_, (extend_of_ne (ne_of_isOpen (h.isOpen_of_missing hG hlive))).trans hE⟩
  unfold Assignment.results
  simp only [hslot]
  exact hr

/-- A gathering that begins awaits what the action that began it comes to. -/
theorem awaited_awaiting_iff (number : Nat) (ids : List NodeId) (frame : Frame)
    (awaiter : Awaiter) :
    (awaiting ids.length frame awaiter : Gathering Output Frame).Awaited w E number ↔
      ∃ r, w.Yields (w.resume frame ((E.results number ids.length).flatMap Prod.fst)
          ((E.results number ids.length).map Prod.snd)) r ∧
        E awaiter.target = awaiter.received r := by
  unfold Gathering.Awaited
  rw [show (awaiting ids.length frame awaiter : Gathering Output Frame).gather.slots.size =
    ids.length by simp [awaiting, Gather.start]]
  rfl

theorem onTrack_of_spread {m' : Machine Context Output Frame} {ids : List NodeId}
    {context : Context} {frame : Frame} {awaiter : Awaiter}
    {rest : List (Task Context Output Frame)} (h : m.Sound)
    (ht : m.tasks = .perform (.gather ids context frame) awaiter :: rest)
    (ht' : m'.tasks = rest ++ visitsFrom m.gatherings.size context 0 ids)
    (hg : m'.gatherings = m.gatherings.push (awaiting ids.length frame awaiter))
    (hm : m.Meets w E) : ∃ E', m'.Meets w E' ∧ E' .root = E .root := by
  have head : Task.perform (.gather ids context frame) awaiter ∈ m.tasks := by
    rw [ht]
    exact List.mem_cons_self ..
  obtain ⟨r, hr, hE⟩ := hm.tasks _ head
  obtain ⟨results, hall, hy⟩ := (w.yields_gather_iff _ _ _ _).1 hr
  have hmap := map_extend E m.gatherings.size results
  rw [← hall.length_eq] at hmap
  refine ⟨extend E m.gatherings.size results, ⟨fun task hmem => ?_, fun number G hG => ?_⟩, rfl⟩
  · rw [ht', List.mem_append] at hmem
    rcases hmem with hmem | hmem
    · have old : task ∈ m.tasks := by
        rw [ht]
        exact List.mem_cons_of_mem _ hmem
      exact meets_extend_task h old (hm.tasks task old)
    · refine (meets_visitsFrom_iff w _ _ context 0 ids).2 ?_ task hmem
      rw [hmap]
      exact hall
  · rw [getElem?_push_gathering hg] at hG
    split at hG
    · rename_i hn
      cases hG
      subst hn
      refine ⟨fun i r' hr' => ?_, fun _ => (awaited_awaiting_iff _ _ _ _).2 ⟨r, ?_, ?_⟩⟩
      · simp only [awaiting, Gather.start, Array.getElem?_replicate] at hr'
        split at hr' <;> cases hr'
      · unfold Assignment.results
        rw [hmap]
        exact hy
      · exact (extend_of_ne (ne_of_isOpen (h.isOpen_of_mem head))).trans hE
    · exact meets_extend_gathering h hG (hm.gatherings number G hG)

theorem meets_of_spread {m' : Machine Context Output Frame} {ids : List NodeId}
    {context : Context} {frame : Frame} {awaiter : Awaiter}
    {rest : List (Task Context Output Frame)} (hne : ids ≠ [])
    (ht : m.tasks = .perform (.gather ids context frame) awaiter :: rest)
    (ht' : m'.tasks = rest ++ visitsFrom m.gatherings.size context 0 ids)
    (hg : m'.gatherings = m.gatherings.push (awaiting ids.length frame awaiter))
    (hm : m'.Meets w E) : m.Meets w E := by
  refine ⟨fun task hmem => ?_, fun number G hG => ?_⟩
  · rw [ht, List.mem_cons] at hmem
    rcases hmem with rfl | hmem
    · have hnew := hm.gatherings m.gatherings.size _
        ((getElem?_push_gathering hg _).trans (if_pos rfl))
      have hlive : (awaiting ids.length frame awaiter :
          Gathering Output Frame).gather.missing ≠ 0 := fun e =>
        hne (List.length_eq_zero_iff.1 e)
      obtain ⟨r, hr, hE⟩ := (awaited_awaiting_iff _ _ _ _).1 (hnew.awaited hlive)
      refine ⟨r, (w.yields_gather_iff _ _ _ _).2 ⟨_, ?_, hr⟩, hE⟩
      refine (meets_visitsFrom_iff w E _ context 0 ids).1 fun task hmem => hm.tasks task ?_
      rw [ht', List.mem_append]
      exact Or.inr hmem
    · refine hm.tasks task ?_
      rw [ht', List.mem_append]
      exact Or.inl hmem
  · have hlt := (Array.getElem?_eq_some_iff.1 hG).1
    exact hm.gatherings number G
      ((getElem?_push_gathering hg _).trans ((if_neg (Nat.ne_of_lt hlt)).trans hG))

end Spread

/-! ## Steps -/

/-- A step neither leaves the track for a result nor finds it. -/
theorem onTrack_iff_of_step {w : Walk Context Output Frame} {steps : Nat}
    {m m' : Machine Context Output Frame} (h : m.Sound) (hs : Step w steps m (.running m'))
    (r : Walk.Result Output) : m'.OnTrack w r ↔ m.OnTrack w r := by
  have hnew := hs.sound h
  cases hs with
  | replace ht hf ht' hg =>
    have hmeets : ∀ E, m'.Meets w E ↔ m.Meets w E := by
      intro E
      constructor
      · rintro ⟨htasks, hgs⟩
        refine ⟨fun task hm => ?_, fun number G hG => hgs number G (by rwa [gathering?, hg])⟩
        rw [ht, List.mem_cons] at hm
        rcases hm with rfl | hm
        · exact (hf.meets_iff E).1 (htasks _ (ht'.mem_iff.2 (List.mem_cons_self ..)))
        · exact htasks _ (ht'.mem_iff.2 (List.mem_cons_of_mem _ hm))
      · rintro ⟨htasks, hgs⟩
        refine ⟨fun task hm => ?_,
          fun number G hG => hgs number G (by rwa [gathering?, ← hg])⟩
        rw [ht'.mem_iff, List.mem_cons] at hm
        rcases hm with rfl | hm
        · exact (hf.meets_iff E).2 (htasks _ (by rw [ht]; exact List.mem_cons_self ..))
        · exact htasks _ (by rw [ht]; exact List.mem_cons_of_mem _ hm)
    exact exists_congr fun E => and_congr_left fun _ => hmeets E
  | @deliver number position found output rest G _ ht hG hp hm ht' hg =>
    have hmeets : ∀ E, m'.Meets w E ↔ m.Meets w E := by
      intro E
      have hiff := meets_delivered_iff (w := w) (E := E) h hG hp hg
      constructor
      · rintro ⟨htasks, hgs⟩
        obtain ⟨hE, hgs'⟩ := hiff.1 ⟨hgs, fun hz => absurd hz hm⟩
        refine ⟨fun task hmem => ?_, hgs'⟩
        rw [ht, List.mem_cons] at hmem
        rcases hmem with rfl | hmem
        · exact ⟨_, rfl, hE⟩
        · exact htasks task (by rwa [ht'])
      · rintro ⟨htasks, hgs⟩
        obtain ⟨r, rfl, hE⟩ := htasks _ (by rw [ht]; exact List.mem_cons_self ..)
        refine ⟨fun task hmem => htasks task ?_, (hiff.2 ⟨hE, hgs⟩).1⟩
        rw [ht, ← ht']
        exact List.mem_cons_of_mem _ hmem
    exact exists_congr fun E => and_congr_left fun _ => hmeets E
  | @complete number position found output rest G results _ ht hG hp hm hres ht' hg =>
    have hmeets : ∀ E, m'.Meets w E ↔ m.Meets w E := by
      intro E
      have hiff := meets_delivered_iff (w := w) (E := E) h hG hp hg
      have hfull := (hnew.missing number _ ((gathering?_delivered hG hg number).trans
        (if_pos rfl))).symm.trans hm
      have hlast : (delivered G position found output).Arrived E number →
          ((Task.perform (w.resume G.frame results.1 results.2) G.awaiter :
            Task Context Output Frame).Meets w E ↔ G.Awaited w E number) := by
        intro ha
        rw [← hres, ha.results_eq hfull]
        exact awaited_delivered
      constructor
      · rintro ⟨htasks, hgs⟩
        have ha := (hgs number _ ((gathering?_delivered hG hg number).trans (if_pos rfl))).arrived
        have hw := (hlast ha).1 (htasks _ (by rw [ht']; exact List.mem_cons_self ..))
        obtain ⟨hE, hgs'⟩ := hiff.1 ⟨hgs, fun _ => hw⟩
        refine ⟨fun task hmem => ?_, hgs'⟩
        rw [ht, List.mem_cons] at hmem
        rcases hmem with rfl | hmem
        · exact ⟨_, rfl, hE⟩
        · exact htasks task (by rw [ht']; exact List.mem_cons_of_mem _ hmem)
      · rintro ⟨htasks, hgs⟩
        obtain ⟨r, rfl, hE⟩ := htasks _ (by rw [ht]; exact List.mem_cons_self ..)
        obtain ⟨hgs', hw⟩ := hiff.2 ⟨hE, hgs⟩
        have ha := (hgs' number _ ((gathering?_delivered hG hg number).trans (if_pos rfl))).arrived
        refine ⟨fun task hmem => ?_, hgs'⟩
        rw [ht', List.mem_cons] at hmem
        rcases hmem with rfl | hmem
        · exact (hlast ha).2 (hw hm)
        · exact htasks task (by rw [ht]; exact List.mem_cons_of_mem _ hmem)
    exact exists_congr fun E => and_congr_left fun _ => hmeets E
  | spread ht hne ht' hg =>
    constructor
    · rintro ⟨E, hm, hE⟩
      exact ⟨E, meets_of_spread hne ht ht' hg hm, hE⟩
    · rintro ⟨E, hm, rfl⟩
      exact onTrack_of_spread h ht ht' hg hm

/-! ## Runs -/

/-- What has arrived, with a result for all that has not. -/
def arrivals (m : Machine Context Output Frame) (r : Walk.Result Output) : Assignment Output
  | .root => r
  | .slot number i => match m.gathering? number with
    | some G => (G.gather.slots[i]?.getD none).getD r
    | none => r

/-- A machine that ends with an output was on track for it. -/
theorem onTrack_of_finished {w : Walk Context Output Frame} {steps : Nat}
    {m : Machine Context Output Frame} (h : m.Sound) {found : List Diagnostic} {output : Output}
    (hs : Step w steps m (.ended (.finished found output))) : m.OnTrack w (found, output) := by
  cases hs with
  | finish ht =>
    obtain ⟨rfl, hall⟩ := h.alone ht rfl
    refine ⟨m.arrivals (found, output), ⟨fun task hm => ?_, fun number G hG => ⟨?_, ?_⟩⟩, rfl⟩
    · rw [ht, List.mem_singleton] at hm
      subst hm
      exact ⟨_, rfl, rfl⟩
    · intro i r hr
      simp only [arrivals, hG, hr, Option.getD_some]
    · exact fun hlive => absurd (hall number G hG) hlive

/-- A machine that ends with an error was on no track. -/
theorem not_onTrack_of_aborted {w : Walk Context Output Frame} {steps : Nat}
    {m : Machine Context Output Frame} {error : CompileError}
    (hs : Step w steps m (.ended (.aborted error))) (r : Walk.Result Output) :
    ¬ m.OnTrack w r := by
  cases hs with
  | fail ht hf =>
    rintro ⟨E, hm, -⟩
    refine hf.not_meets E (hm.tasks _ ?_)
    rw [ht]
    exact List.mem_cons_self ..

/-- A run ends in a step of a machine that is on track for the same results. -/
theorem exists_last_of_run {w : Walk Context Output Frame} {steps tasks : Nat}
    {m : Machine Context Output Frame} (h : m.Sound) (hne : m.run w steps tasks ≠ .unfinished) :
    ∃ last : Machine Context Output Frame, last.Sound ∧
      Step w steps last (.ended (m.run w steps tasks)) ∧
        ∀ r, last.OnTrack w r ↔ m.OnTrack w r := by
  induction tasks generalizing m with
  | zero => exact absurd rfl hne
  | succ tasks ih =>
    have hs := step_spec h w steps
    unfold run at hne ⊢
    cases hp : m.step w steps with
    | running next =>
      rw [hp] at hs
      simp only [hp] at hne ⊢
      obtain ⟨last, hl, hend, htrack⟩ := ih (hs.sound h) hne
      exact ⟨last, hl, hend, fun r => (htrack r).trans (onTrack_iff_of_step h hs r)⟩
    | ended outcome =>
      rw [hp] at hs
      exact ⟨m, h, hs, fun r => Iff.rfl⟩

/-- The machine that visits a node is on track for the results of the visit. -/
theorem onTrack_start_iff (w : Walk Context Output Frame) (id : NodeId) (context : Context)
    (r : Walk.Result Output) :
    (start id context : Machine Context Output Frame).OnTrack w r ↔ w.Reaches context id r := by
  have htasks : (start id context : Machine Context Output Frame).tasks =
      [.visit id context .root] := rfl
  constructor
  · rintro ⟨E, hm, rfl⟩
    obtain ⟨r, hr, hE⟩ := hm.tasks (.visit id context .root) (by rw [htasks]; simp)
    rw [show E .root = r from hE]
    exact hr
  · intro hr
    refine ⟨fun _ => r, ⟨fun task hm => ?_, fun number G hG => ?_⟩, rfl⟩
    · rw [htasks, List.mem_singleton] at hm
      subst hm
      exact ⟨r, hr, rfl⟩
    · simp [gathering?, start] at hG

end Machine

namespace Walk

variable {w : Walk Context Output Frame} {steps tasks : Nat} {id : NodeId} {context : Context}

/-- A run by a queue that finishes has the result of the recursion. -/
theorem reaches_of_run {found : List Diagnostic} {output : Output}
    (h : (Machine.start id context).run w steps tasks = .finished found output) :
    w.Reaches context id (found, output) := by
  have hne : (Machine.start id context).run w steps tasks ≠ .unfinished := by
    rw [h]
    nofun
  obtain ⟨last, hl, hend, htrack⟩ :=
    Machine.exists_last_of_run (Machine.sound_start id context) hne
  rw [h] at hend
  exact (Machine.onTrack_start_iff w id context _).1
    ((htrack _).1 (Machine.onTrack_of_finished hl hend))

/-- If a run by a queue is aborted, the recursion has no result. -/
theorem not_reaches_of_run {error : CompileError}
    (h : (Machine.start id context).run w steps tasks = .aborted error) (r : Result Output) :
    ¬ w.Reaches context id r := by
  have hne : (Machine.start id context).run w steps tasks ≠ .unfinished := by
    rw [h]
    nofun
  obtain ⟨last, -, hend, htrack⟩ :=
    Machine.exists_last_of_run (Machine.sound_start id context) hne
  rw [h] at hend
  intro hr
  exact Machine.not_onTrack_of_aborted hend r
    ((htrack r).2 ((Machine.onTrack_start_iff w id context r).2 hr))

variable {scheduling : Scheduling}

theorem reaches_of_finished {found : List Diagnostic} {output : Output}
    (h : w.run scheduling steps id context = .finished found output) :
    w.Reaches context id (found, output) := by
  cases scheduling with
  | direct => exact ⟨steps, h⟩
  | queued => exact reaches_of_run h

theorem not_reaches_of_aborted {error : CompileError}
    (h : w.run scheduling steps id context = .aborted error) (r : Result Output) :
    ¬ w.Reaches context id r := by
  cases scheduling with
  | direct =>
    have hvisit : w.perform (steps + 1) (.visit id context) = .aborted error := h
    exact fun hr => not_yields_of_aborted hvisit r ((w.yields_visit_iff id context r).2 hr)
  | queued => exact not_reaches_of_run h r

end Walk

end Juxta
