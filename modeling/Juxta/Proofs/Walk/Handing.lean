import Juxta.Proofs.Walk.Steps

/-!
# Outputs on their way to awaiters

A machine hands an awaiter to each visit. It is given an output when a task that resumes it is done.
As only one task or gathering works at the target of an awaiter, an output that is on its way stays
so until it is given, and afterwards no other one comes.

* `Awaiter.Passes` : an output for one awaiter is given to another one on its way;
* `Task.calls` : a task gives an output to an awaiter;
* `Machine.Due`, `Machine.Spent` : an output for an awaiter is on its way, or has been given;
* `Machine.Step.due`, `Machine.Step.spent_of_calls`, `Machine.Step.spent` : what one step does.
-/

namespace Juxta

variable {Context Output Frame : Type}

deriving instance DecidableEq for Awaiter

/-- There is an output. -/
def Outcome.Finished {α : Type} : Outcome α → Prop
  | .finished .. => True
  | .aborted _ => False
  | .unfinished => False

/-! ## Awaiters -/

/-- An output for the second awaiter is given to the first one on its way. -/
inductive Awaiter.Passes (a : Awaiter) : Awaiter → Prop where
  | self : Passes a a
  | after {before : List Diagnostic} {b : Awaiter} : Passes a b → Passes a (.after before b)

namespace Awaiter

variable {a b : Awaiter}

theorem Passes.size_le (h : a.Passes b) : sizeOf a ≤ sizeOf b := by
  induction h with
  | self => exact Nat.le_refl _
  | @after before b _ ih =>
    rw [Awaiter.after.sizeOf_spec]
    omega

/-- What has passed an awaiter does not pass it again. -/
theorem not_passes_after (before : List Diagnostic) (b : Awaiter) :
    ¬ (Awaiter.after before b).Passes b := by
  intro h
  have hle := h.size_le
  rw [Awaiter.after.sizeOf_spec] at hle
  omega

theorem passes_after_iff {before : List Diagnostic} :
    a.Passes (.after before b) ↔ a = .after before b ∨ a.Passes b := by
  constructor
  · intro h
    cases h with
    | self => exact .inl rfl
    | after h => exact .inr h
  · rintro (rfl | h)
    · exact .self
    · exact .after h

end Awaiter

/-- A task gives an output to an awaiter. -/
def Task.calls (a : Awaiter) : Task Context Output Frame → Bool
  | .resume b _ _ => decide (b = a)
  | _ => false

theorem Task.calls_iff {task : Task Context Output Frame} {a : Awaiter} :
    task.calls a = true ↔ ∃ found output, task = .resume a found output := by
  cases task with
  | resume b found output =>
    rw [calls, decide_eq_true_iff]
    constructor
    · rintro rfl
      exact ⟨found, output, rfl⟩
    · rintro ⟨_, _, he⟩
      cases he
      rfl
  | visit id context awaiter => exact ⟨nofun, nofun⟩
  | perform action awaiter => exact ⟨nofun, nofun⟩

/-- A task takes an output to where an awaiter leads, past that awaiter. -/
inductive Task.Past (a : Awaiter) : Task Context Output Frame → Prop where
  | resume {b : Awaiter} {found : List Diagnostic} {output : Output} :
      ¬ a.Passes b → Past a (.resume b found output)

theorem Task.Past.calls_eq_false {task : Task Context Output Frame} {a : Awaiter}
    (h : task.Past a) : task.calls a = false := by
  cases h with
  | resume hp =>
    refine decide_eq_false ?_
    rintro rfl
    exact hp .self

/-- An output on its way to an awaiter is so after a task has been replaced, unless that was the task
to give it. -/
theorem Task.Follows.passes {w : Walk Context Output Frame} {steps : Nat}
    {task task' : Task Context Output Frame} {a : Awaiter} (hf : task.Follows w steps task')
    (hcalls : task.calls a = false) (h : a.Passes task.awaiter) : a.Passes task'.awaiter := by
  cases hf with
  | pass =>
    rcases Awaiter.passes_after_iff.1 h with rfl | h
    · exact absurd rfl (of_decide_eq_false hcalls)
    · exact h
  | after => exact .after h
  | _ => exact h

/-- A task that takes an output past an awaiter is replaced by one that does. -/
theorem Task.Follows.past {w : Walk Context Output Frame} {steps : Nat}
    {task task' : Task Context Output Frame} {a : Awaiter} (hf : task.Follows w steps task')
    (h : task.Past a) : task'.Past a := by
  cases h with
  | resume hp =>
    cases hf with
    | pass => exact .resume fun hp' => hp (.after hp')

namespace Machine

/-! ## Outputs on their way -/

/-- A task or an incomplete gathering works for an awaiter. -/
def Serves (m : Machine Context Output Frame) (b : Awaiter) : Prop :=
  (∃ task ∈ m.tasks, task.awaiter = b) ∨
    ∃ number G, m.gathering? number = some G ∧ G.gather.missing ≠ 0 ∧ G.awaiter = b

/-- An output for an awaiter is on its way. -/
def Due (m : Machine Context Output Frame) (a : Awaiter) : Prop :=
  ∃ b, m.Serves b ∧ a.Passes b

/-- The output for an awaiter has passed it. -/
structure Spent (m : Machine Context Output Frame) (a : Awaiter) : Prop where
  tasks : ∀ task ∈ m.tasks, task.target = a.target → task.Past a
  gatherings : ∀ number G, m.gathering? number = some G → G.gather.missing ≠ 0 →
    G.awaiter.target ≠ a.target
  known : ∀ gather position, a.target = .slot gather position → gather < m.gatherings.size

section Steps

variable {w : Walk Context Output Frame} {steps : Nat} {m m' : Machine Context Output Frame}
  {task : Task Context Output Frame} {rest : List (Task Context Output Frame)} {a : Awaiter}

theorem mem_of_tasks_eq (ht : m.tasks = task :: rest) : task ∈ m.tasks := by
  rw [ht]
  exact List.mem_cons_self ..

theorem mem_of_mem_rest (ht : m.tasks = task :: rest) {other : Task Context Output Frame}
    (hm : other ∈ rest) : other ∈ m.tasks := by
  rw [ht]
  exact List.mem_cons_of_mem _ hm

/-- Nothing else works at the target of a task. -/
theorem Sound.only (h : m.Sound) (ht : m.tasks = task :: rest) :
    (∀ other ∈ rest, other.target ≠ task.target) ∧
      ∀ number G, m.gathering? number = some G → G.gather.missing ≠ 0 →
        G.awaiter.target ≠ task.target := by
  have hheld := h.held task.target
  have hle := Bool.toNat_le (m.isOpen task.target)
  unfold holders at hheld
  rw [ht, List.countP_cons, decide_eq_true rfl, if_pos rfl] at hheld
  constructor
  · intro other hm he
    have hpos : 0 < rest.countP fun task' => decide (task'.target = task.target) :=
      List.countP_pos_iff.2 ⟨other, hm, decide_eq_true he⟩
    omega
  · intro number G hG hmissing he
    have hworks : Gathering.worksAt task.target G = true := by
      simp [Gathering.worksAt, hmissing, he]
    have hmem : G ∈ m.gatherings.toList := by
      rw [Array.mem_toList_iff]
      exact Array.mem_of_getElem? hG
    have hpos := List.countP_pos_iff.2 ⟨G, hmem, hworks⟩
    omega

theorem Sound.known (h : m.Sound) (hm : task ∈ m.tasks) (gather position : Nat)
    (he : task.target = .slot gather position) : gather < m.gatherings.size := by
  have hopen := h.isOpen_of_mem hm
  rw [he] at hopen
  obtain ⟨G, hG, -⟩ := (m.isOpen_slot_iff gather position).1 hopen
  exact (Array.getElem?_eq_some_iff.1 hG).1

/-- An awaiter of a position that is taken has got its output. -/
theorem Sound.spent_of_closed (h : m.Sound) (hclosed : m.isOpen a.target = false)
    (hknown : ∀ gather position, a.target = .slot gather position → gather < m.gatherings.size) :
    m.Spent a where
  tasks task hm he := by
    have hopen := h.isOpen_of_mem hm
    rw [he, hclosed] at hopen
    cases hopen
  gatherings number G hG hmissing he := by
    have hopen := h.isOpen_of_missing hG hmissing
    rw [he, hclosed] at hopen
    cases hopen
  known := hknown

/-- No task gives an output to an awaiter that has got one. -/
theorem Spent.calls_eq_false (h : m.Spent a) (hm : task ∈ m.tasks) : task.calls a = false := by
  refine Bool.eq_false_iff.2 fun hcalls => ?_
  obtain ⟨found, output, rfl⟩ := Task.calls_iff.1 hcalls
  have hnot := (h.tasks _ hm rfl).calls_eq_false
  rw [hcalls] at hnot
  cases hnot

/-- An awaiter that has got an output is not handed to a visit. -/
theorem Spent.ne_visit (h : m.Spent a) (hm : task ∈ m.tasks) (id : NodeId) (context : Context) :
    task ≠ .visit id context a := by
  rintro rfl
  cases h.tasks _ hm rfl

/-! ## One step -/

theorem Step.size_le (hs : Step w steps m (.running m')) :
    m.gatherings.size ≤ m'.gatherings.size := by
  cases hs with
  | replace _ _ _ hg => exact Nat.le_of_eq (congrArg Array.size hg.symm)
  | deliver _ _ _ _ _ hg => exact Nat.le_of_eq (by rw [hg, Array.size_setIfInBounds])
  | complete _ _ _ _ _ _ hg => exact Nat.le_of_eq (by rw [hg, Array.size_setIfInBounds])
  | spread _ _ _ hg =>
    rw [hg, Array.size_push]
    exact Nat.le_succ _

/-- The other tasks remain. -/
theorem Step.mem_tasks (hs : Step w steps m (.running m')) (ht : m.tasks = task :: rest)
    {other : Task Context Output Frame} (hm : other ∈ rest) : other ∈ m'.tasks := by
  cases hs with
  | replace ht₀ _ ht' _ =>
    cases ht.symm.trans ht₀
    exact ht'.mem_iff.2 (List.mem_cons_of_mem _ hm)
  | deliver ht₀ _ _ _ ht' _ =>
    cases ht.symm.trans ht₀
    rwa [ht']
  | complete ht₀ _ _ _ _ ht' _ =>
    cases ht.symm.trans ht₀
    rw [ht']
    exact List.mem_cons_of_mem _ hm
  | spread ht₀ _ ht' _ =>
    cases ht.symm.trans ht₀
    rw [ht']
    exact List.mem_append_left _ hm

/-- An incomplete gathering remains, or a task takes its place. -/
theorem Step.serves_of_missing (hs : Step w steps m (.running m')) {number : Nat}
    {G : Gathering Output Frame} (hG : m.gathering? number = some G)
    (hmissing : G.gather.missing ≠ 0) : m'.Serves G.awaiter := by
  cases hs with
  | replace _ _ _ hg => exact .inr ⟨number, G, by rwa [gathering?, hg], hmissing, rfl⟩
  | @deliver number' position found output _ G' _ _ hG' _ hne _ hg =>
    have hlook := gathering?_delivered hG' hg number
    by_cases hn : number = number'
    · subst hn
      cases hG.symm.trans hG'
      exact .inr ⟨number, _, hlook.trans (if_pos rfl), hne, rfl⟩
    · exact .inr ⟨number, G, (hlook.trans (if_neg hn)).trans hG, hmissing, rfl⟩
  | @complete number' position found output _ G' results _ _ hG' _ _ _ ht' hg =>
    have hlook := gathering?_delivered hG' hg number
    by_cases hn : number = number'
    · subst hn
      cases hG.symm.trans hG'
      exact .inl ⟨_, mem_of_tasks_eq ht', rfl⟩
    · exact .inr ⟨number, G, (hlook.trans (if_neg hn)).trans hG, hmissing, rfl⟩
  | spread _ _ _ hg =>
    have hlt := (Array.getElem?_eq_some_iff.1 hG).1
    have hlook := getElem?_push_gathering hg number
    exact .inr ⟨number, G, (hlook.trans (if_neg (Nat.ne_of_lt hlt))).trans hG, hmissing, rfl⟩

/-- When the root gets its output, no other is on its way. -/
theorem Sound.eq_root_of_due (h : m.Sound) {found : List Diagnostic} {output : Output}
    (ht : m.tasks = .resume .root found output :: rest) (hdue : m.Due a) : a = .root := by
  obtain ⟨rfl, hcomplete⟩ := h.alone ht rfl
  obtain ⟨b, ⟨task, hm, rfl⟩ | ⟨number, G, hG, hmissing, -⟩, hp⟩ := hdue
  · rw [ht, List.mem_singleton] at hm
    subst hm
    cases hp
    rfl
  · exact absurd (hcomplete number G hG) hmissing

/-- What works for an awaiter in the place of the first task. -/
theorem Step.due_first (hs : Step w steps m (.running m')) (ht : m.tasks = task :: rest)
    (hcalls : task.calls a = false) (hp : a.Passes task.awaiter) : m'.Due a := by
  cases hs with
  | @replace _ task' _ _ ht₀ hf ht' _ =>
    cases ht.symm.trans ht₀
    exact ⟨task'.awaiter, .inl ⟨task', ht'.mem_iff.2 (List.mem_cons_self ..), rfl⟩,
      hf.passes hcalls hp⟩
  | deliver ht₀ =>
    cases ht.symm.trans ht₀
    cases hp
    exact absurd rfl (of_decide_eq_false hcalls)
  | complete ht₀ =>
    cases ht.symm.trans ht₀
    cases hp
    exact absurd rfl (of_decide_eq_false hcalls)
  | @spread ids context frame awaiter _ _ ht₀ hne _ hg =>
    cases ht.symm.trans ht₀
    have hlook := (getElem?_push_gathering hg m.gatherings.size).trans (if_pos rfl)
    have hlength : ids.length ≠ 0 := fun he => hne (List.length_eq_zero_iff.1 he)
    exact ⟨awaiter, .inr ⟨m.gatherings.size, _, hlook, hlength, rfl⟩, hp⟩

/-- If the first task does not give an awaiter its output, that is still on its way afterwards. -/
theorem Step.due (hs : Step w steps m (.running m')) (ht : m.tasks = task :: rest)
    (hcalls : task.calls a = false) (hdue : m.Due a) : m'.Due a := by
  obtain ⟨b, ⟨other, hm, rfl⟩ | ⟨number, G, hG, hmissing, rfl⟩, hp⟩ := hdue
  · rw [ht, List.mem_cons] at hm
    rcases hm with rfl | hm
    · exact hs.due_first ht hcalls hp
    · exact ⟨other.awaiter, .inl ⟨other, hs.mem_tasks ht hm, rfl⟩, hp⟩
  · exact ⟨G.awaiter, hs.serves_of_missing hG hmissing, hp⟩

/-- After the first task has given an awaiter its output, no other will come. -/
theorem Step.spent_of_calls (hs : Step w steps m (.running m')) (h : m.Sound)
    (ht : m.tasks = task :: rest) (hcalls : task.calls a = true) : m'.Spent a := by
  have hm := mem_of_tasks_eq ht
  obtain ⟨honly, hgatherings⟩ := h.only ht
  have hknown : ∀ gather position, task.target = .slot gather position →
      gather < m'.gatherings.size :=
    fun gather position he => Nat.lt_of_lt_of_le (h.known hm gather position he) hs.size_le
  obtain ⟨found, output, rfl⟩ := Task.calls_iff.1 hcalls
  have hsound := hs.sound h
  cases hs with
  | replace ht₀ hf ht' hg =>
    cases ht.symm.trans ht₀
    cases hf with
    | @pass before b =>
      refine ⟨fun other hm he => ?_, fun number G hG => hgatherings number G ?_, hknown⟩
      · rw [ht'.mem_iff, List.mem_cons] at hm
        rcases hm with rfl | hm
        · exact .resume (Awaiter.not_passes_after before b)
        · exact absurd he (honly other hm)
      · rwa [gathering?, ← hg]
  | deliver ht₀ hG hp _ _ hg =>
    cases ht.symm.trans ht₀
    refine hsound.spent_of_closed ?_ hknown
    rw [isOpen_delivered hG hp hg]
    exact if_pos rfl
  | complete ht₀ hG hp _ _ _ hg =>
    cases ht.symm.trans ht₀
    refine hsound.spent_of_closed ?_ hknown
    rw [isOpen_delivered hG hp hg]
    exact if_pos rfl
  | spread ht₀ =>
    cases ht.symm.trans ht₀

/-- A gathering with a vacant position is not complete. -/
theorem Sound.missing_of_vacant (h : m.Sound) {number position : Nat} {G : Gathering Output Frame}
    (hG : m.gathering? number = some G) (hp : G.gather.slots[position]? = some none) :
    G.gather.missing ≠ 0 :=
  (h.missing_ne_zero_iff hG).2 ⟨position, (m.isOpen_slot_iff number position).2 ⟨G, hG, hp⟩⟩

/-- A gathering to which an output comes does not work for an awaiter that has got its own. -/
theorem Spent.gatherings_delivered {number position : Nat} {G : Gathering Output Frame}
    {found : List Diagnostic} {output : Output} (hsp : m.Spent a) (h : m.Sound)
    (hG : m.gathering? number = some G) (hp : G.gather.slots[position]? = some none)
    (hg : m'.gatherings = m.gatherings.setIfInBounds number (delivered G position found output)) :
    ∀ j G', m'.gathering? j = some G' → G'.gather.missing ≠ 0 → G'.awaiter.target ≠ a.target := by
  intro j G' hG' hmissing
  rw [gathering?_delivered hG hg] at hG'
  split at hG'
  · cases hG'
    exact hsp.gatherings number G hG (h.missing_of_vacant hG hp)
  · exact hsp.gatherings j G' hG' hmissing

/-- What has been given stays given. -/
theorem Step.spent (hs : Step w steps m (.running m')) (h : m.Sound) (hsp : m.Spent a) :
    m'.Spent a := by
  have hknown : ∀ gather position, a.target = .slot gather position →
      gather < m'.gatherings.size :=
    fun gather position he => Nat.lt_of_lt_of_le (hsp.known gather position he) hs.size_le
  cases hs with
  | @replace task task' rest _ ht hf ht' hg =>
    refine ⟨fun other hm he => ?_, fun number G hG => hsp.gatherings number G ?_, hknown⟩
    · rw [ht'.mem_iff, List.mem_cons] at hm
      rcases hm with rfl | hm
      · exact hf.past (hsp.tasks task (mem_of_tasks_eq ht) (hf.target_eq ▸ he))
      · exact hsp.tasks other (mem_of_mem_rest ht hm) he
    · rwa [gathering?, ← hg]
  | deliver ht hG hp hne ht' hg =>
    refine ⟨fun other hm => ?_, hsp.gatherings_delivered h hG hp hg, hknown⟩
    rw [ht'] at hm
    exact hsp.tasks other (mem_of_mem_rest ht hm)
  | @complete number position found output rest G results _ ht hG hp hz hres ht' hg =>
    refine ⟨fun other hm he => ?_, hsp.gatherings_delivered h hG hp hg, hknown⟩
    rw [ht', List.mem_cons] at hm
    rcases hm with rfl | hm
    · exact absurd he (hsp.gatherings number G hG (h.missing_of_vacant hG hp))
    · exact hsp.tasks other (mem_of_mem_rest ht hm) he
  | @spread ids context frame awaiter rest _ ht hne ht' hg =>
    refine ⟨fun other hm he => ?_, fun j G' hG' hmissing he => ?_, hknown⟩
    · rw [ht', List.mem_append] at hm
      rcases hm with hm | hm
      · exact hsp.tasks other (mem_of_mem_rest ht hm) he
      · obtain ⟨id, -, i, rfl⟩ := mem_visitsFrom hm
        exact absurd (hsp.known _ _ he.symm) (Nat.lt_irrefl _)
    · rw [getElem?_push_gathering hg] at hG'
      split at hG'
      · cases hG'
        cases hsp.tasks _ (mem_of_tasks_eq ht) he
      · exact hsp.gatherings j G' hG' hmissing he

/-- A step goes on from an action that is captured only if that has finished. -/
theorem Step.perform_of_capture (hs : Step w steps m (.running m'))
    {action : Action Context Output Frame} {frame : Frame}
    (ht : m.tasks = .perform (.capture action frame) a :: rest) :
    (w.perform steps action).Finished := by
  cases hs with
  | replace ht₀ hf =>
    cases ht.symm.trans ht₀
    cases hf with
    | capture hp =>
      rw [hp]
      exact trivial
  | deliver ht₀ => cases ht.symm.trans ht₀
  | complete ht₀ => cases ht.symm.trans ht₀
  | spread ht₀ => cases ht.symm.trans ht₀

/-- If there is an output in the end, it was that for the root. -/
theorem Step.eq_resume_root {outcome : Outcome Output} (hs : Step w steps m (.ended outcome))
    (ht : m.tasks = task :: rest) (hf : outcome.Finished) :
    ∃ found output, task = .resume .root found output := by
  cases hs with
  | finish hroot =>
    cases ht.symm.trans hroot
    exact ⟨_, _, rfl⟩
  | fail => exact hf.elim
  | stop => exact hf.elim

end Steps

end Machine

end Juxta
