import Mathlib.Data.List.Basic
import Juxta.Walk.Queue

/-!
# What awaits what

At any time the outputs that a machine still needs form a tree: the root, and every vacant position
of a gathering, is worked at by exactly one task or by exactly one gathering that is not complete.

* `Target` : the root or a position of a gathering; `Awaiter.target` is where an awaiter leads;
* `Machine.holders`, `Machine.isOpen` : how many work at a target, and whether it is vacant;
* `Machine.Sound` : exactly the open targets are worked at, each once;
* `Machine.Sound.replace`, `Sound.deliver`, `Sound.spread` : each kind of step keeps this;
* `Machine.Sound.tasks_ne_nil`, `Sound.alone` : tasks never run out before the end, and at the end
  nothing is left over.
-/

namespace Juxta

/-- Where outputs are awaited. -/
inductive Target where
  | root
  | slot (gather position : Nat)
deriving DecidableEq

/-- Where an awaiter leads. -/
def Awaiter.target : Awaiter → Target
  | .root => .root
  | .after _ awaiter => awaiter.target
  | .slot gather position => .slot gather position

namespace Task

variable {Context Output Frame : Type}

def awaiter : Task Context Output Frame → Awaiter
  | .visit _ _ awaiter => awaiter
  | .resume awaiter _ _ => awaiter
  | .perform _ awaiter => awaiter

/-- Where the output of a task goes in the end. -/
def target (task : Task Context Output Frame) : Target := task.awaiter.target

end Task

namespace Gathering

variable {Output Frame : Type}

/-- Whether a gathering works at a target: it is not complete, and its output goes there. -/
def worksAt (t : Target) (G : Gathering Output Frame) : Bool :=
  decide (G.gather.missing ≠ 0) && decide (G.awaiter.target = t)

end Gathering

namespace Machine

variable {Context Output Frame : Type}

/-- The tasks in order. -/
def tasks (m : Machine Context Output Frame) : List (Task Context Output Frame) := m.agenda.toList

/-- The gathering with a number. -/
abbrev gathering? (m : Machine Context Output Frame) (number : Nat) :
    Option (Gathering Output Frame) := m.gatherings[number]?

/-- How many tasks and gatherings work at a target. -/
def holders (m : Machine Context Output Frame) (t : Target) : Nat :=
  m.tasks.countP (fun task => decide (task.target = t)) +
    m.gatherings.toList.countP (Gathering.worksAt t)

/-- Whether a target is vacant: the root always is, as the run ends with its output. -/
def isOpen (m : Machine Context Output Frame) : Target → Bool
  | .root => true
  | .slot number position => match m.gathering? number with
    | some G => match G.gather.slots[position]? with
      | some none => true
      | _ => false
    | none => false

/-- Exactly the open targets are worked at, each by one task or gathering. -/
structure Sound (m : Machine Context Output Frame) : Prop where
  held : ∀ t, m.holders t = (m.isOpen t).toNat
  missing : ∀ number G, m.gathering? number = some G →
    G.gather.missing = G.gather.slots.toList.countP Option.isNone
  /-- Outputs of a gathering go to one that began before it. -/
  earlier : ∀ number G, m.gathering? number = some G →
    ∀ gather position, G.awaiter.target = .slot gather position → gather < number

/-! ## Open targets -/

theorem isOpen_slot_iff (m : Machine Context Output Frame) (number position : Nat) :
    m.isOpen (.slot number position) = true ↔
      ∃ G, m.gathering? number = some G ∧ G.gather.slots[position]? = some none := by
  simp only [isOpen]
  constructor
  · intro h
    split at h
    · rename_i G hG
      split at h
      · rename_i hp
        exact ⟨G, hG, hp⟩
      · cases h
    · cases h
  · rintro ⟨G, hG, hp⟩
    simp only [hG, hp]

/-- A task works at an open target. -/
theorem Sound.isOpen_of_mem {m : Machine Context Output Frame} (h : m.Sound)
    {task : Task Context Output Frame} (hm : task ∈ m.tasks) : m.isOpen task.target = true := by
  have hpos : 0 < m.holders task.target :=
    Nat.add_pos_left (List.countP_pos_iff.2 ⟨task, hm, decide_eq_true rfl⟩) _
  rw [h.held] at hpos
  exact Bool.toNat_eq_one.1 (Nat.le_antisymm (Bool.toNat_le _) hpos)

/-- An incomplete gathering works at an open target. -/
theorem Sound.isOpen_of_missing {m : Machine Context Output Frame} (h : m.Sound) {number : Nat}
    {G : Gathering Output Frame} (hG : m.gathering? number = some G)
    (hm : G.gather.missing ≠ 0) : m.isOpen G.awaiter.target = true := by
  have hw : Gathering.worksAt G.awaiter.target G = true := by simp [Gathering.worksAt, hm]
  have hmem : G ∈ m.gatherings.toList := by
    rw [Array.mem_toList_iff]
    exact Array.mem_of_getElem? hG
  have hpos : 0 < m.holders G.awaiter.target :=
    Nat.add_pos_right _ (List.countP_pos_iff.2 ⟨G, hmem, hw⟩)
  rw [h.held] at hpos
  exact Bool.toNat_eq_one.1 (Nat.le_antisymm (Bool.toNat_le _) hpos)

/-- A gathering is incomplete exactly if one of its positions is vacant. -/
theorem Sound.missing_ne_zero_iff {m : Machine Context Output Frame} (h : m.Sound) {number : Nat}
    {G : Gathering Output Frame} (hG : m.gathering? number = some G) :
    G.gather.missing ≠ 0 ↔ ∃ position, m.isOpen (.slot number position) = true := by
  rw [h.missing number G hG, ← Nat.pos_iff_ne_zero, List.countP_pos_iff]
  constructor
  · rintro ⟨slot, hmem, hnone⟩
    obtain ⟨position, hp⟩ := List.getElem?_of_mem hmem
    refine ⟨position, (m.isOpen_slot_iff number position).2 ⟨G, hG, ?_⟩⟩
    rw [Option.isNone_iff_eq_none] at hnone
    rw [← Array.getElem?_toList, hp, hnone]
  · rintro ⟨position, hp⟩
    obtain ⟨G', hG', hnone⟩ := (m.isOpen_slot_iff number position).1 hp
    rw [hG] at hG'
    cases hG'
    rw [← Array.getElem?_toList] at hnone
    exact ⟨none, List.mem_of_getElem? hnone, rfl⟩

/-- What works at an open target: a task, or an incomplete gathering. -/
theorem Sound.exists_holder {m : Machine Context Output Frame} (h : m.Sound) {t : Target}
    (ht : m.isOpen t = true) :
    (∃ task ∈ m.tasks, task.target = t) ∨ ∃ number G, m.gathering? number = some G ∧
      G.gather.missing ≠ 0 ∧ G.awaiter.target = t := by
  have hone : m.holders t = 1 := by rw [h.held, ht]; rfl
  unfold holders at hone
  rcases Nat.eq_zero_or_pos (m.tasks.countP fun task => decide (task.target = t)) with hz | hp
  · have hg : 0 < m.gatherings.toList.countP (Gathering.worksAt t) := by omega
    obtain ⟨G, hmem, hw⟩ := List.countP_pos_iff.1 hg
    obtain ⟨number, hG⟩ := List.getElem?_of_mem hmem
    simp only [Gathering.worksAt, Bool.and_eq_true, decide_eq_true_eq] at hw
    exact Or.inr ⟨number, G, by rw [gathering?, ← Array.getElem?_toList, hG], hw.1, hw.2⟩
  · obtain ⟨task, hmem, ht⟩ := List.countP_pos_iff.1 hp
    exact Or.inl ⟨task, hmem, of_decide_eq_true ht⟩

/-! ## The end of a run -/

/-- Tasks never run out before the output of the root is there: a gathering only waits for later
ones, so that the last one would wait for nothing. -/
theorem Sound.tasks_ne_nil {m : Machine Context Output Frame} (h : m.Sound) : m.tasks ≠ [] := by
  intro hnil
  have holder : ∀ t, m.isOpen t = true → ∃ number G, m.gathering? number = some G ∧
      G.gather.missing ≠ 0 ∧ G.awaiter.target = t := by
    intro t ht
    rcases h.exists_holder ht with ⟨task, hmem, -⟩ | hg
    · rw [hnil] at hmem
      cases hmem
    · exact hg
  have none_open : ∀ room number position, m.gatherings.size ≤ number + room →
      m.isOpen (.slot number position) = false := by
    intro room
    induction room with
    | zero =>
      intro number position hle
      simp [isOpen, Array.getElem?_eq_none (by omega : m.gatherings.size ≤ number)]
    | succ room ih =>
      intro number position hle
      by_contra ho
      obtain ⟨later, G, hG, hm, ht⟩ := holder _ (by simpa using ho)
      have hlt := h.earlier later G hG number position ht
      obtain ⟨p, hp⟩ := (h.missing_ne_zero_iff hG).1 hm
      rw [ih later p (by omega)] at hp
      cases hp
  obtain ⟨number, G, hG, hm, -⟩ := holder .root rfl
  obtain ⟨p, hp⟩ := (h.missing_ne_zero_iff hG).1 hm
  rw [none_open m.gatherings.size number p (by omega)] at hp
  cases hp

/-- A task for the root is the only one, and all gatherings are complete: an incomplete gathering
works for an earlier one, and the first of them for the root. -/
theorem Sound.alone {m : Machine Context Output Frame} (h : m.Sound)
    {task : Task Context Output Frame} {rest : List (Task Context Output Frame)}
    (ht : m.tasks = task :: rest) (hr : task.target = .root) :
    rest = [] ∧ ∀ number G, m.gathering? number = some G → G.gather.missing = 0 := by
  have hone : m.holders .root = 1 := h.held .root
  simp only [holders, ht, List.countP_cons, hr, decide_true, if_true] at hone
  have complete : ∀ bound number G, number < bound → m.gathering? number = some G →
      G.gather.missing = 0 := by
    intro bound
    induction bound with
    | zero => intro number G hlt; omega
    | succ bound ih =>
      intro number G hlt hG
      by_contra hm
      have ho := h.isOpen_of_missing hG hm
      cases hw : G.awaiter.target with
      | root =>
        have hpos : 0 < m.gatherings.toList.countP (Gathering.worksAt .root) := by
          refine List.countP_pos_iff.2 ⟨G, ?_, by simp [Gathering.worksAt, hm, hw]⟩
          rw [Array.mem_toList_iff]
          exact Array.mem_of_getElem? hG
        omega
      | slot gather position =>
        rw [hw] at ho
        obtain ⟨G', hG', -⟩ := (m.isOpen_slot_iff gather position).1 ho
        have hlt' := h.earlier number G hG gather position hw
        exact (h.missing_ne_zero_iff hG').2 ⟨position, ho⟩ (ih gather G' (by omega) hG')
  have all : ∀ number G, m.gathering? number = some G → G.gather.missing = 0 :=
    fun number G hG => complete (number + 1) number G (Nat.lt_succ_self _) hG
  refine ⟨?_, all⟩
  cases rest with
  | nil => rfl
  | cons other others =>
    exfalso
    have ho := h.isOpen_of_mem (show other ∈ m.tasks by simp [ht])
    cases hw : other.target with
    | root =>
      simp only [List.countP_cons, hw, decide_true, if_true] at hone
      omega
    | slot gather position =>
      rw [hw] at ho
      obtain ⟨G, hG, -⟩ := (m.isOpen_slot_iff gather position).1 ho
      exact (h.missing_ne_zero_iff hG).2 ⟨position, ho⟩ (all gather G hG)

/-! ## Steps -/

theorem isOpen_congr {m m' : Machine Context Output Frame} (h : m'.gatherings = m.gatherings)
    (t : Target) : m'.isOpen t = m.isOpen t := by
  cases t with
  | root => rfl
  | slot number position => simp only [isOpen, gathering?, h]

/-- A task may be replaced by another one for the same target. -/
theorem Sound.replace {m m' : Machine Context Output Frame} (h : m.Sound)
    {task task' : Task Context Output Frame} {rest : List (Task Context Output Frame)}
    (ht : m.tasks = task :: rest) (ht' : m'.tasks.Perm (task' :: rest))
    (hg : m'.gatherings = m.gatherings) (he : task'.target = task.target) : m'.Sound where
  held t := by
    rw [isOpen_congr hg, ← h.held t]
    unfold holders
    rw [ht'.countP_eq, ht, hg, List.countP_cons, List.countP_cons, he]
  missing number G hG := h.missing number G (by rwa [gathering?, ← hg])
  earlier number G hG := h.earlier number G (by rwa [gathering?, ← hg])

theorem ite_eq_toNat (b : Bool) : (if b = true then 1 else 0) = b.toNat := by cases b <;> rfl

section Deliver

variable {m : Machine Context Output Frame} {number position : Nat}
  {G : Gathering Output Frame} {found : List Diagnostic} {output : Output}

/-- A gathering that has got an output. -/
def delivered (G : Gathering Output Frame) (position : Nat) (found : List Diagnostic)
    (output : Output) : Gathering Output Frame :=
  { G with gather := G.gather.deliver position found output }

theorem getElem?_slots_delivered (hs : G.gather.slots[position]? = some none) (i : Nat) :
    (delivered G position found output).gather.slots[i]? =
      if i = position then some (some (found, output)) else G.gather.slots[i]? := by
  have hlt := (Array.getElem?_eq_some_iff.1 hs).1
  simp only [delivered, Gather.deliver, Array.getElem?_setIfInBounds]
  by_cases hi : i = position
  · subst hi
    simp [hlt]
  · simp [hi, Ne.symm hi]

theorem gathering?_delivered {m m' : Machine Context Output Frame}
    (hG : m.gathering? number = some G)
    (hg : m'.gatherings = m.gatherings.setIfInBounds number (delivered G position found output))
    (j : Nat) : m'.gathering? j =
      if j = number then some (delivered G position found output) else m.gathering? j := by
  have hlt := (Array.getElem?_eq_some_iff.1 hG).1
  rw [gathering?, hg, Array.getElem?_setIfInBounds]
  by_cases hj : j = number
  · subst hj
    simp [hlt]
  · simp [hj, Ne.symm hj]

theorem missing_delivered (h : m.Sound) (hG : m.gathering? number = some G)
    (hs : G.gather.slots[position]? = some none) :
    (delivered G position found output).gather.missing =
      (delivered G position found output).gather.slots.toList.countP Option.isNone := by
  have hlt := (Array.getElem?_eq_some_iff.1 hs).1
  have hb : position < G.gather.slots.toList.length := by simpa using hlt
  have hnone : G.gather.slots.toList[position] = none := by
    have := (Array.getElem?_eq_some_iff.1 hs).2
    simpa using this
  simp only [delivered, Gather.deliver, Array.toList_setIfInBounds]
  rw [h.missing number G hG, List.countP_set hb, hnone]
  simp

theorem isOpen_delivered {m' : Machine Context Output Frame} (hG : m.gathering? number = some G)
    (hs : G.gather.slots[position]? = some none)
    (hg : m'.gatherings = m.gatherings.setIfInBounds number (delivered G position found output))
    (t : Target) :
    m'.isOpen t = if t = .slot number position then false else m.isOpen t := by
  have hlt := (Array.getElem?_eq_some_iff.1 hG).1
  cases t with
  | root => rfl
  | slot j i =>
    simp only [isOpen, gathering?, hg, Array.getElem?_setIfInBounds]
    by_cases hj : number = j
    · subst hj
      simp only [if_true, hlt, getElem?_slots_delivered hs, Target.slot.injEq, true_and]
      by_cases hi : i = position
      · simp [hi]
      · have hG' : m.gatherings[number]? = some G := hG
        simp [hi, hG']
    · have hne : ¬ (j = number ∧ i = position) := fun hc => hj hc.1.symm
      simp [hj, hne]

/-- A task hands its output to a gathering. If that was the last one, a task goes on in its
place. -/
theorem Sound.deliver {m' : Machine Context Output Frame} (h : m.Sound)
    {task : Task Context Output Frame} {rest : List (Task Context Output Frame)}
    (ht : m.tasks = task :: rest) (htarget : task.target = .slot number position)
    (hG : m.gathering? number = some G) (hs : G.gather.slots[position]? = some none)
    (hg : m'.gatherings = m.gatherings.setIfInBounds number (delivered G position found output))
    (hcount : ∀ t, m'.tasks.countP (fun task => decide (task.target = t)) +
        (Gathering.worksAt t (delivered G position found output)).toNat =
      rest.countP (fun task => decide (task.target = t)) +
        (decide (G.awaiter.target = t)).toNat) : m'.Sound where
  held t := by
    have hlt := (Array.getElem?_eq_some_iff.1 hG).1
    have hb : number < m.gatherings.toList.length := by simpa using hlt
    have hget : m.gatherings.toList[number] = G := by
      have := (Array.getElem?_eq_some_iff.1 hG).2
      simpa using this
    have hlive : G.gather.missing ≠ 0 :=
      (h.missing_ne_zero_iff hG).2 ⟨position, (m.isOpen_slot_iff _ _).2 ⟨G, hG, hs⟩⟩
    have hw : Gathering.worksAt t G = decide (G.awaiter.target = t) := by
      simp [Gathering.worksAt, hlive]
    have hpos : (decide (G.awaiter.target = t)).toNat ≤
        m.gatherings.toList.countP (Gathering.worksAt t) := by
      by_cases hc : G.awaiter.target = t
      · have hmem : G ∈ m.gatherings.toList := by rw [← hget]; exact List.getElem_mem _
        have hwt : Gathering.worksAt t G = true := by rw [hw, decide_eq_true hc]
        have := List.countP_pos_iff.2 ⟨G, hmem, hwt⟩
        simpa [hc] using this
      · simp [hc]
    have hold := h.held t
    have hnew := hcount t
    rw [isOpen_delivered hG hs hg t]
    unfold holders at hold ⊢
    rw [ht, List.countP_cons, htarget, ite_eq_toNat] at hold
    rw [hg, Array.toList_setIfInBounds, List.countP_set hb, hget, hw,
      ite_eq_toNat, ite_eq_toNat]
    by_cases hc : t = .slot number position
    · have ho : m.isOpen t = true := by
        rw [hc]
        exact (m.isOpen_slot_iff number position).2 ⟨G, hG, hs⟩
      rw [ho, decide_eq_true hc.symm] at hold
      rw [if_pos hc]
      simp only [Bool.toNat_true, Bool.toNat_false] at hold ⊢
      omega
    · rw [decide_eq_false fun e => hc e.symm] at hold
      rw [if_neg hc, ← hold]
      simp only [Bool.toNat_false]
      omega
  missing j G' hG' := by
    rw [gathering?, hg, Array.getElem?_setIfInBounds] at hG'
    split at hG'
    · split at hG'
      · cases hG'
        exact missing_delivered h hG hs
      · cases hG'
    · exact h.missing j G' hG'
  earlier j G' hG' := by
    rw [gathering?, hg, Array.getElem?_setIfInBounds] at hG'
    split at hG'
    · split at hG'
      · rename_i hj _
        cases hG'
        subst hj
        exact h.earlier number G hG
      · cases hG'
    · exact h.earlier j G' hG'

end Deliver

section Spread

/-- The visits for the positions of a gathering from one position on. -/
def visitsFrom (number : Nat) (context : Context) (position : Nat) :
    List NodeId → List (Task Context Output Frame)
  | [] => []
  | id :: rest =>
    .visit id context (.slot number position) :: visitsFrom number context (position + 1) rest

theorem toList_visits (number : Nat) (context : Context) (position : Nat) (ids : List NodeId)
    (agenda : Agenda (Task Context Output Frame)) :
    (visits number context position ids agenda).toList =
      agenda.toList ++ visitsFrom number context position ids := by
  induction ids generalizing position agenda with
  | nil => simp [visits, visitsFrom]
  | cons id rest ih => rw [visits, ih, Agenda.toList_pushBack, visitsFrom, List.append_assoc]; rfl

theorem mem_visitsFrom {number : Nat} {context : Context} {position : Nat} {ids : List NodeId}
    {task : Task Context Output Frame} (h : task ∈ visitsFrom number context position ids) :
    ∃ id ∈ ids, ∃ i, task = .visit id context (.slot number i) := by
  induction ids generalizing position with
  | nil => cases h
  | cons id rest ih =>
    rw [visitsFrom, List.mem_cons] at h
    rcases h with rfl | h
    · exact ⟨id, List.mem_cons_self .., position, rfl⟩
    · obtain ⟨other, hm, i, he⟩ := ih h
      exact ⟨other, List.mem_cons_of_mem _ hm, i, he⟩

theorem countP_visitsFrom_slot (number : Nat) (context : Context) (position : Nat)
    (ids : List NodeId) (i : Nat) :
    (visitsFrom number context position ids : List (Task Context Output Frame)).countP
        (fun task => decide (task.target = .slot number i)) =
      (decide (position ≤ i ∧ i < position + ids.length)).toNat := by
  induction ids generalizing position with
  | nil =>
    have hn : ¬ (position ≤ i ∧ i < position + ([] : List NodeId).length) := by
      rw [List.length_nil]
      omega
    rw [visitsFrom, decide_eq_false hn]
    rfl
  | cons id rest ih =>
    rw [visitsFrom, List.countP_cons, ih, ite_eq_toNat, List.length_cons]
    simp only [Task.target, Task.awaiter, Awaiter.target, Target.slot.injEq, true_and]
    by_cases hi : position = i
    · subst hi
      have hn : ¬ (position + 1 ≤ position ∧ position < position + 1 + rest.length) := by omega
      have hy : position ≤ position ∧ position < position + (rest.length + 1) := by omega
      rw [decide_eq_false hn, decide_eq_true hy, decide_eq_true rfl]
      rfl
    · have he : (position + 1 ≤ i ∧ i < position + 1 + rest.length) ↔
          (position ≤ i ∧ i < position + (rest.length + 1)) := by omega
      rw [decide_eq_decide.2 he, decide_eq_false hi]
      rfl

theorem countP_visitsFrom_of_ne {number : Nat} {t : Target} (ht : ∀ i, t ≠ .slot number i)
    (context : Context) (position : Nat) (ids : List NodeId) :
    (visitsFrom number context position ids : List (Task Context Output Frame)).countP
        (fun task => decide (task.target = t)) = 0 := by
  induction ids generalizing position with
  | nil => rfl
  | cons id rest ih =>
    rw [visitsFrom, List.countP_cons, ih, if_neg]
    simp only [Task.target, Task.awaiter, Awaiter.target, decide_eq_true_eq]
    exact fun e => ht position e.symm

/-- The gathering that waits for the outputs of some nodes. -/
def awaiting (count : Nat) (frame : Frame) (awaiter : Awaiter) : Gathering Output Frame :=
  ⟨.start count, frame, awaiter⟩

theorem getElem?_push_gathering {m m' : Machine Context Output Frame} {G : Gathering Output Frame}
    (hg : m'.gatherings = m.gatherings.push G) (number : Nat) :
    m'.gathering? number = if number = m.gatherings.size then some G else m.gathering? number := by
  rw [gathering?, hg, Array.getElem?_push]

theorem isOpen_spread {m m' : Machine Context Output Frame} {count : Nat} {frame : Frame}
    {awaiter : Awaiter} (hg : m'.gatherings = m.gatherings.push (awaiting count frame awaiter))
    (t : Target) :
    m'.isOpen t = match t with
      | .root => true
      | .slot number i =>
        if number = m.gatherings.size then decide (i < count) else m.isOpen (.slot number i) := by
  cases t with
  | root => rfl
  | slot number i =>
    simp only [isOpen, getElem?_push_gathering hg]
    by_cases hn : number = m.gatherings.size
    · simp only [hn, if_true, awaiting, Gather.start, Array.getElem?_replicate]
      by_cases hi : i < count <;> simp [hi]
    · simp [hn]

/-- A task makes way for the visits of some nodes and a gathering of their outputs. -/
theorem Sound.spread {m m' : Machine Context Output Frame} (h : m.Sound)
    {task : Task Context Output Frame} {rest : List (Task Context Output Frame)}
    (ht : m.tasks = task :: rest) {ids : List NodeId} (hne : ids ≠ []) {context : Context}
    {frame : Frame}
    (htasks : m'.tasks = rest ++ visitsFrom m.gatherings.size context 0 ids)
    (hg : m'.gatherings = m.gatherings.push (awaiting ids.length frame task.awaiter)) :
    m'.Sound where
  held t := by
    have hcount : ids.length ≠ 0 := fun e => hne (List.length_eq_zero_iff.1 e)
    have hw : Gathering.worksAt t
        (awaiting ids.length frame task.awaiter : Gathering Output Frame) =
          decide (task.target = t) := by
      simp only [Gathering.worksAt, awaiting, Gather.start, ne_eq, hcount, not_false_eq_true,
        decide_true, Bool.true_and]
      rfl
    have hold := h.held t
    unfold holders at hold ⊢
    rw [ht, List.countP_cons, ite_eq_toNat] at hold
    rw [htasks, hg, List.countP_append, Array.toList_push, List.countP_append,
      List.countP_singleton, hw, ite_eq_toNat, isOpen_spread hg]
    cases t with
    | root =>
      rw [countP_visitsFrom_of_ne (fun i => Target.noConfusion)]
      have hone : m.isOpen .root = true := rfl
      rw [hone] at hold
      simp only at hold ⊢
      omega
    | slot number i =>
      by_cases hn : number = m.gatherings.size
      · subst hn
        have hc : m.isOpen (.slot m.gatherings.size i) = false := by
          simp [isOpen, gathering?]
        rw [hc] at hold
        rw [countP_visitsFrom_slot]
        simp only [Bool.toNat_false, Nat.zero_le, true_and, Nat.zero_add, if_true] at hold ⊢
        omega
      · rw [countP_visitsFrom_of_ne (fun j e => hn (Target.slot.inj e).1)]
        simp only [hn, if_false]
        omega
  missing number G hG := by
    rw [getElem?_push_gathering hg] at hG
    split at hG
    · cases hG
      simp [awaiting, Gather.start, List.countP_replicate]
    · exact h.missing number G hG
  earlier number G hG := by
    rw [getElem?_push_gathering hg] at hG
    split at hG
    · rename_i hn
      cases hG
      intro gather position hw
      have ho := h.isOpen_of_mem (show task ∈ m.tasks by simp [ht])
      rw [show task.target = .slot gather position from hw] at ho
      obtain ⟨G, hG, -⟩ := (m.isOpen_slot_iff gather position).1 ho
      have := (Array.getElem?_eq_some_iff.1 hG).1
      omega
    · exact h.earlier number G hG

end Spread

/-- The machine that visits a node begins with one task, for the root. -/
theorem sound_start (id : NodeId) (context : Context) :
    (start id context : Machine Context Output Frame).Sound where
  held t := by
    cases t <;> simp [holders, tasks, start, Agenda.empty, Agenda.toList, Agenda.pushBack, isOpen,
      gathering?, Task.target, Task.awaiter, Awaiter.target]
  missing number G hG := by simp [gathering?, start] at hG
  earlier number G hG := by simp [gathering?, start] at hG

end Machine

end Juxta
