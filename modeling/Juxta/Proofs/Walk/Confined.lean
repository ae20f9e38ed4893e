import Juxta.Proofs.Walk.Steps
import Juxta.Proofs.Walk.Yields

/-!
# Walks that stay within bounds

A walk is confined if it only asks for what some predicates allow, as long as it is only given such
things. Then its outputs and its errors are within the same bounds, by recursion and by a queue.

* `Walk.Bounds` : what is allowed of nodes, contexts, outputs, frames and errors;
* `Action.Within`, `Outcome.Within`, `Machine.Within` : nothing in them is beyond the bounds;
* `Walk.Confined` : what must be shown of a walk;
* `Walk.Confined.visit`, `Walk.Confined.run` : the outcomes of a node.
-/

namespace Juxta

variable {Context Output Frame : Type}

/-- What is allowed in a walk. -/
structure Walk.Bounds (Context Output Frame : Type) where
  node : NodeId → Prop
  context : Context → Prop
  output : Output → Prop
  frame : Frame → Prop
  error : CompileError → Prop

/-- All that an action asks for is allowed. -/
def Action.Within (b : Walk.Bounds Context Output Frame) : Action Context Output Frame → Prop
  | .done _ output => b.output output
  | .abort error => b.error error
  | .endless => True
  | .after _ action => action.Within b
  | .visit id context => b.node id ∧ b.context context
  | .gather ids context frame => (∀ id ∈ ids, b.node id) ∧ b.context context ∧ b.frame frame
  | .capture action frame => action.Within b ∧ b.frame frame

/-- An output or an error that is allowed. -/
def Outcome.Within {α : Type} (output : α → Prop) (error : CompileError → Prop) :
    Outcome α → Prop
  | .finished _ result => output result
  | .aborted cause => error cause
  | .unfinished => True

/-- A walk that asks for nothing beyond some bounds, and whose nodes are there. -/
structure Walk.Confined (w : Walk Context Output Frame) (b : Walk.Bounds Context Output Frame) :
    Prop where
  stored : ∀ id, b.node id → id.isAbsent = false → w.store.node? id ≠ none
  absent : b.output w.absent
  enter : ∀ id node context, w.store.node? id = some node → b.context context →
    (w.enter id node context).Within b
  resume : ∀ frame found outputs, b.frame frame → (∀ output ∈ outputs, b.output output) →
    (w.resume frame found outputs).Within b

/-! ## By recursion -/

namespace Outcome

variable {α β : Type} {output : α → Prop} {error : CompileError → Prop}

theorem Within.prepend {outcome : Outcome α} (h : outcome.Within output error)
    (found : List Diagnostic) : (outcome.prepend found).Within output error := by
  cases outcome <;> exact h

theorem Within.andThen {outcome : Outcome α} {next : List Diagnostic → α → Outcome β}
    {output' : β → Prop} (h : outcome.Within output error)
    (k : ∀ found result, output result → (next found result).Within output' error) :
    (outcome.andThen next).Within output' error := by
  cases outcome with
  | finished found result => exact k found result h
  | aborted cause => exact h
  | unfinished => exact h

theorem Within.gather {visit : NodeId → Outcome α} {ids : List NodeId}
    (h : ∀ id ∈ ids, (visit id).Within output error) :
    (gather visit ids).Within (fun results => ∀ result ∈ results, output result) error := by
  induction ids with
  | nil => exact fun _ hm => nomatch hm
  | cons id rest ih =>
    refine (h id (List.mem_cons_self ..)).andThen fun found result hr => ?_
    refine (ih fun id hm => h id (List.mem_cons_of_mem _ hm)).andThen fun more results hrs => ?_
    exact List.forall_mem_cons.2 ⟨hr, hrs⟩

end Outcome

namespace Walk.Confined

variable {w : Walk Context Output Frame} {b : Walk.Bounds Context Output Frame}

theorem visitBy (h : w.Confined b) {f : Action Context Output Frame → Outcome Output}
    (hf : ∀ action, action.Within b → (f action).Within b.output b.error) {id : NodeId}
    {context : Context} (hid : b.node id) (hc : b.context context) :
    (w.visitBy f id context).Within b.output b.error := by
  unfold Walk.visitBy
  split
  · exact h.absent
  · rename_i ha
    split
    · rename_i hn
      exact absurd hn (h.stored id hid (by simpa using ha))
    · rename_i node hn
      exact hf _ (h.enter id node context hn hc)

theorem perform (h : w.Confined b) (steps : Nat) {action : Action Context Output Frame}
    (ha : action.Within b) : (w.perform steps action).Within b.output b.error := by
  induction steps generalizing action with
  | zero => exact trivial
  | succ steps ih =>
    cases action with
    | done found output => exact ha
    | abort error => exact ha
    | endless => exact trivial
    | after found action =>
      have hi : action.Within b := ha
      exact (ih hi).prepend found
    | visit id context => exact h.visitBy (fun _ => ih) ha.1 ha.2
    | gather ids context frame =>
      obtain ⟨hids, hc, hf⟩ := ha
      refine (Outcome.Within.gather fun id hm => h.visitBy (fun _ => ih) (hids id hm) hc).andThen
        fun found outputs ho => ?_
      exact ih (h.resume frame found outputs hf ho)
    | capture action frame =>
      refine (ih ha.1).andThen fun found output ho => ?_
      exact ih (h.resume frame found [output] ha.2 (by simpa using ho))

/-- The outcome for a node by recursion is within the bounds. -/
theorem visit (h : w.Confined b) (steps : Nat) {id : NodeId} {context : Context} (hid : b.node id)
    (hc : b.context context) : (w.visit steps id context).Within b.output b.error :=
  h.visitBy (fun _ => h.perform steps) hid hc

theorem of_yields (h : w.Confined b) {action : Action Context Output Frame}
    (ha : action.Within b) {r : Walk.Result Output} (hr : w.Yields action r) : b.output r.2 := by
  obtain ⟨steps, hp⟩ := hr
  have := h.perform steps ha
  rwa [hp] at this

theorem of_reaches (h : w.Confined b) {id : NodeId} {context : Context} (hid : b.node id)
    (hc : b.context context) {r : Walk.Result Output} (hr : w.Reaches context id r) :
    b.output r.2 := by
  obtain ⟨steps, hv⟩ := hr
  have := h.visit steps hid hc
  rwa [hv] at this

/-- What several visits come to is within the bounds. -/
theorem of_forall₂_reaches (h : w.Confined b) {ids : List NodeId} {context : Context}
    (hids : ∀ id ∈ ids, b.node id) (hc : b.context context)
    {results : List (Walk.Result Output)}
    (hr : List.Forall₂ (w.Reaches context) ids results) :
    ∀ output ∈ results.map Prod.snd, b.output output := by
  induction hr with
  | nil => exact fun output hm => absurd hm List.not_mem_nil
  | cons hfirst _ ih =>
    obtain ⟨hid, hrest⟩ := List.forall_mem_cons.1 hids
    exact List.forall_mem_cons.2 ⟨h.of_reaches hid hc hfirst, ih hrest⟩

end Walk.Confined

/-! ## By a queue -/

/-- All that a task hands on or asks for is allowed. -/
def Task.Within (b : Walk.Bounds Context Output Frame) : Task Context Output Frame → Prop
  | .visit id context _ => b.node id ∧ b.context context
  | .resume _ _ output => b.output output
  | .perform action _ => action.Within b

/-- What has arrived at a gathering is allowed, and so is its frame. -/
structure Gathering.Within (b : Walk.Bounds Context Output Frame) (G : Gathering Output Frame) :
    Prop where
  frame : b.frame G.frame
  slots : ∀ (i : Nat) r, G.gather.slots[i]? = some (some r) → b.output r.2

namespace Machine

/-- All tasks and gatherings are within the bounds. -/
structure Within (b : Walk.Bounds Context Output Frame) (m : Machine Context Output Frame) :
    Prop where
  tasks : ∀ task ∈ m.tasks, task.Within b
  gatherings : ∀ number G, m.gathering? number = some G → G.Within b

/-- A machine, or an outcome, within the bounds. -/
def Progress.Within (b : Walk.Bounds Context Output Frame) :
    Progress Context Output Frame → Prop
  | .running m => m.Within b
  | .ended outcome => outcome.Within b.output b.error

end Machine

section Steps

variable {w : Walk Context Output Frame} {b : Walk.Bounds Context Output Frame} {steps : Nat}

theorem Task.Follows.within {task task' : Task Context Output Frame}
    (hf : task.Follows w steps task') (h : w.Confined b) (ht : task.Within b) :
    task'.Within b := by
  cases hf with
  | absent => exact h.absent
  | enter ha hn => exact h.enter _ _ _ hn ht.2
  | pass => exact ht
  | done => exact ht
  | after => exact ht
  | visit => exact ht
  | empty => exact h.resume _ _ _ ht.2.2 fun _ hm => nomatch hm
  | capture hp =>
    have ho := h.perform steps ht.1
    rw [hp] at ho
    exact h.resume _ _ _ ht.2 (List.forall_mem_singleton.2 ho)

theorem Task.Fails.within {task : Task Context Output Frame} {error : CompileError}
    (hf : task.Fails w steps error) (h : w.Confined b) (ht : task.Within b) : b.error error := by
  cases hf with
  | missing ha hn => exact absurd hn (h.stored _ ht.1 ha)
  | abort => exact ht
  | capture hp =>
    have he := h.perform steps ht.1
    rwa [hp] at he

theorem Gathering.Within.results {G : Gathering Output Frame} (h : G.Within b) :
    ∀ output ∈ G.gather.results.2, b.output output := by
  intro output hm
  unfold Gather.results at hm
  obtain ⟨r, hr, rfl⟩ := List.mem_map.1 hm
  obtain ⟨slot, hs, he⟩ := List.mem_filterMap.1 hr
  obtain ⟨i, hi⟩ := List.getElem?_of_mem hs
  refine h.slots i r ?_
  rw [← Array.getElem?_toList, hi]
  exact congrArg some he

namespace Machine

theorem Within.gathering_delivered {G : Gathering Output Frame} {position : Nat}
    {found : List Diagnostic} {output : Output} (h : G.Within b) (ho : b.output output)
    (hs : G.gather.slots[position]? = some none) :
    (delivered G position found output).Within b := by
  refine ⟨h.frame, fun i r hr => ?_⟩
  rw [getElem?_slots_delivered hs] at hr
  split at hr
  · cases hr
    exact ho
  · exact h.slots i r hr

theorem Within.gatherings_delivered {m m' : Machine Context Output Frame} {number position : Nat}
    {G : Gathering Output Frame} {found : List Diagnostic} {output : Output} (h : m.Within b)
    (ho : b.output output) (hG : m.gathering? number = some G)
    (hs : G.gather.slots[position]? = some none)
    (hg : m'.gatherings = m.gatherings.setIfInBounds number (delivered G position found output)) :
    ∀ j G', m'.gathering? j = some G' → G'.Within b := by
  intro j G' hG'
  rw [gathering?_delivered hG hg] at hG'
  split at hG'
  · cases hG'
    exact Within.gathering_delivered (h.gatherings number G hG) ho hs
  · exact h.gatherings j G' hG'

/-- A step of a confined walk stays within its bounds. -/
theorem Step.within {m : Machine Context Output Frame} {p : Progress Context Output Frame}
    (hs : Step w steps m p) (h : w.Confined b) (hm : m.Within b) : p.Within b := by
  cases hs with
  | @replace task task' rest _ ht hf ht' hg =>
    refine ⟨fun other ho => ?_,
      fun number G hG => hm.gatherings number G (by rwa [gathering?, ← hg])⟩
    rw [ht'.mem_iff, List.mem_cons] at ho
    rcases ho with rfl | ho
    · exact hf.within h (hm.tasks task (by rw [ht]; exact List.mem_cons_self ..))
    · exact hm.tasks other (by rw [ht]; exact List.mem_cons_of_mem _ ho)
  | deliver ht hG hp hne ht' hg =>
    have ho := hm.tasks _ (by rw [ht]; exact List.mem_cons_self ..)
    refine ⟨fun other hmem => hm.tasks other ?_, hm.gatherings_delivered ho hG hp hg⟩
    rw [ht, ← ht']
    exact List.mem_cons_of_mem _ hmem
  | @complete number position found output rest G results _ ht hG hp hz hres ht' hg =>
    have ho := hm.tasks _ (by rw [ht]; exact List.mem_cons_self ..)
    refine ⟨fun other hmem => ?_, hm.gatherings_delivered ho hG hp hg⟩
    rw [ht', List.mem_cons] at hmem
    rcases hmem with rfl | hmem
    · have hnew : (delivered G position found output).Within b :=
        Within.gathering_delivered (hm.gatherings number G hG) ho hp
      rw [← hres]
      exact h.resume _ _ _ hnew.frame hnew.results
    · exact hm.tasks other (by rw [ht]; exact List.mem_cons_of_mem _ hmem)
  | spread ht hne ht' hg =>
    obtain ⟨hids, hc, hf⟩ := hm.tasks _ (by rw [ht]; exact List.mem_cons_self ..)
    refine ⟨fun other hmem => ?_, fun number G hG => ?_⟩
    · rw [ht', List.mem_append] at hmem
      rcases hmem with hmem | hmem
      · exact hm.tasks other (by rw [ht]; exact List.mem_cons_of_mem _ hmem)
      · obtain ⟨id, hid, i, rfl⟩ := mem_visitsFrom hmem
        exact ⟨hids id hid, hc⟩
    · rw [getElem?_push_gathering hg] at hG
      split at hG
      · cases hG
        refine ⟨hf, fun i r hr => ?_⟩
        simp only [awaiting, Gather.start, Array.getElem?_replicate] at hr
        split at hr <;> cases hr
      · exact hm.gatherings number G hG
  | finish ht => exact hm.tasks _ (by rw [ht]; exact List.mem_cons_self ..)
  | fail ht hf => exact hf.within h (hm.tasks _ (by rw [ht]; exact List.mem_cons_self ..))
  | stop => exact trivial

theorem Within.run {m : Machine Context Output Frame} (hm : m.Within b) (h : w.Confined b)
    (hs : m.Sound) (tasks : Nat) : (m.run w steps tasks).Within b.output b.error := by
  induction tasks generalizing m with
  | zero => exact trivial
  | succ tasks ih =>
    have hstep := step_spec hs w steps
    unfold Machine.run
    cases hp : m.step w steps with
    | running next =>
      rw [hp] at hstep
      exact ih (hstep.within h hm) (hstep.sound hs)
    | ended outcome =>
      rw [hp] at hstep
      exact hstep.within h hm

theorem within_start {id : NodeId} {context : Context} (hid : b.node id) (hc : b.context context) :
    (start id context : Machine Context Output Frame).Within b where
  tasks task hm := by
    obtain rfl := List.mem_singleton.1 hm
    exact ⟨hid, hc⟩
  gatherings number G hG := by simp [gathering?, start] at hG

end Machine

/-- The outcome for a node by a queue is within the bounds. -/
theorem Walk.Confined.run (h : w.Confined b) (tasks : Nat) {id : NodeId} {context : Context}
    (hid : b.node id) (hc : b.context context) :
    ((Machine.start id context).run w steps tasks).Within b.output b.error :=
  (Machine.within_start hid hc).run h (Machine.sound_start id context) tasks

end Steps

end Juxta
