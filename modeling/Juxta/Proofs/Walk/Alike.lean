import Mathlib.Data.List.Forall2
import Juxta.Compile
import Juxta.Proofs.Walk.Yields

/-!
# Walks that run alike

Two walks over different stores may ask for the same things in the same order. Then they run
alike, by recursion and by a queue: both end within the same steps, with diagnostics that say the
same and with outputs or errors that correspond to each other.

* `Diagnostic.gist`, `SameGists` : diagnostics without their places;
* `Walk.Likeness` : which nodes, contexts, outputs, frames and errors correspond to each other;
* `Action.Alike`, `Outcome.Alike`, `Machine.Alike` : the same kind, with things that correspond;
* `Walk.Alike` : what must be shown of two walks;
* `Walk.Alike.perform`, `Walk.Alike.run` : the outcomes; `Walk.Alike.yields` : results.
-/

namespace Juxta

/-! ## Lists that correspond -/

section

variable {α β : Type} {R : α → β → Prop} {xs : List α} {ys : List β}

theorem forall₂_getElem? (h : List.Forall₂ R xs ys) (i : Nat) : Option.Rel R xs[i]? ys[i]? := by
  induction h generalizing i with
  | nil => exact .none
  | cons hfirst _ ih =>
    cases i with
    | zero => exact .some hfirst
    | succ i => exact ih i

theorem exists_of_mem_right (h : List.Forall₂ R xs ys) {y : β} (hm : y ∈ ys) :
    ∃ x ∈ xs, R x y := by
  obtain ⟨i, hi⟩ := List.getElem?_of_mem hm
  have hrel := forall₂_getElem? h i
  rw [hi] at hrel
  cases hx : xs[i]? with
  | none =>
    rw [hx] at hrel
    cases hrel
  | some x =>
    rw [hx] at hrel
    cases hrel with
    | some hxy => exact ⟨x, List.mem_of_getElem? hx, hxy⟩

theorem forall₂_set (h : List.Forall₂ R xs ys) (i : Nat) {x : α} {y : β} (hxy : R x y) :
    List.Forall₂ R (xs.set i x) (ys.set i y) := by
  induction h generalizing i with
  | nil => exact .nil
  | cons hfirst hrest ih =>
    cases i with
    | zero => exact .cons hxy hrest
    | succ i => exact .cons hfirst (ih i)

end

/-! ## What corresponds -/

/-- What a diagnostic says, without its place. -/
def Diagnostic.gist (d : Diagnostic) : String × DiagnosticKind := (d.message, d.kind)

/-- The same messages of the same kinds in the same order. -/
def SameGists (found found' : List Diagnostic) : Prop :=
  found.map Diagnostic.gist = found'.map Diagnostic.gist

theorem SameGists.refl (found : List Diagnostic) : SameGists found found := rfl

theorem SameGists.append {found found' more more' : List Diagnostic} (h : SameGists found found')
    (hmore : SameGists more more') : SameGists (found ++ more) (found' ++ more') := by
  unfold SameGists at *
  rw [List.map_append, List.map_append, h, hmore]

section

variable {Context Output Frame Context' Output' Frame' : Type}

/-- Which nodes, contexts, outputs, frames and errors correspond to each other. -/
structure Walk.Likeness (Context Output Frame Context' Output' Frame' : Type) where
  node : NodeId → NodeId → Prop
  context : Context → Context' → Prop
  output : Output → Output' → Prop
  frame : Frame → Frame' → Prop
  error : CompileError → CompileError → Prop

/-- An output and what was found with it. -/
def Walk.Likeness.result (l : Walk.Likeness Context Output Frame Context' Output' Frame')
    (r : List Diagnostic × Output) (r' : List Diagnostic × Output') : Prop :=
  SameGists r.1 r'.1 ∧ l.output r.2 r'.2

/-- Actions of the same kind with diagnostics that say the same. -/
inductive Action.Alike (l : Walk.Likeness Context Output Frame Context' Output' Frame') :
    Action Context Output Frame → Action Context' Output' Frame' → Prop where
  | done {found found' output output'} : SameGists found found' → l.output output output' →
      Alike l (.done found output) (.done found' output')
  | abort {error error'} : l.error error error' → Alike l (.abort error) (.abort error')
  | endless : Alike l .endless .endless
  | after {found found' action action'} : SameGists found found' → Alike l action action' →
      Alike l (.after found action) (.after found' action')
  | visit {id id' context context'} : l.node id id' → l.context context context' →
      Alike l (.visit id context) (.visit id' context')
  | gather {ids ids' context context' frame frame'} : List.Forall₂ l.node ids ids' →
      l.context context context' → l.frame frame frame' →
      Alike l (.gather ids context frame) (.gather ids' context' frame')
  | capture {action action' frame frame'} : Alike l action action' → l.frame frame frame' →
      Alike l (.capture action frame) (.capture action' frame')

/-- Outcomes of the same kind with diagnostics that say the same. -/
inductive Outcome.Alike {α β : Type} (error : CompileError → CompileError → Prop)
    (output : α → β → Prop) : Outcome α → Outcome β → Prop where
  | finished {found found' result result'} : SameGists found found' → output result result' →
      Alike error output (.finished found result) (.finished found' result')
  | aborted {cause cause'} : error cause cause' →
      Alike error output (.aborted cause) (.aborted cause')
  | unfinished : Alike error output .unfinished .unfinished

/-- Two walks that ask for things that correspond, as long as they are given such things. -/
structure Walk.Alike (w : Walk Context Output Frame) (w' : Walk Context' Output' Frame')
    (l : Walk.Likeness Context Output Frame Context' Output' Frame') : Prop where
  isAbsent : ∀ id id', l.node id id' → id.isAbsent = id'.isAbsent
  absent : l.output w.absent w'.absent
  /-- Nodes that correspond are there, unless they are absent. -/
  enter : ∀ id id', l.node id id' → id.isAbsent = false → ∃ node node',
    w.store.node? id = some node ∧ w'.store.node? id' = some node' ∧
      ∀ context context', l.context context context' →
        (w.enter id node context).Alike l (w'.enter id' node' context')
  resume : ∀ frame frame', l.frame frame frame' → ∀ found found', SameGists found found' →
    ∀ outputs outputs', List.Forall₂ l.output outputs outputs' →
      (w.resume frame found outputs).Alike l (w'.resume frame' found' outputs')

/-! ## By recursion -/

namespace Outcome

variable {α β γ δ : Type} {error : CompileError → CompileError → Prop} {output : α → β → Prop}

theorem Alike.prepend {a : Outcome α} {b : Outcome β} (h : a.Alike error output b)
    {found found' : List Diagnostic} (hf : SameGists found found') :
    (a.prepend found).Alike error output (b.prepend found') := by
  cases h with
  | finished hmore ho => exact .finished (hf.append hmore) ho
  | aborted hc => exact .aborted hc
  | unfinished => exact .unfinished

theorem Alike.andThen {a : Outcome α} {b : Outcome β} {next : List Diagnostic → α → Outcome γ}
    {next' : List Diagnostic → β → Outcome δ} {result : γ → δ → Prop} (h : a.Alike error output b)
    (k : ∀ found found' r r', SameGists found found' → output r r' →
      (next found r).Alike error result (next' found' r')) :
    (a.andThen next).Alike error result (b.andThen next') := by
  cases h with
  | finished hf ho => exact k _ _ _ _ hf ho
  | aborted hc => exact .aborted hc
  | unfinished => exact .unfinished

theorem Alike.gather {visit : NodeId → Outcome α} {visit' : NodeId → Outcome β}
    {node : NodeId → NodeId → Prop}
    (h : ∀ id id', node id id' → (visit id).Alike error output (visit' id'))
    {ids ids' : List NodeId} (hids : List.Forall₂ node ids ids') :
    (gather visit ids).Alike error (List.Forall₂ output) (gather visit' ids') := by
  induction hids with
  | nil => exact .finished rfl .nil
  | cons hid _ ih =>
    refine (h _ _ hid).andThen fun found found' r r' hf hr => ?_
    refine ih.andThen fun more more' rs rs' hm hrs => ?_
    exact .finished (hf.append hm) (.cons hr hrs)

end Outcome

namespace Walk.Alike

variable {w : Walk Context Output Frame} {w' : Walk Context' Output' Frame'}
  {l : Walk.Likeness Context Output Frame Context' Output' Frame'}

theorem visitBy (h : w.Alike w' l) {f : Action Context Output Frame → Outcome Output}
    {f' : Action Context' Output' Frame' → Outcome Output'}
    (hf : ∀ action action', action.Alike l action' →
      (f action).Alike l.error l.output (f' action')) {id id' : NodeId} (hid : l.node id id')
    {context : Context} {context' : Context'} (hc : l.context context context') :
    (w.visitBy f id context).Alike l.error l.output (w'.visitBy f' id' context') := by
  have hsame := h.isAbsent id id' hid
  unfold Walk.visitBy
  cases ha : id.isAbsent with
  | true =>
    rw [← hsame, ha]
    exact .finished rfl h.absent
  | false =>
    obtain ⟨node, node', hn, hn', henter⟩ := h.enter id id' hid ha
    rw [← hsame, ha, hn, hn']
    exact hf _ _ (henter context context' hc)

/-- Actions that are alike come to the same within the same steps. -/
theorem perform (h : w.Alike w' l) (steps : Nat) {action : Action Context Output Frame}
    {action' : Action Context' Output' Frame'} (ha : action.Alike l action') :
    (w.perform steps action).Alike l.error l.output (w'.perform steps action') := by
  induction steps generalizing action action' with
  | zero => exact .unfinished
  | succ steps ih =>
    cases ha with
    | done hf ho => exact .finished hf ho
    | abort he => exact .aborted he
    | endless => exact .unfinished
    | after hf ha => exact (ih ha).prepend hf
    | visit hid hc => exact h.visitBy (fun _ _ => ih) hid hc
    | gather hids hc hframe =>
      refine (Outcome.Alike.gather (fun id id' (hid : l.node id id') =>
        h.visitBy (fun _ _ => ih) hid hc) hids).andThen fun found found' _ _ hf ho => ?_
      exact ih (h.resume _ _ hframe _ _ hf _ _ ho)
    | capture ha hframe =>
      refine (ih ha).andThen fun found found' output output' hf ho => ?_
      exact ih (h.resume _ _ hframe _ _ hf _ _ (.cons ho .nil))

/-- Actions that are alike come to results that correspond. -/
theorem yields (h : w.Alike w' l) {action : Action Context Output Frame}
    {action' : Action Context' Output' Frame'} (ha : action.Alike l action')
    {r : Walk.Result Output} (hr : w.Yields action r) :
    ∃ r', w'.Yields action' r' ∧ l.result r r' := by
  obtain ⟨steps, hp⟩ := hr
  have hsame := h.perform steps ha
  rw [hp] at hsame
  generalize hp' : w'.perform steps action' = outcome at hsame
  cases hsame with
  | finished hf ho => exact ⟨(_, _), ⟨steps, hp'⟩, hf, ho⟩

/-- Conversely, the first one comes to a result if the second one does. -/
theorem yields_of (h : w.Alike w' l) {action : Action Context Output Frame}
    {action' : Action Context' Output' Frame'} (ha : action.Alike l action')
    {r' : Walk.Result Output'} (hr : w'.Yields action' r') :
    ∃ r, w.Yields action r ∧ l.result r r' := by
  obtain ⟨steps, hp⟩ := hr
  have hsame := h.perform steps ha
  rw [hp] at hsame
  generalize hp' : w.perform steps action = outcome at hsame
  cases hsame with
  | finished hf ho => exact ⟨(_, _), ⟨steps, hp'⟩, hf, ho⟩

end Walk.Alike

/-! ## By a queue -/

/-- The same awaiter, with diagnostics that say the same. -/
inductive Awaiter.Alike : Awaiter → Awaiter → Prop where
  | root : Alike .root .root
  | after {found found' awaiter awaiter'} : SameGists found found' → Alike awaiter awaiter' →
      Alike (.after found awaiter) (.after found' awaiter')
  | slot (gather position : Nat) : Alike (.slot gather position) (.slot gather position)

/-- Tasks of the same kind, with things that correspond. -/
inductive Task.Alike (l : Walk.Likeness Context Output Frame Context' Output' Frame') :
    Task Context Output Frame → Task Context' Output' Frame' → Prop where
  | visit {id id' context context' awaiter awaiter'} : l.node id id' → l.context context context' →
      awaiter.Alike awaiter' → Alike l (.visit id context awaiter) (.visit id' context' awaiter')
  | resume {awaiter awaiter' found found' output output'} : awaiter.Alike awaiter' →
      SameGists found found' → l.output output output' →
      Alike l (.resume awaiter found output) (.resume awaiter' found' output')
  | perform {action action' awaiter awaiter'} : action.Alike l action' → awaiter.Alike awaiter' →
      Alike l (.perform action awaiter) (.perform action' awaiter')

theorem Walk.Likeness.sameGists_flatMap
    {l : Walk.Likeness Context Output Frame Context' Output' Frame'}
    {results : List (List Diagnostic × Output)} {results' : List (List Diagnostic × Output')}
    (h : List.Forall₂ l.result results results') :
    SameGists (results.flatMap Prod.fst) (results'.flatMap Prod.fst) := by
  induction h with
  | nil => exact .refl []
  | cons hfirst _ ih => exact hfirst.1.append ih

/-- The same positions have been filled, with outputs that correspond. -/
structure Gathering.Alike (l : Walk.Likeness Context Output Frame Context' Output' Frame')
    (g : Gathering Output Frame) (g' : Gathering Output' Frame') : Prop where
  slots : List.Forall₂ (Option.Rel l.result) g.gather.slots.toList g'.gather.slots.toList
  missing : g.gather.missing = g'.gather.missing
  frame : l.frame g.frame g'.frame
  awaiter : g.awaiter.Alike g'.awaiter

namespace Gathering.Alike

variable {l : Walk.Likeness Context Output Frame Context' Output' Frame'}
  {g : Gathering Output Frame} {g' : Gathering Output' Frame'}

/-- Nothing has arrived yet. -/
theorem start (count : Nat) {frame : Frame} {frame' : Frame'} (hf : l.frame frame frame')
    {awaiter awaiter' : Awaiter} (ha : awaiter.Alike awaiter') :
    Gathering.Alike l ⟨.start count, frame, awaiter⟩ ⟨.start count, frame', awaiter'⟩ := by
  refine ⟨?_, rfl, hf, ha⟩
  unfold Gather.start
  dsimp only
  rw [Array.toList_replicate, Array.toList_replicate]
  induction count with
  | zero => exact .nil
  | succ count ih => exact .cons .none ih

theorem deliver (h : g.Alike l g') (position : Nat) {found found' : List Diagnostic}
    (hf : SameGists found found') {output : Output} {output' : Output'}
    (ho : l.output output output') :
    Gathering.Alike l { g with gather := g.gather.deliver position found output }
      { g' with gather := g'.gather.deliver position found' output' } where
  slots := by
    unfold Gather.deliver
    rw [Array.toList_setIfInBounds, Array.toList_setIfInBounds]
    exact forall₂_set h.slots position (.some ⟨hf, ho⟩)
  missing := congrArg (· - 1) h.missing
  frame := h.frame
  awaiter := h.awaiter

/-- The outputs that have arrived correspond, in order. -/
theorem results (h : g.Alike l g') : SameGists g.gather.results.1 g'.gather.results.1 ∧
    List.Forall₂ l.output g.gather.results.2 g'.gather.results.2 := by
  have harrived : List.Forall₂ l.result (g.gather.slots.toList.filterMap id)
      (g'.gather.slots.toList.filterMap id) := List.rel_filterMap (fun _ _ hr => hr) h.slots
  refine ⟨Walk.Likeness.sameGists_flatMap harrived, ?_⟩
  exact List.rel_map (fun _ _ hr => hr.2) harrived

end Gathering.Alike

namespace Machine

/-- The same tasks in the same order, and the same gatherings. -/
structure Alike (l : Walk.Likeness Context Output Frame Context' Output' Frame')
    (m : Machine Context Output Frame) (m' : Machine Context' Output' Frame') : Prop where
  front : List.Forall₂ (Task.Alike l) m.agenda.front m'.agenda.front
  back : List.Forall₂ (Task.Alike l) m.agenda.back m'.agenda.back
  gatherings : List.Forall₂ (Gathering.Alike l) m.gatherings.toList m'.gatherings.toList

/-- Machines that are alike, or outcomes that are. -/
inductive Progress.Alike (l : Walk.Likeness Context Output Frame Context' Output' Frame') :
    Progress Context Output Frame → Progress Context' Output' Frame' → Prop where
  | running {m m'} : m.Alike l m' → Alike l (.running m) (.running m')
  | ended {outcome outcome'} : outcome.Alike l.error l.output outcome' →
      Alike l (.ended outcome) (.ended outcome')

variable {w : Walk Context Output Frame} {w' : Walk Context' Output' Frame'}
  {l : Walk.Likeness Context Output Frame Context' Output' Frame'}
  {m : Machine Context Output Frame} {m' : Machine Context' Output' Frame'}
  {task : Task Context Output Frame} {task' : Task Context' Output' Frame'}

theorem Alike.soon (h : m.Alike l m') (ht : task.Alike l task') :
    (m.soon task).Alike l (m'.soon task') := .running ⟨.cons ht h.front, h.back, h.gatherings⟩

theorem Alike.later (h : m.Alike l m') (ht : task.Alike l task') :
    (m.later task).Alike l (m'.later task') := .running ⟨h.front, .cons ht h.back, h.gatherings⟩

theorem Alike.visit (h : m.Alike l m') (hw : w.Alike w' l) {id id' : NodeId} (hid : l.node id id')
    {context : Context} {context' : Context'} (hc : l.context context context')
    {awaiter awaiter' : Awaiter} (ha : awaiter.Alike awaiter') :
    (m.visit w id context awaiter).Alike l (m'.visit w' id' context' awaiter') := by
  have hsame := hw.isAbsent id id' hid
  unfold Machine.visit
  cases habsent : id.isAbsent with
  | true =>
    rw [← hsame, habsent]
    exact h.soon (.resume ha rfl hw.absent)
  | false =>
    obtain ⟨node, node', hn, hn', henter⟩ := hw.enter id id' hid habsent
    rw [← hsame, habsent, hn, hn']
    exact h.soon (.perform (henter context context' hc) ha)

/-- What is gathered at corresponding positions. -/
theorem Alike.gathering (h : m.Alike l m') (number : Nat) :
    Option.Rel (Gathering.Alike l) m.gatherings[number]? m'.gatherings[number]? := by
  rw [← Array.getElem?_toList, ← Array.getElem?_toList]
  exact forall₂_getElem? h.gatherings number

theorem Alike.setIfInBounds (h : m.Alike l m') (number : Nat) {g : Gathering Output Frame}
    {g' : Gathering Output' Frame'} (hg : g.Alike l g') :
    Machine.Alike l { m with gatherings := m.gatherings.setIfInBounds number g }
      { m' with gatherings := m'.gatherings.setIfInBounds number g' } := by
  refine ⟨h.front, h.back, ?_⟩
  dsimp only
  rw [Array.toList_setIfInBounds, Array.toList_setIfInBounds]
  exact forall₂_set h.gatherings number hg

theorem Alike.resume (h : m.Alike l m') (hw : w.Alike w' l) {awaiter awaiter' : Awaiter}
    (ha : awaiter.Alike awaiter') {found found' : List Diagnostic} (hf : SameGists found found')
    {output : Output} {output' : Output'} (ho : l.output output output') :
    (m.resume w awaiter found output).Alike l (m'.resume w' awaiter' found' output') := by
  cases ha with
  | root => exact .ended (.finished hf ho)
  | after hbefore ha => exact h.soon (.resume ha (hbefore.append hf) ho)
  | slot number position =>
    have hgathering := h.gathering number
    unfold Machine.resume
    dsimp only
    generalize m.gatherings[number]? = g at hgathering ⊢
    generalize m'.gatherings[number]? = g' at hgathering ⊢
    cases hgathering with
    | none => exact .running h
    | @some g g' hg =>
      have hnew := hg.deliver position hf ho
      have hm := h.setIfInBounds number hnew
      have hmissing := hnew.missing
      dsimp only at hmissing ⊢
      rw [← hmissing]
      split
      · obtain ⟨hfound, houtputs⟩ := hnew.results
        exact hm.soon (.perform (hw.resume _ _ hnew.frame _ _ hfound _ _ houtputs) hnew.awaiter)
      · exact .running hm

theorem visits_alike (number : Nat) {context : Context} {context' : Context'}
    (hc : l.context context context') {ids ids' : List NodeId} (hids : List.Forall₂ l.node ids ids')
    (position : Nat) {agenda : Agenda (Task Context Output Frame)}
    {agenda' : Agenda (Task Context' Output' Frame')}
    (hfront : List.Forall₂ (Task.Alike l) agenda.front agenda'.front)
    (hback : List.Forall₂ (Task.Alike l) agenda.back agenda'.back) :
    List.Forall₂ (Task.Alike l) (visits number context position ids agenda).front
        (visits number context' position ids' agenda').front ∧
      List.Forall₂ (Task.Alike l) (visits number context position ids agenda).back
        (visits number context' position ids' agenda').back := by
  induction hids generalizing position agenda agenda' with
  | nil => exact ⟨hfront, hback⟩
  | cons hid _ ih =>
    unfold visits
    exact ih (position + 1) hfront (.cons (.visit hid hc (.slot number position)) hback)

theorem Alike.perform (h : m.Alike l m') (hw : w.Alike w' l) (steps : Nat)
    {action : Action Context Output Frame} {action' : Action Context' Output' Frame'}
    (haction : action.Alike l action') {awaiter awaiter' : Awaiter} (ha : awaiter.Alike awaiter') :
    (m.perform w steps action awaiter).Alike l (m'.perform w' steps action' awaiter') := by
  cases haction with
  | done hf ho => exact h.later (.resume ha hf ho)
  | abort he => exact .ended (.aborted he)
  | endless => exact .ended .unfinished
  | after hf haction => exact h.soon (.perform haction (.after hf ha))
  | visit hid hc => exact h.later (.visit hid hc ha)
  | gather hids hc hframe =>
    unfold Machine.perform
    cases hids with
    | nil => exact h.soon (.perform (hw.resume _ _ hframe _ _ (.refl []) _ _ .nil) ha)
    | @cons id id' rest rest' hid hrest =>
      have hsize : m.gatherings.size = m'.gatherings.size := h.gatherings.length_eq
      have hlength : (id :: rest).length = (id' :: rest').length :=
        (List.Forall₂.cons hid hrest).length_eq
      obtain ⟨hfront, hback⟩ := visits_alike m.gatherings.size hc (.cons hid hrest) 0 h.front h.back
      dsimp only [List.isEmpty_cons, Bool.false_eq_true, if_false]
      rw [← hsize, ← hlength]
      refine .running ⟨hfront, hback, ?_⟩
      rw [Array.toList_push, Array.toList_push]
      exact List.rel_append h.gatherings (.cons (.start _ hframe ha) .nil)
  | capture haction hframe =>
    have hcaptured := hw.perform steps haction
    unfold Machine.perform
    dsimp only
    revert hcaptured
    generalize w.perform steps _ = outcome
    generalize w'.perform steps _ = outcome'
    intro hcaptured
    cases hcaptured with
    | finished hf ho =>
      exact h.soon (.perform (hw.resume _ _ hframe _ _ hf _ _ (.cons ho .nil)) ha)
    | aborted he => exact .ended (.aborted he)
    | unfinished => exact .ended .unfinished

/-- The next tasks of machines that are alike are alike. -/
theorem Alike.pop? (h : m.Alike l m') :
    (m.agenda.pop? = none ∧ m'.agenda.pop? = none) ∨
      ∃ task task' agenda agenda', m.agenda.pop? = some (task, agenda) ∧
        m'.agenda.pop? = some (task', agenda') ∧ task.Alike l task' ∧
        Machine.Alike l { m with agenda } { m' with agenda := agenda' } := by
  obtain ⟨⟨front, back⟩, gatherings⟩ := m
  obtain ⟨⟨front', back'⟩, gatherings'⟩ := m'
  obtain ⟨hfront, hback, hgatherings⟩ := h
  unfold Agenda.pop?
  cases hfront with
  | cons htask hrest => exact .inr ⟨_, _, _, _, rfl, rfl, htask, hrest, hback, hgatherings⟩
  | nil =>
    have hreverse := List.rel_reverse hback
    dsimp only at hreverse ⊢
    generalize back.reverse = tasks at hreverse ⊢
    generalize back'.reverse = tasks' at hreverse ⊢
    cases hreverse with
    | nil => exact .inl ⟨rfl, rfl⟩
    | cons htask hrest => exact .inr ⟨_, _, _, _, rfl, rfl, htask, hrest, .nil, hgatherings⟩

theorem Alike.step (h : m.Alike l m') (hw : w.Alike w' l) (hu : l.error .unresolved .unresolved)
    (steps : Nat) : (m.step w steps).Alike l (m'.step w' steps) := by
  unfold Machine.step
  rcases h.pop? with ⟨hm, hm'⟩ | ⟨task, task', agenda, agenda', hm, hm', htask, hrest⟩
  · rw [hm, hm']
    exact .ended (.aborted hu)
  · rw [hm, hm']
    cases htask with
    | visit hid hc ha => exact hrest.visit hw hid hc ha
    | resume ha hf ho => exact hrest.resume hw ha hf ho
    | perform haction ha => exact hrest.perform hw steps haction ha

theorem Alike.run (h : m.Alike l m') (hw : w.Alike w' l) (hu : l.error .unresolved .unresolved)
    (steps tasks : Nat) :
    (m.run w steps tasks).Alike l.error l.output (m'.run w' steps tasks) := by
  induction tasks generalizing m m' with
  | zero => exact .unfinished
  | succ tasks ih =>
    have hstep := h.step hw hu steps
    unfold Machine.run
    generalize m.step w steps = p at hstep ⊢
    generalize m'.step w' steps = p' at hstep ⊢
    cases hstep with
    | running hm => exact ih hm
    | ended ho => exact ho

end Machine

/-- Walks that are alike have outcomes that are alike, under either way of scheduling. -/
theorem Walk.Alike.run {w : Walk Context Output Frame} {w' : Walk Context' Output' Frame'}
    {l : Walk.Likeness Context Output Frame Context' Output' Frame'} (h : w.Alike w' l)
    (hu : l.error .unresolved .unresolved) (scheduling : Scheduling) (steps : Nat)
    {id id' : NodeId} (hid : l.node id id') {context : Context} {context' : Context'}
    (hc : l.context context context') : (w.run scheduling steps id context).Alike l.error l.output
      (w'.run scheduling steps id' context') := by
  cases scheduling with
  | direct => exact h.visitBy (fun _ _ => h.perform steps) hid hc
  | queued =>
    have hstart : Machine.Alike l (.start id context) (.start id' context') :=
      ⟨.nil, .cons (.visit hid hc .root) .nil, .nil⟩
    exact hstart.run h hu steps steps

end

end Juxta
