import Juxta.CompileError
import Juxta.Diagnostic

/-!
# Walks over programs

A walk computes an output for a node from the outputs of other nodes. It is described by what it
does when it enters a node and when outputs that it has asked for arrive; what it waits for is kept
as a frame. Every output comes with the diagnostics that were found on the way.

* `Action` : what a walk asks for next;
* `Walk` : a walk over the nodes of a store;
* `Outcome` : how a walk ends, or that it has not ended yet;
* `Outcome.gather` : the outcomes of several visits in a row.
-/

namespace Juxta

/-- What a walk asks for next. -/
inductive Action (Context Output Frame : Type) where
  /-- The output is known. -/
  | done (found : List Diagnostic) (output : Output)
  /-- The whole walk ends. -/
  | abort (error : CompileError)
  /-- The walk never ends. -/
  | endless
  /-- An action whose diagnostics come after some others. -/
  | after (found : List Diagnostic) (action : Action Context Output Frame)
  /-- The output is that of another node. -/
  | visit (node : NodeId) (context : Context)
  /-- The frame goes on with the outputs of some nodes. -/
  | gather (nodes : List NodeId) (context : Context) (frame : Frame)
  /-- The frame goes on with the output of an action, which is carried out at once. -/
  | capture (action : Action Context Output Frame) (frame : Frame)

/-- A walk over the nodes of a store. -/
structure Walk (Context Output Frame : Type) where
  store : Store
  /-- The output for the absent node. -/
  absent : Output
  enter : NodeId → Node → Context → Action Context Output Frame
  /-- Goes on with the outputs that a frame has waited for. -/
  resume : Frame → List Diagnostic → List Output → Action Context Output Frame

/-- How a walk ends. -/
inductive Outcome (α : Type) where
  | finished (found : List Diagnostic) (output : α)
  | aborted (error : CompileError)
  /-- It has not ended within the steps allowed. -/
  | unfinished
deriving Inhabited

namespace Outcome

variable {α β : Type}

/-- Puts diagnostics before those of an outcome. -/
def prepend (found : List Diagnostic) : Outcome α → Outcome α
  | .finished more output => .finished (found ++ more) output
  | .aborted error => .aborted error
  | .unfinished => .unfinished

/-- Goes on with what has been found and computed. -/
def andThen (outcome : Outcome α) (next : List Diagnostic → α → Outcome β) : Outcome β :=
  match outcome with
  | .finished found output => next found output
  | .aborted error => .aborted error
  | .unfinished => .unfinished

/-- The outcomes of several visits in a row, up to the first that does not finish. -/
def gather (visit : NodeId → Outcome α) : List NodeId → Outcome (List α)
  | [] => .finished [] []
  | id :: rest => (visit id).andThen fun found output =>
    (gather visit rest).andThen fun more outputs => .finished (found ++ more) (output :: outputs)

end Outcome

end Juxta
