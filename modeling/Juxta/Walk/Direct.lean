import Juxta.Walk.Basic

/-!
# Walks by recursion

* `Walk.perform` : carries out an action, every visit to its end before the next one;
* `Walk.visit` : the outcome for a node.

Both allow a number of steps one inside the other; more steps never change an outcome that is
reached.
-/

namespace Juxta.Walk

variable {Context Output Frame : Type}

/-- The outcome for a node, if `perform` carries out what the walk asks for there. -/
def visitBy (w : Walk Context Output Frame)
    (perform : Action Context Output Frame → Outcome Output) (id : NodeId) (context : Context) :
    Outcome Output :=
  if id.isAbsent then .finished [] w.absent
  else match w.store.node? id with
    | none => .aborted (.missingNode id)
    | some node => perform (w.enter id node context)

/-- Carries out an action. -/
def perform (w : Walk Context Output Frame) : (steps : Nat) → Action Context Output Frame →
    Outcome Output
  | 0, _ => .unfinished
  | steps + 1, action => match action with
    | .done found output => .finished found output
    | .abort error => .aborted error
    | .endless => .unfinished
    | .after found action => (w.perform steps action).prepend found
    | .visit id context => w.visitBy (w.perform steps) id context
    | .gather ids context frame =>
      (Outcome.gather (fun id => w.visitBy (w.perform steps) id context) ids).andThen
        fun found outputs => w.perform steps (w.resume frame found outputs)
    | .capture action frame => (w.perform steps action).andThen fun found output =>
        w.perform steps (w.resume frame found [output])

/-- The outcome for a node. -/
def visit (w : Walk Context Output Frame) (steps : Nat) (id : NodeId) (context : Context) :
    Outcome Output :=
  w.visitBy (w.perform steps) id context

end Juxta.Walk
