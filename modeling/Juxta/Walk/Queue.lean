import Juxta.Walk.Agenda
import Juxta.Walk.Direct

/-!
# Walks by a queue

Every visit, and every output on its way to where it is awaited, waits in a queue. How deep a
program is nested shows in the length of the queue alone.

* `Gather` : the outputs of several visits, in whatever order they arrive;
* `Awaiter` : what awaits an output;
* `Task`, `Machine` : what is to be done, and the outputs that are gathered;
* `Machine.step`, `Machine.run` : one task, and all of them.
-/

namespace Juxta

/-! ## Gathering -/

/-- The outputs of several visits as far as they have arrived, each with its diagnostics. -/
structure Gather (Output : Type) where
  slots : Array (Option (List Diagnostic × Output))
  /-- How many are missing. -/
  missing : Nat

namespace Gather

variable {Output : Type}

/-- Nothing has arrived of `count` outputs. -/
def start (count : Nat) : Gather Output := ⟨Array.replicate count none, count⟩

/-- Puts an output where it belongs. -/
def deliver (g : Gather Output) (position : Nat) (found : List Diagnostic) (output : Output) :
    Gather Output :=
  ⟨g.slots.setIfInBounds position (some (found, output)), g.missing - 1⟩

/-- The outputs in order, and the diagnostics in the order of the outputs. -/
def results (g : Gather Output) : List Diagnostic × List Output :=
  let arrived := g.slots.toList.filterMap id
  (arrived.flatMap (·.1), arrived.map (·.2))

end Gather

/-! ## Tasks -/

/-- What awaits an output. -/
inductive Awaiter where
  /-- The walk as a whole. -/
  | root
  /-- Another one, with diagnostics that come first. -/
  | after (found : List Diagnostic) (awaiter : Awaiter)
  /-- A position among outputs that are gathered. -/
  | slot (gather position : Nat)

/-- What is to be done. -/
inductive Task (Context Output Frame : Type) where
  | visit (node : NodeId) (context : Context) (awaiter : Awaiter)
  | resume (awaiter : Awaiter) (found : List Diagnostic) (output : Output)
  | perform (action : Action Context Output Frame) (awaiter : Awaiter)

/-- Outputs that are gathered, the frame that goes on with them, and what awaits its output. -/
structure Gathering (Output Frame : Type) where
  gather : Gather Output
  frame : Frame
  awaiter : Awaiter

/-- The tasks, and all that has been gathered, by number. -/
structure Machine (Context Output Frame : Type) where
  agenda : Agenda (Task Context Output Frame)
  gatherings : Array (Gathering Output Frame)

namespace Machine

variable {Context Output Frame : Type}

/-- What has become of a machine. -/
inductive Progress (Context Output Frame : Type) where
  | running (machine : Machine Context Output Frame)
  | ended (outcome : Outcome Output)

/-- Adds a task that is next. -/
def soon (m : Machine Context Output Frame) (task : Task Context Output Frame) :
    Progress Context Output Frame :=
  .running { m with agenda := m.agenda.pushFront task }

/-- Adds a task that waits for all others. -/
def later (m : Machine Context Output Frame) (task : Task Context Output Frame) :
    Progress Context Output Frame :=
  .running { m with agenda := m.agenda.pushBack task }

/-- Visits a node for its awaiter. -/
def visit (w : Walk Context Output Frame) (m : Machine Context Output Frame) (id : NodeId)
    (context : Context) (awaiter : Awaiter) : Progress Context Output Frame :=
  if id.isAbsent then m.soon (.resume awaiter [] w.absent)
  else match w.store.node? id with
    | none => .ended (.aborted (.missingNode id))
    | some node => m.soon (.perform (w.enter id node context) awaiter)

/-- Hands an output to its awaiter. -/
def resume (w : Walk Context Output Frame) (m : Machine Context Output Frame) (awaiter : Awaiter)
    (found : List Diagnostic) (output : Output) : Progress Context Output Frame :=
  match awaiter with
  | .root => .ended (.finished found output)
  | .after before awaiter => m.soon (.resume awaiter (before ++ found) output)
  | .slot number position => match m.gatherings[number]? with
    | none => .running m
    | some gathering =>
      let gather := gathering.gather.deliver position found output
      let gathering := { gathering with gather }
      let m := { m with gatherings := m.gatherings.setIfInBounds number gathering }
      if gather.missing = 0 then
        let (found, outputs) := gather.results
        m.soon (.perform (w.resume gathering.frame found outputs) gathering.awaiter)
      else .running m

/-- Visits nodes for the positions of a gathering, one task after the other. -/
def visits (number : Nat) (context : Context) : (position : Nat) → List NodeId →
    Agenda (Task Context Output Frame) → Agenda (Task Context Output Frame)
  | _, [], agenda => agenda
  | position, id :: rest, agenda =>
    visits number context (position + 1) rest
      (agenda.pushBack (.visit id context (.slot number position)))

/-- Carries out an action for its awaiter. An action that is captured may take `steps` steps. -/
def perform (w : Walk Context Output Frame) (steps : Nat) (m : Machine Context Output Frame)
    (action : Action Context Output Frame) (awaiter : Awaiter) : Progress Context Output Frame :=
  match action with
  | .done found output => m.later (.resume awaiter found output)
  | .abort error => .ended (.aborted error)
  | .endless => .ended .unfinished
  | .after found action => m.soon (.perform action (.after found awaiter))
  | .visit id context => m.later (.visit id context awaiter)
  | .gather ids context frame =>
    if ids.isEmpty then m.soon (.perform (w.resume frame [] []) awaiter)
    else .running {
      agenda := visits m.gatherings.size context 0 ids m.agenda
      gatherings := m.gatherings.push ⟨.start ids.length, frame, awaiter⟩ }
  | .capture action frame => match w.perform steps action with
    | .finished found output => m.soon (.perform (w.resume frame found [output]) awaiter)
    | .aborted error => .ended (.aborted error)
    | .unfinished => .ended .unfinished

/-- Does the next task. A walk whose tasks run out has no output. -/
def step (w : Walk Context Output Frame) (steps : Nat) (m : Machine Context Output Frame) :
    Progress Context Output Frame :=
  match m.agenda.pop? with
  | none => .ended (.aborted .unresolved)
  | some (task, agenda) =>
    let m := { m with agenda }
    match task with
    | .visit id context awaiter => m.visit w id context awaiter
    | .resume awaiter found output => m.resume w awaiter found output
    | .perform action awaiter => m.perform w steps action awaiter

/-- Does tasks until the walk ends, at most `tasks` of them. -/
def run (w : Walk Context Output Frame) (steps : Nat) : (tasks : Nat) →
    Machine Context Output Frame → Outcome Output
  | 0, _ => .unfinished
  | tasks + 1, m => match m.step w steps with
    | .running m => run w steps tasks m
    | .ended outcome => outcome

/-- The machine that visits a node. -/
def start (id : NodeId) (context : Context) : Machine Context Output Frame :=
  ⟨Agenda.empty.pushBack (.visit id context .root), #[]⟩

end Machine

end Juxta
