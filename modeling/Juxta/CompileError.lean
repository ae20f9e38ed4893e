import Juxta.Runaway
import Juxta.Snapshot

/-!
# Why a program has no value

* `CompileError` : the reasons, with their wording, their place and their advice.
-/

namespace Juxta

/-- Why a program has no value. Problems of the program itself are diagnostics instead. -/
inductive CompileError where
  | missingNode (id : NodeId)
  /-- A call that went one scope too deep, and its place. -/
  | runaway (cause : Runaway) (place : Option Coord)
  | unresolved
  | snapshot (cause : Snapshot.LoadError)
  | versionMismatch (expected found : String)
deriving DecidableEq

namespace CompileError

def message : CompileError → String
  | .missingNode id => s!"Node {id.text} is referenced but missing from the program"
  | .runaway cause _ => cause.calling
  | .unresolved => "Evaluation finished without producing a value"
  | .snapshot cause => s!"Invalid program snapshot: {cause.message}"
  | .versionMismatch expected found =>
    s!"Snapshot version {found} does not match the expected version {expected}"

/-- The place, if there is one. -/
def place? : CompileError → Option Coord
  | .runaway _ place => place
  | _ => none

/-- Advice, if there is any. -/
def help? : CompileError → Option String
  | .runaway .. => some Runaway.callingHelp
  | _ => none

end CompileError

end Juxta
