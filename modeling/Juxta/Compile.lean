import Juxta.Evaluation
import Juxta.Session
import Juxta.Shape
import Juxta.Walk.Queue

/-!
# From a snapshot to a value

A snapshot is loaded, its program is checked, and if nothing is wrong it is evaluated.

* `Walk.run` : a walk under either way of scheduling;
* `Compiled` : the value of a program, and the diagnostics;
* `compileWithin` : the result, or the error, if the walks end within the steps allowed;
* `tryCompile`, `compile` : the same with more steps than any run can take; `compile` turns an error
  into a diagnostic.
-/

namespace Juxta

/-- The outcome of a walk that begins at a node, if it ends within `steps` steps. -/
def Walk.run {Context Output Frame : Type} (w : Walk Context Output Frame)
    (scheduling : Scheduling) (steps : Nat) (root : NodeId) (context : Context) :
    Outcome Output :=
  match scheduling with
  | .direct => w.visit steps root context
  | .queued => Machine.run w steps steps (.start root context)

/-- The value of a program, unless it was found wrong, and the diagnostics. -/
structure Compiled where
  diagnostics : List Diagnostic
  value : Option Json

namespace Compiled

/-- What a program comes to that ends with an error. -/
def failed (error : CompileError) : Compiled :=
  ⟨[.at? error.message error.place? .internal], none⟩

end Compiled

/-- How compilation ends. -/
inductive CompileResult where
  | compiled (compiled : Compiled)
  | failed (error : CompileError)
  /-- It has not ended within the steps allowed. -/
  | unfinished

/-- The store of a snapshot with the version that is wanted. -/
def Config.load (config : Config) (snapshot : Snapshot) : Except CompileError Store :=
  let mismatch := match config.version with
    | some expected => if expected = snapshot.version then none else some expected
    | none => none
  match mismatch with
  | some expected => .error (.versionMismatch expected snapshot.version)
  | none => match snapshot.load with
    | .ok store => .ok store
    | .error cause => .error (.snapshot cause)

/-- Evaluates the program at a node of a store. -/
def Config.evaluate (config : Config) (steps : Nat) (store : Store) (root : NodeId) (data : Json) :
    CompileResult :=
  let e : Evaluator := ⟨store, .ofJson data, config.recursionLimit, config.caseFallthrough⟩
  match e.walk.run config.scheduling steps root .global with
  | .finished found value => .compiled ⟨found, some value.json⟩
  | .aborted error => .failed error
  | .unfinished => .unfinished

/-- Compiles a snapshot within some steps for each of its walks. -/
def compileWithin (steps : Nat) (config : Config) (snapshot : Snapshot) (data : Json) :
    CompileResult :=
  match config.load snapshot with
  | .error error => .failed error
  | .ok store =>
    match (checking store).run config.scheduling steps snapshot.root () with
    | .finished found _ =>
      if found.isEmpty then config.evaluate steps store snapshot.root data
      else .compiled ⟨found, none⟩
    | .aborted error => .failed error
    | .unfinished => .unfinished

/-- More steps than any run can take. -/
def patience : Nat := 4611686018427387904

/-- Compiles a snapshot with data from outside. -/
def tryCompile (config : Config) (snapshot : Snapshot) (data : Json) : CompileResult :=
  compileWithin patience config snapshot data

/-- Compiles a snapshot; an error becomes a diagnostic. Nothing comes of a program that never
ends. -/
def compile (config : Config) (snapshot : Snapshot) (data : Json) : Option Compiled :=
  match tryCompile config snapshot data with
  | .compiled compiled => some compiled
  | .failed error => some (.failed error)
  | .unfinished => none

end Juxta
