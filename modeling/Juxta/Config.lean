import Juxta.Json.Typed
import Juxta.Runaway

/-!
# Configuration of a run

* `Scheduling`, `CaseFallthrough` : the choices;
* `Config` : the choices together, with the recursion limit and the version to accept;
* `Config.parse` : reads a configuration; what it leaves out has a default, and no other field is
  allowed; `Config.invalid` words a failure.
-/

namespace Juxta

open Json (Record Reader Failure)

/-- How visits of nodes follow one another. -/
inductive Scheduling where
  /-- Every visit and every result waits in a queue. -/
  | queued
  /-- A visit runs to its end at once. -/
  | direct
deriving DecidableEq, Inhabited

namespace Scheduling

def name : Scheduling → String
  | .queued => "async"
  | .direct => "sync"

def all : List (String × Scheduling) := [("async", .queued), ("sync", .direct)]

end Scheduling

/-- What a CASE gives none of whose clauses matches. -/
inductive CaseFallthrough where
  /-- An empty record. -/
  | empty
  /-- An empty record and a diagnostic. -/
  | report
deriving DecidableEq, Inhabited

namespace CaseFallthrough

def name : CaseFallthrough → String
  | .empty => "empty"
  | .report => "report"

def all : List (String × CaseFallthrough) := [("empty", .empty), ("report", .report)]

end CaseFallthrough

/-- The choices of a run. -/
structure Config where
  recursionLimit : Nat
  scheduling : Scheduling
  caseFallthrough : CaseFallthrough
  /-- The version that a snapshot must have, if it matters. -/
  version : Option String
deriving DecidableEq

namespace Config

/-- The configuration that leaves everything open. -/
def standard : Config := ⟨Runaway.defaultLimit, .queued, .empty, none⟩

instance : Inhabited Config := ⟨standard⟩

/-- The fields of a configuration as far as they have been read. -/
structure Draft where
  recursionLimit : Option Nat
  scheduling : Option Scheduling
  caseFallthrough : Option CaseFallthrough
  version : Option (Option String)

/-- The first number that is no recursion limit: one of more than 64 bits. -/
def limitBound : Nat := 18446744073709551616

def record : Record Draft Config where
  name := "CompilerConfig"
  fields := ["recursion_limit", "scheduling", "case_fallthrough", "version"]
  closed := true
  read field draft := match field with
    | "recursion_limit" => do
      return { draft with recursionLimit := some (← Reader.natural limitBound "usize") }
    | "scheduling" => do
      return { draft with scheduling := some (← Reader.variant Scheduling.all) }
    | "case_fallthrough" => do
      return { draft with caseFallthrough := some (← Reader.variant CaseFallthrough.all) }
    | _ => do return { draft with version := some (← Reader.optional Reader.text) }
  has field draft := match field with
    | "recursion_limit" => draft.recursionLimit.isSome
    | "scheduling" => draft.scheduling.isSome
    | "case_fallthrough" => draft.caseFallthrough.isSome
    | _ => draft.version.isSome
  optional _ := true
  finish draft := return {
    recursionLimit := draft.recursionLimit.getD standard.recursionLimit
    scheduling := draft.scheduling.getD standard.scheduling
    caseFallthrough := draft.caseFallthrough.getD standard.caseFallthrough
    version := draft.version.getD standard.version }

/-- The configuration that a text stands for. -/
def parse (text : String) : Except Failure Config :=
  Reader.readAll (Reader.record record ⟨none, none, none, none⟩) text

/-- What is said of a text that stands for no configuration. -/
def invalid (failure : Failure) : String := "Invalid config: " ++ failure.message

end Config

end Juxta
