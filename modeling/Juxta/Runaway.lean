/-!
# Runaway recursion

Scopes nest up to a limit, while a program is parsed and while it is evaluated.

* `Runaway` : the scope that would have been one too many;
* `Runaway.defaultLimit` : the limit unless something else is said;
* `Runaway.entering`, `Runaway.calling` : the wording for definitions that are expanded and for
  functions that are called, each with its advice.
-/

namespace Juxta

/-- The scope that would have been one too many, and the limit. -/
structure Runaway where
  limit : Nat
  name : String
deriving DecidableEq, Inhabited

namespace Runaway

/-- How many scopes may be nested unless something else is said. -/
def defaultLimit : Nat := 380

/-- What is said of a definition that expands itself. -/
def entering (r : Runaway) : String :=
  s!"Runaway recursion: more than {r.limit} nested scopes while entering '{r.name}'"

def enteringHelp : String :=
  "a definition keeps expanding itself without reaching a literal case"

/-- What is said of a function that calls itself. -/
def calling (r : Runaway) : String :=
  s!"Runaway recursion: more than {r.limit} nested scopes while calling '{r.name}'"

def callingHelp : String := "a function keeps calling itself without reaching a base case"

end Runaway

end Juxta
