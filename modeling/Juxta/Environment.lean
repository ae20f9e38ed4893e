import Juxta.Lexicon
import Juxta.Node
import Juxta.Runaway

/-!
# Scopes of a program text

What names mean while a program is parsed. Scopes are entered and left in order, and are numbered
from the outermost one, zero. Names are looked up in a scope and then in its parent: the scope
below, or, for the parameters of a function, the scope in which the function was defined.

* `WordKind`, `Word` : the meanings of a name;
* `Environment` : the open scopes, with the limit to their number;
* `Environment.enter`, `Environment.exit` : scopes;
* `Environment.addWord`, `Environment.define` : new words, and new meanings of words;
* `Environment.find?` : the innermost word of a name and the number of its scope.
-/

namespace Juxta

/-- What a name stands for. -/
inductive WordKind where
  /-- A node; the absent node for a parameter without an argument. -/
  | value (node : NodeId)
  /-- A definition whose body has not been parsed to its end. -/
  | pending
  /-- A definition with parameters, to be folded in the scope that is named. -/
  | function (params : List String) (body : NodeId) (scope : Nat)
  | builtin (tag : Tag) (arity : Nat)
deriving DecidableEq, Inhabited

/-- A name and what it stands for. -/
structure Word where
  name : String
  kind : WordKind
  /-- The position among the parameters. -/
  offset : Nat
deriving DecidableEq, Inhabited

/-- The words of a definition or of parameters, and the number of the scope to search next. -/
structure Environment.Scope where
  name : String
  words : Fields Word
  parent : Option Nat
deriving DecidableEq, Inhabited

/-- The open scopes, the innermost first, and the limit to their number. -/
structure Environment where
  scopes : List Environment.Scope
  limit : Nat
deriving DecidableEq, Inhabited

/-- A parameter or an argument. -/
def Word.value (name : String) (node : NodeId) (offset : Nat) : Word := ⟨name, .value node, offset⟩

/-- A definition that has begun. -/
def Word.pending (name : String) : Word := ⟨name, .pending, 0⟩

namespace Environment

/-- The outermost scope alone, with the builtin functions of a lexicon. -/
def ofLexicon (lexicon : Lexicon) (limit : Nat) : Environment :=
  let words := lexicon.builtins.map fun (name, builtin) =>
    (name, (⟨name, .builtin builtin.tag builtin.arity, 0⟩ : Word))
  ⟨[⟨"global", words, none⟩], limit⟩

/-- How many scopes are open. -/
def depth (env : Environment) : Nat := env.scopes.length

/-- The number of the innermost scope. -/
def top (env : Environment) : Nat := env.depth - 1

/-- How many more scopes may be entered. -/
def room (env : Environment) : Nat := env.limit - env.depth

/-- Opens a scope, below `parent` or else below the innermost scope. -/
def push (env : Environment) (name : String) (parent : Option Nat) : Environment :=
  { env with scopes := ⟨name, [], some (parent.getD env.top)⟩ :: env.scopes }

/-- Opens a scope if there is room for one. -/
def enter (env : Environment) (name : String) (parent : Option Nat) : Except Runaway Environment :=
  if env.limit ≤ env.depth then .error ⟨env.limit, name⟩ else .ok (env.push name parent)

/-- Closes the innermost scope, unless it is the only one. -/
def exit (env : Environment) : Environment :=
  match env.scopes with
  | _ :: outer :: rest => { env with scopes := outer :: rest }
  | _ => env

/-- The scope with a number. -/
def scope? (env : Environment) (number : Nat) : Option Scope :=
  if number < env.depth then env.scopes[env.top - number]? else none

/-- Adds a word to the innermost scope, in place of one with the same name. -/
def addWord (env : Environment) (word : Word) : Environment :=
  { env with scopes := env.scopes.modifyHead fun scope =>
      { scope with words := scope.words.set word.name word } }

/-- Adds words in order. -/
def addWords (env : Environment) (words : List Word) : Environment := words.foldl addWord env

/-- Gives a word of a scope another meaning; a name that is no word there gets none. -/
def define (env : Environment) (number : Nat) (name : String) (kind : WordKind) : Environment :=
  if number < env.depth then
    { env with scopes := env.scopes.modify (env.top - number) fun scope =>
        match scope.words.get? name with
        | some word => { scope with words := scope.words.set name { word with kind } }
        | none => scope }
  else env

/-- Looks for a name from the scope with the number `from` on, among the innermost `depth`
scopes. -/
def search (name : String) : (scopes : List Scope) → (depth target : Nat) → Option (Word × Nat)
  | [], _, _ => none
  | scope :: below, depth, target =>
    if target + 1 = depth then
      match scope.words.get? name with
      | some word => some (word, target)
      | none => match scope.parent with
        | some parent => search name below (depth - 1) parent
        | none => none
    else search name below (depth - 1) target

/-- The innermost word with a name, and the number of its scope. -/
def find? (env : Environment) (name : String) : Option (Word × Nat) :=
  search name env.scopes env.depth env.top

end Environment

end Juxta
