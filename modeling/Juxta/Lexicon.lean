import Juxta.Tag
import Juxta.Fields

/-!
# Words of the language

* `Keyword` : the words that no lexicon can change;
* `BinOp` : binary operators, with their precedence and the tag of the node they build;
* `Lexicon` : the lexemes of operators and the names of builtin functions; `Lexicon.bare` has none
  of them, `Lexicon.standard` has the usual ones;
* `Lexicon.builtinList` : the builtin functions in the order of their names.
-/

namespace Juxta

/-! ## Keywords -/

/-- A word with a fixed meaning. -/
inductive Keyword where
  | letWord | ifWord | thenWord | elseWord | caseWord | ofWord | endWord
  | trueWord | falseWord | nullWord
deriving DecidableEq, Inhabited

namespace Keyword

def text : Keyword → String
  | .letWord => "let" | .ifWord => "if" | .thenWord => "then" | .elseWord => "else"
  | .caseWord => "case" | .ofWord => "of" | .endWord => "end"
  | .trueWord => "true" | .falseWord => "false" | .nullWord => "null"

def all : List Keyword :=
  [.letWord, .ifWord, .thenWord, .elseWord, .caseWord, .ofWord, .endWord, .trueWord, .falseWord,
   .nullWord]

def ofText? (word : String) : Option Keyword := all.find? (fun keyword => keyword.text == word)

end Keyword

/-! ## Operators -/

/-- A binary operator. Subtraction has no lexeme in the standard lexicon, where `-` is
negation. -/
inductive BinOp where
  | or | and | eq | ne | le | ge | add | sub | concat | mul | div | mod | pow
deriving DecidableEq, Inhabited

namespace BinOp

def name : BinOp → String
  | .or => "Or" | .and => "And" | .eq => "Eq" | .ne => "Ne" | .le => "Le" | .ge => "Ge"
  | .add => "Add" | .sub => "Sub" | .concat => "Concat" | .mul => "Mul" | .div => "Div"
  | .mod => "Mod" | .pow => "Pow"

def all : List BinOp :=
  [.or, .and, .eq, .ne, .le, .ge, .add, .sub, .concat, .mul, .div, .mod, .pow]

def ofName? (text : String) : Option BinOp := all.find? (fun op => op.name == text)

/-- Binding strength: a greater one binds tighter. Operators of one strength group from the
left. -/
def precedence : BinOp → Nat
  | .or => 1
  | .and => 2
  | .eq | .ne => 3
  | .le | .ge => 4
  | .add | .sub | .concat => 5
  | .mul | .div | .mod => 6
  | .pow => 7

/-- The tag of the node that an operator builds. -/
def tag : BinOp → Tag
  | .or => .or | .and => .and | .eq => .eq | .ne => .ne | .le => .le | .ge => .ge
  | .add => .add | .sub => .sub | .concat => .concat | .mul => .mul | .div => .div
  | .mod => .mod | .pow => .pow

end BinOp

/-! ## Lexica -/

/-- A function of the host: the tag of the node it builds and how many terms it takes. -/
structure Builtin where
  tag : Tag
  arity : Nat
deriving DecidableEq, Inhabited

/-- The lexemes of operators and the names of builtin functions. -/
structure Lexicon where
  operators : Fields BinOp
  builtins : Fields Builtin
deriving Inhabited

namespace Lexicon

/-- The lexicon without operators and builtin functions. -/
def bare : Lexicon := ⟨[], []⟩

/-- Gives a lexeme to an operator; a lexeme that has one loses it. -/
def withOperator (l : Lexicon) (lexeme : String) (op : BinOp) : Lexicon :=
  { l with operators := l.operators.set lexeme op }

/-- Gives a name to a builtin function; a name that has one loses it. -/
def withBuiltin (l : Lexicon) (name : String) (tag : Tag) (arity : Nat) : Lexicon :=
  { l with builtins := l.builtins.set name ⟨tag, arity⟩ }

def operator? (l : Lexicon) (lexeme : String) : Option BinOp := l.operators.get? lexeme

def builtin? (l : Lexicon) (name : String) : Option Builtin := l.builtins.get? name

/-- The builtin functions in the order of their names. -/
def builtinList (l : Lexicon) : List (String × Builtin) :=
  l.builtins.mergeSort fun a b => !decide (b.1 < a.1)

/-- The usual operators and builtin functions. -/
def standard : Lexicon where
  operators := [
    ("or", .or), ("and", .and), ("==", .eq), ("!=", .ne), ("<=", .le), (">=", .ge), ("+", .add),
    ("++", .concat), ("*", .mul), ("/", .div), ("%", .mod), ("^", .pow)]
  builtins := [
    ("add", ⟨.add, 2⟩), ("sub", ⟨.sub, 2⟩), ("mul", ⟨.mul, 2⟩), ("div", ⟨.div, 2⟩),
    ("mod", ⟨.mod, 2⟩), ("pow", ⟨.pow, 2⟩), ("neg", ⟨.neg, 1⟩), ("min", ⟨.min, 2⟩),
    ("max", ⟨.max, 2⟩), ("range", ⟨.range, 3⟩), ("eq", ⟨.eq, 2⟩), ("ne", ⟨.ne, 2⟩),
    ("lt", ⟨.lt, 2⟩), ("gt", ⟨.gt, 2⟩), ("le", ⟨.le, 2⟩), ("ge", ⟨.ge, 2⟩),
    ("equiv", ⟨.equiv, 2⟩), ("not", ⟨.not, 1⟩), ("concat", ⟨.concat, 1⟩), ("map", ⟨.map, 2⟩),
    ("filter", ⟨.filter, 2⟩), ("reduce", ⟨.reduce, 3⟩), ("apply", ⟨.apply, 2⟩), ("hd", ⟨.hd, 1⟩),
    ("tl", ⟨.tl, 1⟩), ("nth", ⟨.nth, 2⟩), ("len", ⟨.len, 1⟩), ("get", ⟨.get, 2⟩),
    ("set", ⟨.set, 3⟩), ("val", ⟨.val, 2⟩), ("key", ⟨.key, 2⟩), ("data", ⟨.data, 1⟩),
    ("arg", ⟨.arg, 1⟩), ("json", ⟨.json, 1⟩), ("print", ⟨.print, 1⟩)]

end Lexicon

end Juxta
