import Juxta.Folding
import Juxta.Token.Basic

/-!
# Rules of the grammar

* `TokenClass` : what a token turned out to be, as an editor would colour it;
* `Rule` : a rule of the grammar that waits for its next token;
* `Expectation`, `SyntaxError` : why a program is refused, with the wording;
* `TokenKind.endsSequence` : the tokens that may follow a sequence.
-/

namespace Juxta

/-- What a token turned out to be. -/
inductive TokenClass where
  | keyword | number | string | variable | value | function | parameter | definition
  | punctuation | operator | comment | error
deriving DecidableEq, Inhabited

def TokenClass.name : TokenClass → String
  | .keyword => "keyword" | .number => "number" | .string => "string" | .variable => "variable"
  | .value => "val" | .function => "function" | .parameter => "param" | .definition => "def"
  | .punctuation => "punc" | .operator => "operator" | .comment => "comment" | .error => "error"

/-! ## Rules -/

/-- How far a sequence has come. -/
inductive SequenceStage where
  | start
  | afterTerm
  /-- A dot has separated two terms; another one would end the sequence. -/
  | afterDot
deriving DecidableEq, Inhabited

/-- A rule that waits for a token. The nodes that belong to it lie on a stack from the height `base`
on; `start` is the place of its first token. In patterns names do not stand for sequences, and a
wildcard is allowed. -/
inductive Rule where
  | program
  /-- The end of the program, after its sequence. -/
  | programEnd
  | sequence (base : Nat) (stage : SequenceStage)
  /-- A definition or a conditional expression. -/
  | expression
  | letName
  | letParams (name : String) (params : List String)
  | letBody (name : String) (params : List String)
  /-- A case, an if or an operation. -/
  | conditional
  | clauses (base : Nat) (start : Coord)
  | clauseColon
  | clauseBody
  | ifCondition (base : Nat) (start : Coord)
  | ifBranch (base : Nat) (start : Coord)
  | elseBranch (base : Nat) (start : Coord)
  /-- An operand; the operators before it wait, the last of them first. -/
  | operand (waiting : List BinOp)
  /-- An operator, or what ends an operation. -/
  | operator (waiting : List BinOp)
  | unary (pattern : Bool)
  | negation (start : Coord)
  | primary (pattern : Bool)
  | interpolation (base : Nat) (start : Coord)
  | recordKey (base : Nat) (start : Coord)
  | recordColon (base : Nat) (start : Coord)
  | recordValue (base : Nat) (start : Coord)
  | list (base : Nat) (pattern : Bool) (start : Coord)
  | paren (start : Coord)
  | lambdaParams (params : List String) (start : Coord)
  | lambdaBody (params : List String) (start : Coord)
deriving DecidableEq, Inhabited

/-- Tokens that end a sequence without belonging to it. -/
def TokenKind.endsSequence : TokenKind → Bool
  | .endOfText | .closeParen | .closeBracket | .closeBrace | .closeAngle | .comma
  | .keyword .ofWord | .keyword .endWord | .keyword .thenWord | .keyword .elseWord
  | .stringMiddle _ | .stringEnd _ => true
  | _ => false

/-! ## Errors -/

/-- What a rule would have taken. -/
inductive Expectation where
  | endOfProgram | name | parameterOrEqual | ofOrEnd | colon | thenWord | elseOrEnd | endWord
  | expression | restOfString | keyOrBrace | closeParen | parameterOrColon | closeAngle
deriving DecidableEq, Inhabited

def Expectation.phrase : Expectation → String
  | .endOfProgram => "the end of the program"
  | .name => "a name"
  | .parameterOrEqual => "a parameter or '='"
  | .ofOrEnd => "the 'of' or 'end' keyword"
  | .colon => "a ':'"
  | .thenWord => "the 'then' keyword"
  | .elseOrEnd => "the 'else' or 'end' keyword"
  | .endWord => "the 'end' keyword"
  | .expression => "an expression"
  | .restOfString => "the rest of the string"
  | .keyOrBrace => "a key or '\x7d'"
  | .closeParen => "a ')'"
  | .parameterOrColon => "a parameter or ':'"
  | .closeAngle => "a '>'"

/-- What is wrong with a program. -/
inductive SyntaxError where
  | unexpected (expected : Expectation) (found : TokenKind) (location : Location)
  | unknownName (name : String) (location : Location)
  | folding (cause : FoldError) (location : Location)
deriving DecidableEq

namespace SyntaxError

def location : SyntaxError → Location
  | .unexpected _ _ location | .unknownName _ location | .folding _ location => location

/-- Whether the program cannot be read on. -/
def isFatal : SyntaxError → Bool
  | .unknownName .. => false
  | _ => true

def message : SyntaxError → String
  | .unexpected expected found _ => s!"Expecting {expected.phrase}, found {found.describe}."
  | .unknownName name _ => s!"Name '{name}' not found."
  | .folding cause _ => cause.message

/-- What is said at the place itself. -/
def label : SyntaxError → String
  | .unexpected _ found _ => s!"Found {found.describe} here"
  | .unknownName .. => "Used here"
  | .folding .. => "While folding this"

/-- Advice, if there is any. -/
def help? : SyntaxError → Option String
  | .unknownName .. => some "names are defined with `let` before they are used"
  | _ => none

end SyntaxError

end Juxta
