import Juxta.Grammar.Builder

/-!
# What rules do with tokens

* `Answer` : a rule takes the token, passes it on, or refuses it; the first two name the rules that
  take its place;
* `Rule.answer` : the grammar, one equation for every rule and kind of token;
* `Rule.measure` : falls whenever a rule passes a token on (`measure_lt_of_passed`), so that some
  rule takes or refuses it.
-/

namespace Juxta

/-- What a rule does with a token. The rules take the place of the one that answers, the first of
them next. -/
inductive Answer where
  | taken (as : TokenClass) (rules : List Rule)
  | passed (rules : List Rule)
  | refused (error : SyntaxError)

/-- Refuses a token in favour of another one. -/
def Token.instead (token : Token) (expected : Expectation) : Answer :=
  .refused (.unexpected expected token.kind token.location)

/-- Refuses a token because of a failure of folding. -/
def Token.failed (token : Token) (cause : FoldError) : Answer :=
  .refused (.folding cause token.location)

namespace Rule

open Build

/-- A sequence whose nodes lie on top of those that wait. -/
def opened : Build Rule := do return .sequence (← height) .start

/-! ## Programs, sequences and definitions -/

def answerProgramEnd (token : Token) : Build Answer := do
  match token.kind with
  | .endOfText =>
    let sequence ← pop
    match ← foldNode sequence with
    | .error cause => return token.failed cause
    | .ok folded =>
      let root ← intern (.branch .prog [folded]) ((← get).store.coord? sequence)
      modify fun b => { b with root := some root }
      return .taken .punctuation []
  | _ => return token.instead .endOfProgram

/-- Makes one node of the terms of a sequence. -/
def closeSequence (base : Nat) : Build Unit := do pushBranch .exprs (← split base) none

/-- One dot separates two terms. A second one ends the sequence, as does a token that cannot belong
to it. -/
def answerSequence (base : Nat) (stage : SequenceStage) (token : Token) : Build Answer := do
  if token.kind = .dot then
    if stage = .afterTerm then return .taken .punctuation [.sequence base .afterDot]
    closeSequence base
    return .taken .punctuation []
  else if token.kind.endsSequence then
    closeSequence base
    return .passed []
  else return .passed [.expression, .sequence base .afterTerm]

def answerLetName (token : Token) : Build Answer := do
  match token.kind with
  | .identifier name =>
    addWord (.pending name)
    match ← enter name with
    | .error cause => return token.failed cause
    | .ok () => return .taken .definition [.letParams name []]
  | _ => return token.instead .name

def answerLetParams (name : String) (params : List String) (token : Token) : Build Answer := do
  match token.kind with
  | .identifier param =>
    addWord (.value param .absent params.length)
    return .taken .parameter [.letParams name (params ++ [param])]
  | .equal => return .taken .punctuation [← opened, .letBody name params]
  | _ => return token.instead .parameterOrEqual

/-- Gives a name its meaning: without parameters the folded body itself. -/
def answerLetBody (name : String) (params : List String) (token : Token) : Build Answer := do
  let body ← pop
  let folded ← foldNode body
  exit
  match folded with
  | .error cause => return token.failed cause
  | .ok folded =>
    modify fun b =>
      let kind := if params.isEmpty then .value (b.store.unwrap folded)
        else .function params folded b.env.top
      { b with env := b.env.define b.env.top name kind }
    return .passed []

/-! ## Cases and conditionals -/

def answerConditional (token : Token) : Build Answer := do
  match token.kind with
  | .keyword .caseWord =>
    let base ← height
    return .taken .keyword [← opened, .clauses base token.location.coord]
  | .keyword .ifWord =>
    let base ← height
    return .taken .keyword [← opened, .ifCondition base token.location.coord]
  | _ => return .passed [.operand []]

def answerClauses (base : Nat) (start : Coord) (token : Token) : Build Answer := do
  match token.kind with
  | .keyword .ofWord => return .taken .keyword [.unary true, .clauseColon, .clauses base start]
  | .keyword .endWord =>
    pushBranch .case (← split base) (some (start.upTo token.location.coord))
    return .taken .keyword []
  | _ => return token.instead .ofOrEnd

def answerClauseColon (token : Token) : Build Answer := do
  match token.kind with
  | .colon => return .taken .punctuation [← opened, .clauseBody]
  | _ => return token.instead .colon

def answerClauseBody : Build Answer := do
  let body ← pop
  let pattern ← pop
  pushBranch .clause [pattern, body] none
  return .passed []

/-- Makes a conditional of its condition and its branches; the second one may be missing. -/
def closeIf (base : Nat) (start : Coord) (token : Token) : Build Answer := do
  let parts ← split base
  let slots := (parts ++ List.replicate 3 NodeId.absent).take 3
  pushBranch .ifThen slots (some (start.upTo token.location.coord))
  return .taken .keyword []

def answerIfCondition (base : Nat) (start : Coord) (token : Token) : Build Answer := do
  match token.kind with
  | .keyword .thenWord => return .taken .keyword [← opened, .ifBranch base start]
  | _ => return token.instead .thenWord

def answerIfBranch (base : Nat) (start : Coord) (token : Token) : Build Answer := do
  match token.kind with
  | .keyword .elseWord => return .taken .keyword [← opened, .elseBranch base start]
  | .keyword .endWord => closeIf base start token
  | _ => return token.instead .elseOrEnd

def answerElseBranch (base : Nat) (start : Coord) (token : Token) : Build Answer := do
  match token.kind with
  | .keyword .endWord => closeIf base start token
  | _ => return token.instead .endWord

/-! ## Operations -/

/-- Makes one node of an operator and its two operands. Concatenation takes a list. -/
def reduce (op : BinOp) : Build Unit := do
  let right ← pop
  let left ← pop
  let coord := (← get).store.joinedCoord? [left, right]
  if op = .concat then pushConcat [left, right] coord
  else pushBranch op.tag [left, right] coord

/-- Reduces the operators that bind at least as tight as `least`, the last one first, and returns
those that still wait. -/
def reduceAll (least : Nat) : (waiting : List BinOp) → Build (List BinOp)
  | [] => return []
  | op :: rest => do
    if op.precedence < least then return op :: rest
    reduce op
    reduceAll least rest

def answerOperator (waiting : List BinOp) (token : Token) : Build Answer := do
  match token.kind with
  | .operator op =>
    let waiting ← reduceAll op.precedence waiting
    return .taken .operator [.operand (op :: waiting)]
  | _ =>
    discard <| reduceAll 0 waiting
    return .passed []

def answerUnary (pattern : Bool) (token : Token) : Build Answer := do
  match token.kind with
  | .minus => return .taken .number [.unary pattern, .negation token.location.coord]
  | _ => return .passed [.primary pattern]

def answerNegation (start : Coord) : Build Answer := do
  let operand ← pop
  let coord := match (← get).store.coord? operand with
    | some coord => start.join coord
    | none => start
  pushBranch .neg [operand] (some coord)
  return .passed []

/-! ## Primaries -/

/-- Reads a name. A name that stands for a value is replaced by it; one that stands for nothing is
an error, but parsing goes on. -/
def readName (name : String) (pattern : Bool) (location : Location) : Build TokenClass := do
  if pattern && name == "_" then
    pushNode ⟨.wildcard, []⟩ (some location.coord)
    return .variable
  match (← get).env.find? name with
  | some (⟨_, .value id, _⟩, _) =>
    if id.isPresent then
      push id
      return .value
    pushLeaf .ident name location.coord
    return .parameter
  | some _ =>
    pushLeaf .ident name location.coord
    return .function
  | none =>
    report (.unknownName name location)
    pushLeaf .ident name location.coord
    return .error

def answerPrimary (pattern : Bool) (token : Token) : Build Answer := do
  let coord := token.location.coord
  match token.kind with
  | .number lexeme =>
    pushLeaf .num lexeme coord
    return .taken .number []
  | .string text =>
    pushLeaf .str text coord
    return .taken .string []
  | .stringStart text =>
    let base ← height
    pushLeaf .str text coord
    return .taken .string [← opened, .interpolation base coord]
  | .keyword .trueWord =>
    pushNode ⟨.bool, [.flag true]⟩ (some coord)
    return .taken .keyword []
  | .keyword .falseWord =>
    pushNode ⟨.bool, [.flag false]⟩ (some coord)
    return .taken .keyword []
  | .keyword .nullWord =>
    pushNode ⟨.null, []⟩ (some coord)
    return .taken .keyword []
  | .openBrace => return .taken .punctuation [.recordKey (← height) coord]
  | .openBracket => return .taken .punctuation [.list (← height) pattern coord]
  | .openParen => return .taken .punctuation [← opened, .paren coord]
  | .openAngle =>
    match ← enter "lambda" with
    | .error cause => return token.failed cause
    | .ok () => return .taken .punctuation [.lambdaParams [] coord]
  | .identifier name => return .taken (← readName name pattern token.location) []
  | _ => return token.instead .expression

def answerInterpolation (base : Nat) (start : Coord) (token : Token) : Build Answer := do
  match token.kind with
  | .stringMiddle text =>
    pushLeaf .str text token.location.coord
    return .taken .string [← opened, .interpolation base start]
  | .stringEnd text =>
    pushLeaf .str text token.location.coord
    pushConcat (← split base) (some (start.upTo token.location.coord))
    return .taken .string []
  | _ => return token.instead .restOfString

def answerRecordKey (base : Nat) (start : Coord) (token : Token) : Build Answer := do
  match token.kind with
  | .closeBrace =>
    pushBranch .record (← split base) (some (start.upTo token.location.coord))
    return .taken .punctuation []
  | .identifier key =>
    pushLeaf .str key token.location.coord
    return .taken .variable [.recordColon base start]
  | .string key =>
    pushLeaf .str key token.location.coord
    return .taken .string [.recordColon base start]
  | _ => return token.instead .keyOrBrace

def answerRecordColon (base : Nat) (start : Coord) (token : Token) : Build Answer := do
  match token.kind with
  | .colon => return .taken .punctuation [← opened, .recordValue base start]
  | _ => return token.instead .colon

def answerRecordValue (base : Nat) (start : Coord) (token : Token) : Build Answer := do
  let value ← pop
  let key ← pop
  pushBranch .binding [key, value] none
  if token.kind = .comma then return .taken .punctuation [.recordKey base start]
  return .passed [.recordKey base start]

def answerList (base : Nat) (pattern : Bool) (start : Coord) (token : Token) : Build Answer := do
  match token.kind with
  | .closeBracket =>
    pushBranch .list (← split base) (some (start.upTo token.location.coord))
    return .taken .punctuation []
  | .comma => return .taken .punctuation [.list base pattern start]
  | _ =>
    return .passed [if pattern then .unary pattern else .expression, .list base pattern start]

def answerParen (start : Coord) (token : Token) : Build Answer := do
  match token.kind with
  | .closeParen =>
    let inner ← pop
    pushBranch .paren [inner] (some (start.upTo token.location.coord))
    return .taken .punctuation []
  | _ => return token.instead .closeParen

/-! ## Lambdas -/

def answerLambdaParams (params : List String) (start : Coord) (token : Token) : Build Answer := do
  match token.kind with
  | .identifier param =>
    addWord (.value param .absent params.length)
    return .taken .parameter [.lambdaParams (params ++ [param]) start]
  | .colon => return .taken .punctuation [← opened, .lambdaBody params start]
  | _ => return token.instead .parameterOrColon

/-- Stores the names of parameters. -/
def internParams : (params : List String) → Build (List NodeId)
  | [] => return []
  | param :: rest => do
    let id ← intern (.leaf .ident param) none
    return id :: (← internParams rest)

/-- The body is folded while the parameters stand for themselves. -/
def answerLambdaBody (params : List String) (start : Coord) (token : Token) : Build Answer := do
  match token.kind with
  | .closeAngle =>
    let body ← pop
    let folded ← foldNode body
    exit
    match folded with
    | .error cause => return token.failed cause
    | .ok folded =>
      let list ← intern (.branch .list (← internParams params)) none
      pushNode (.branch .lambda [list, folded]) (some (start.upTo token.location.coord))
      return .taken .punctuation []
  | _ => return token.instead .closeAngle

/-! ## All rules -/

/-- What a rule does with a token. -/
def answer (token : Token) : Rule → Build Answer
  | .program => do return .passed [← opened, .programEnd]
  | .programEnd => answerProgramEnd token
  | .sequence base stage => answerSequence base stage token
  | .expression =>
    return if token.kind = .keyword .letWord then .taken .keyword [.letName]
      else .passed [.conditional]
  | .letName => answerLetName token
  | .letParams name params => answerLetParams name params token
  | .letBody name params => answerLetBody name params token
  | .conditional => answerConditional token
  | .clauses base start => answerClauses base start token
  | .clauseColon => answerClauseColon token
  | .clauseBody => answerClauseBody
  | .ifCondition base start => answerIfCondition base start token
  | .ifBranch base start => answerIfBranch base start token
  | .elseBranch base start => answerElseBranch base start token
  | .operand waiting => return .passed [.unary false, .operator waiting]
  | .operator waiting => answerOperator waiting token
  | .unary pattern => answerUnary pattern token
  | .negation start => answerNegation start
  | .primary pattern => answerPrimary pattern token
  | .interpolation base start => answerInterpolation base start token
  | .recordKey base start => answerRecordKey base start token
  | .recordColon base start => answerRecordColon base start token
  | .recordValue base start => answerRecordValue base start token
  | .list base pattern start => answerList base pattern start token
  | .paren start => answerParen start token
  | .lambdaParams params start => answerLambdaParams params start token
  | .lambdaBody params start => answerLambdaBody params start token

end Rule

end Juxta
