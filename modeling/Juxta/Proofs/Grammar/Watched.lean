import Juxta.Grammar.Answer

/-!
# Answers that are watched

A node that is missing is taken to be absent, nodes above a height that is not reached are none, and
the parts of a conditional are cut or filled up. Nothing tells when that happens. A watched answer
raises an alarm then, which may be any step of building.

* `Build.raisedIf` : an alarm, under a condition;
* `Build.watchedPop`, `Build.watchedSplit` : nodes that are taken from the stack;
* `Rule.watched` : the answers of all rules. Those that take no nodes answer as always;
* `Rule.watched_silent` : an alarm that does nothing changes no answer.
-/

namespace Juxta

namespace Build

/-- The alarm, if something is wrong. -/
def raisedIf (alarm : Build Unit) (wrong : Prop) [Decidable wrong] : Build Unit :=
  if wrong then alarm else pure ()

/-- Takes the last node. It is wrong if none waits. -/
def watchedPop (alarm : Build Unit) : Build NodeId := do
  raisedIf alarm ((← get).nodes = [])
  pop

/-- Takes the nodes from a height on. It is wrong if fewer nodes wait. -/
def watchedSplit (alarm : Build Unit) (base : Nat) : Build (List NodeId) := do
  raisedIf alarm ((← get).nodes.length < base)
  split base

theorem raisedIf_silent (wrong : Prop) [Decidable wrong] :
    raisedIf (pure ()) wrong = pure () := ite_self _

theorem watchedPop_silent : watchedPop (pure ()) = pop := by
  unfold watchedPop
  simp only [raisedIf_silent]
  rfl

theorem watchedSplit_silent (base : Nat) : watchedSplit (pure ()) base = split base := by
  unfold watchedSplit
  simp only [raisedIf_silent]
  rfl

end Build

namespace Rule.Watched

open Build

variable (alarm : Build Unit)

def answerProgramEnd (token : Token) : Build Answer := do
  match token.kind with
  | .endOfText =>
    let sequence ← watchedPop alarm
    match ← foldNode sequence with
    | .error cause => return token.failed cause
    | .ok folded =>
      let root ← intern (.branch .prog [folded]) ((← get).store.coord? sequence)
      modify fun b => { b with root := some root }
      return .taken .punctuation []
  | _ => return token.instead .endOfProgram

def closeSequence (base : Nat) : Build Unit := do
  pushBranch .exprs (← watchedSplit alarm base) none

def answerSequence (base : Nat) (stage : SequenceStage) (token : Token) : Build Answer := do
  if token.kind = .dot then
    if stage = .afterTerm then return .taken .punctuation [.sequence base .afterDot]
    closeSequence alarm base
    return .taken .punctuation []
  else if token.kind.endsSequence then
    closeSequence alarm base
    return .passed []
  else return .passed [.expression, .sequence base .afterTerm]

def answerLetBody (name : String) (params : List String) (token : Token) : Build Answer := do
  let body ← watchedPop alarm
  let folded ← foldNode body
  exit
  match folded with
  | .error cause => return token.failed cause
  | .ok folded =>
    modify fun b =>
      let kind := if params.isEmpty then .value (b.store.unwrap folded)
        else .function params folded b.env.top
      { b with env := b.env.define b.env.top name kind }
    return .passed []

def answerClauses (base : Nat) (start : Coord) (token : Token) : Build Answer := do
  match token.kind with
  | .keyword .ofWord => return .taken .keyword [.unary true, .clauseColon, .clauses base start]
  | .keyword .endWord =>
    pushBranch .case (← watchedSplit alarm base) (some (start.upTo token.location.coord))
    return .taken .keyword []
  | _ => return token.instead .ofOrEnd

def answerClauseBody : Build Answer := do
  let body ← watchedPop alarm
  let pattern ← watchedPop alarm
  pushBranch .clause [pattern, body] none
  return .passed []

/-- It is wrong if there are not two or three parts. -/
def closeIf (base : Nat) (start : Coord) (token : Token) : Build Answer := do
  let parts ← watchedSplit alarm base
  raisedIf alarm (¬ (parts.length = 2 ∨ parts.length = 3))
  let slots := (parts ++ List.replicate 3 NodeId.absent).take 3
  pushBranch .ifThen slots (some (start.upTo token.location.coord))
  return .taken .keyword []

def answerIfBranch (base : Nat) (start : Coord) (token : Token) : Build Answer := do
  match token.kind with
  | .keyword .elseWord => return .taken .keyword [← opened, .elseBranch base start]
  | .keyword .endWord => closeIf alarm base start token
  | _ => return token.instead .elseOrEnd

def answerElseBranch (base : Nat) (start : Coord) (token : Token) : Build Answer := do
  match token.kind with
  | .keyword .endWord => closeIf alarm base start token
  | _ => return token.instead .endWord

def reduce (op : BinOp) : Build Unit := do
  let right ← watchedPop alarm
  let left ← watchedPop alarm
  let coord := (← get).store.joinedCoord? [left, right]
  if op = .concat then pushConcat [left, right] coord
  else pushBranch op.tag [left, right] coord

def reduceAll (least : Nat) : (waiting : List BinOp) → Build (List BinOp)
  | [] => return []
  | op :: rest => do
    if op.precedence < least then return op :: rest
    reduce alarm op
    reduceAll least rest

def answerOperator (waiting : List BinOp) (token : Token) : Build Answer := do
  match token.kind with
  | .operator op =>
    let waiting ← reduceAll alarm op.precedence waiting
    return .taken .operator [.operand (op :: waiting)]
  | _ =>
    discard <| reduceAll alarm 0 waiting
    return .passed []

def answerNegation (start : Coord) : Build Answer := do
  let operand ← watchedPop alarm
  let coord := match (← get).store.coord? operand with
    | some coord => start.join coord
    | none => start
  pushBranch .neg [operand] (some coord)
  return .passed []

def answerInterpolation (base : Nat) (start : Coord) (token : Token) : Build Answer := do
  match token.kind with
  | .stringMiddle text =>
    pushLeaf .str text token.location.coord
    return .taken .string [← opened, .interpolation base start]
  | .stringEnd text =>
    pushLeaf .str text token.location.coord
    pushConcat (← watchedSplit alarm base) (some (start.upTo token.location.coord))
    return .taken .string []
  | _ => return token.instead .restOfString

def answerRecordKey (base : Nat) (start : Coord) (token : Token) : Build Answer := do
  match token.kind with
  | .closeBrace =>
    pushBranch .record (← watchedSplit alarm base) (some (start.upTo token.location.coord))
    return .taken .punctuation []
  | .identifier key =>
    pushLeaf .str key token.location.coord
    return .taken .variable [.recordColon base start]
  | .string key =>
    pushLeaf .str key token.location.coord
    return .taken .string [.recordColon base start]
  | _ => return token.instead .keyOrBrace

def answerRecordValue (base : Nat) (start : Coord) (token : Token) : Build Answer := do
  let value ← watchedPop alarm
  let key ← watchedPop alarm
  pushBranch .binding [key, value] none
  if token.kind = .comma then return .taken .punctuation [.recordKey base start]
  return .passed [.recordKey base start]

def answerList (base : Nat) (pattern : Bool) (start : Coord) (token : Token) : Build Answer := do
  match token.kind with
  | .closeBracket =>
    pushBranch .list (← watchedSplit alarm base) (some (start.upTo token.location.coord))
    return .taken .punctuation []
  | .comma => return .taken .punctuation [.list base pattern start]
  | _ =>
    return .passed [if pattern then .unary pattern else .expression, .list base pattern start]

def answerParen (start : Coord) (token : Token) : Build Answer := do
  match token.kind with
  | .closeParen =>
    let inner ← watchedPop alarm
    pushBranch .paren [inner] (some (start.upTo token.location.coord))
    return .taken .punctuation []
  | _ => return token.instead .closeParen

def answerLambdaBody (params : List String) (start : Coord) (token : Token) : Build Answer := do
  match token.kind with
  | .closeAngle =>
    let body ← watchedPop alarm
    let folded ← foldNode body
    exit
    match folded with
    | .error cause => return token.failed cause
    | .ok folded =>
      let list ← intern (.branch .list (← internParams params)) none
      pushNode (.branch .lambda [list, folded]) (some (start.upTo token.location.coord))
      return .taken .punctuation []
  | _ => return token.instead .closeAngle

end Rule.Watched

namespace Rule

open Build

/-- What a rule does with a token while an alarm watches it. -/
def watched (alarm : Build Unit) (token : Token) : Rule → Build Answer
  | .programEnd => Watched.answerProgramEnd alarm token
  | .sequence base stage => Watched.answerSequence alarm base stage token
  | .letBody name params => Watched.answerLetBody alarm name params token
  | .clauses base start => Watched.answerClauses alarm base start token
  | .clauseBody => Watched.answerClauseBody alarm
  | .ifBranch base start => Watched.answerIfBranch alarm base start token
  | .elseBranch base start => Watched.answerElseBranch alarm base start token
  | .operator waiting => Watched.answerOperator alarm waiting token
  | .negation start => Watched.answerNegation alarm start
  | .interpolation base start => Watched.answerInterpolation alarm base start token
  | .recordKey base start => Watched.answerRecordKey alarm base start token
  | .recordValue base start => Watched.answerRecordValue alarm base start token
  | .list base pattern start => Watched.answerList alarm base pattern start token
  | .paren start => Watched.answerParen alarm start token
  | .lambdaBody params start => Watched.answerLambdaBody alarm params start token
  | rule => rule.answer token

theorem reduceAll_silent (least : Nat) (waiting : List BinOp) :
    Watched.reduceAll (pure ()) least waiting = reduceAll least waiting := by
  induction waiting with
  | nil => rfl
  | cons op rest ih =>
    unfold Watched.reduceAll reduceAll Watched.reduce reduce
    rw [ih]
    simp only [watchedPop_silent]

/-- Where nothing happens when something is missing, the answer is the usual one. -/
theorem watched_silent (token : Token) (rule : Rule) :
    rule.watched (pure ()) token = rule.answer token := by
  cases rule
  all_goals
    simp only [watched, answer, Watched.answerProgramEnd, answerProgramEnd, Watched.answerSequence,
      answerSequence, Watched.closeSequence, closeSequence, Watched.answerLetBody, answerLetBody,
      Watched.answerClauses, answerClauses, Watched.answerClauseBody, answerClauseBody,
      Watched.answerIfBranch, answerIfBranch, Watched.answerElseBranch, answerElseBranch,
      Watched.closeIf, closeIf, Watched.answerOperator, answerOperator, Watched.answerNegation,
      answerNegation, Watched.answerInterpolation, answerInterpolation, Watched.answerRecordKey,
      answerRecordKey, Watched.answerRecordValue, answerRecordValue, Watched.answerList, answerList,
      Watched.answerParen, answerParen, Watched.answerLambdaBody, answerLambdaBody,
      watchedPop_silent, watchedSplit_silent, raisedIf_silent, reduceAll_silent, pure_bind]
  all_goals rfl

end Rule

end Juxta
