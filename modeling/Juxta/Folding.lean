import Juxta.Environment
import Juxta.Number
import Juxta.Store

/-!
# Folding

Programs are sequences of terms in which a function stands before its arguments. Folding a sequence
finds the arguments: the name of a function takes as many terms after it as it has parameters. With
all of them its body is folded anew in a scope where the parameters stand for the arguments; with
fewer the result is a lambda over the parameters that are left. Operations on literals are carried
out, and conditions and cases on literals are decided.

* `Fold` : steps that store nodes and may fail; what they have stored remains if they do;
* `Descent` : how terms reach other sequences, those of their children and those in new scopes;
* `Descent.term`, `Descent.terms` : one term with the terms that it takes, and several in a row;
* `foldWithin`, `fold` : a node by itself. Every scope takes from the room that is left, and in one
  scope children come before their parents, so that folding ends;
* `Store.literalTruth?`, `Store.decide?` : what is known of conditions and cases before evaluation.
-/

namespace Juxta

/-- Why folding fails. -/
inductive FoldError where
  | runaway (cause : Runaway)
  /-- A node below another one does not come before it. No such node arises while parsing. -/
  | unordered (node : NodeId)
deriving DecidableEq

def FoldError.message : FoldError → String
  | .runaway cause => cause.entering
  | .unordered node => s!"Node {node.text} does not come before the node it belongs to"

/-! ## What a store tells -/

namespace Store

/-- The element of a sequence that has only one; any other node is itself. -/
def unwrap (s : Store) (id : NodeId) : NodeId :=
  match s.node? id with
  | some ⟨.exprs, [.node only]⟩ => only
  | some ⟨.exprs, [_]⟩ => .absent
  | _ => id

/-- The parameters of a lambda. -/
def params (s : Store) (lambda : NodeId) : List String :=
  match (s.node? lambda).bind fun node => s.node? (node.child 0) with
  | some list => list.children.filterMap fun param => (s.node? param).bind Node.text?
  | none => []

/-- The body of a lambda. -/
def body (s : Store) (lambda : NodeId) : NodeId :=
  match s.node? lambda with
  | some node => node.child 1
  | none => .absent

/-- The number that a literal stands for. -/
def literalNumber? (s : Store) (id : NodeId) : Option Decimal :=
  match s.node? id with
  | some node => if node.tag = .num then node.text?.bind Number.parse? else none
  | none => none

/-- Whether a literal counts as true. -/
def literalTruth? (s : Store) (id : NodeId) : Option Bool :=
  match s.node? id with
  | none => none
  | some node => match node.tag with
    | .bool => node.flag?
    | .null => some false
    | .num => (node.text?.bind Number.parse?).map fun n => !n.isZero
    | .str => node.text?.map fun text => text != ""
    | _ => none

/-- Whether two nodes are literals of one number. -/
def sameNumber (pattern value : Node) : Bool :=
  match pattern.text?.bind Number.parse?, value.text?.bind Number.parse? with
  | some p, some v => p.eq v
  | _, _ => false

/-- Whether a literal matches a pattern, where that is known before evaluation. -/
def decide? (s : Store) (value pattern : NodeId) : Option Bool :=
  if value = pattern then some true
  else match s.node? pattern, s.node? value with
    | some p, some v =>
      if p.tag = .wildcard then some true
      else if p.tag = .num && v.tag = .num then some (sameNumber p v)
      else if p.tag.isLiteral || p.tag = .list || p.tag = .record then some false
      else none
    | _, _ => none

/-- The result of an operation on literals. -/
def computed? (s : Store) (tag : Tag) (operands : List NodeId) : Option Node :=
  match operands with
  | [left, right] => do
    let l ← s.literalNumber? left
    let r ← s.literalNumber? right
    match tag with
    | .add | .sub | .mul | .div | .mod | .pow =>
      (Number.apply tag l r).toOption.map fun n => .leaf .num (Number.format n)
    | _ => (Number.compare? tag l r).map fun holds => ⟨.bool, [.flag holds]⟩
  | [operand] =>
    if tag = .neg then
      (s.literalNumber? operand).map fun n => .leaf .num (Number.format n.neg)
    else none
  | _ => none

end Store

/-! ## Steps -/

/-- A step that stores nodes and may fail. -/
abbrev Fold := ExceptT FoldError (StateM Store)

namespace Fold

/-- Stores a node. -/
def intern (node : Node) (coord : Option Coord) : Fold NodeId :=
  modifyGet fun s => s.intern node coord

/-- Stores a node in the place of another one. -/
def rebuild (origin : NodeId) (tag : Tag) (children : List NodeId) : Fold NodeId :=
  modifyGet fun s => s.intern (.branch tag children) (s.coord? origin)

/-- Stores the leaves for some names. -/
def idents : List String → Fold (List NodeId)
  | [] => return []
  | name :: rest => do
    let id ← intern (.leaf .ident name) none
    return id :: (← idents rest)

/-- Stores a lambda over `unbound` parameters, or leaves `body` as it is if there are none. -/
def residual (unbound : List String) (body : NodeId) : Fold NodeId :=
  if unbound.isEmpty then return body
  else do
    let list ← intern (.branch .list (← idents unbound)) none
    let sequence ← if (← get).tag? body = some .exprs then pure body
      else intern (.branch .exprs [body]) none
    intern (.branch .lambda [list, sequence]) none

/-- Stores an operation in the place of another node, or its result if its operands are
literals. -/
def operation (origin : NodeId) (tag : Tag) (operands : List NodeId) : Fold NodeId := do
  match (← get).computed? tag operands with
  | some result => intern result none
  | none => rebuild origin tag operands

/-- Stores the node of a builtin function. Arguments that are missing become parameters. -/
def builtin (origin : NodeId) (tag : Tag) (arity : Nat) (arguments : List NodeId) :
    Fold NodeId := do
  let unbound := (List.range' arguments.length (arity - arguments.length)).map fun i => s!"${i}"
  let node ← operation origin tag (arguments ++ (← idents unbound))
  residual unbound node

end Fold

/-- Words for parameters, from the position `offset` on: each stands for its argument, or for
nothing if there is none. -/
def bindParams (offset : Nat) : (params : List String) → (arguments : List NodeId) → List Word
  | [], _ => []
  | param :: rest, arguments =>
    Word.value param (arguments.headD .absent) offset :: bindParams (offset + 1) rest arguments.tail

/-! ## Terms -/

/-- Where a term stands. -/
inductive Stand where
  /-- In a sequence of its own: a lambda takes the terms after it as arguments. -/
  | head
  /-- Among the arguments of a function. -/
  | argument
deriving DecidableEq

/-- How the terms of a sequence reach other sequences. -/
structure Descent where
  env : Environment
  /-- Nodes of the sequence come before this number. -/
  bound : Nat
  /-- Folds the children of a node as a sequence. -/
  below : List NodeId → Fold (List NodeId)
  /-- Folds a node in a new scope with some words, below `parent` or the innermost scope. -/
  inside : (name : String) → (parent : Option Nat) → List Word → NodeId → Fold NodeId

namespace Descent

/-- Folds a child by itself. -/
def child (d : Descent) (id : NodeId) : Fold NodeId := do
  if id.isAbsent then return id
  return (← d.below [id]).headD id

/-- Folds children one by one. -/
def children (d : Descent) : List NodeId → Fold (List NodeId)
  | [] => return []
  | id :: rest => do
    let folded ← d.child id
    return folded :: (← d.children rest)

/-- Folds the body of a function with its arguments in the place of the parameters. -/
def expand (d : Descent) (name : String) (parent : Option Nat) (params : List String)
    (body : NodeId) (arguments : List NodeId) : Fold NodeId := do
  let folded ← d.inside name parent (bindParams 0 params arguments) body
  Fold.residual (params.drop arguments.length) ((← get).unwrap folded)

/-- Gives a lambda the terms after it, unless it is an argument itself. -/
def applyFollowing (d : Descent) (stand : Stand) (take : Nat → Fold (List NodeId × Nat))
    (lambda : NodeId) : Fold (NodeId × Nat) := do
  if stand = .argument then return (lambda, 0)
  let params := (← get).params lambda
  let (arguments, taken) ← take params.length
  if arguments.isEmpty then return (lambda, taken)
  let body := (← get).body lambda
  return (← d.expand "lambda" none params body arguments, taken)

/-- Folds a name. -/
def ident (d : Descent) (stand : Stand) (take : Nat → Fold (List NodeId × Nat)) (id : NodeId)
    (node : Node) : Fold (NodeId × Nat) := do
  let name := node.text?.getD ""
  match d.env.find? name with
  | some (⟨_, .value bound, _⟩, _) =>
    if bound.isAbsent then return (id, 0)
    else if (← get).tag? bound = some .lambda then d.applyFollowing stand take bound
    else return (bound, 0)
  | some (⟨_, .function params body scope, _⟩, _) =>
    let (arguments, taken) ← take params.length
    return (← d.expand name (some scope) params body arguments, taken)
  | some (⟨_, .builtin tag arity, _⟩, _) =>
    let (arguments, taken) ← take arity
    return (← Fold.builtin id tag arity arguments, taken)
  | _ => return (id, 0)

/-- Folds the body of a lambda, in which the parameters stand for themselves. -/
def lambda (d : Descent) (id : NodeId) (node : Node) : Fold NodeId := do
  let params := (← get).params id
  let body ← d.inside "lambda" none (bindParams 0 params []) (node.child 1)
  Fold.rebuild id .lambda [node.child 0, body]

/-- Folds what stands in parentheses. A single result needs none, unless it could take terms
again. -/
def paren (d : Descent) (stand : Stand) (take : Nat → Fold (List NodeId × Nat)) (id : NodeId)
    (node : Node) : Fold (NodeId × Nat) := do
  let inner := node.child 0
  let terms := match (← get).node? inner with
    | some sequence => if sequence.tag = .exprs then sequence.children else [inner]
    | none => []
  let folded ← d.below terms
  let store ← get
  let keep : Fold (NodeId × Nat) := do
    let sequence ← Fold.rebuild inner .exprs folded
    return (← Fold.rebuild id .paren [sequence], 0)
  match folded with
  | [only] => match store.tag? only with
    | some .lambda => d.applyFollowing stand take only
    | some .ident | some .exprs | some .paren | none => keep
    | some _ => return (only, 0)
  | _ => keep

/-- Folds a conditional, or the branch that its condition decides on. -/
def conditional (d : Descent) (id : NodeId) (node : Node) : Fold NodeId := do
  let condition ← d.child (node.child 0)
  let store ← get
  match store.literalTruth? (store.unwrap condition) with
  | some truth =>
    let branch := if truth then node.child 1 else node.child 2
    if branch.isAbsent then Fold.intern ⟨.null, []⟩ none
    else
      let folded ← d.child branch
      return (← get).unwrap folded
  | none =>
    let yes ← d.child (node.child 1)
    let no ← d.child (node.child 2)
    Fold.rebuild id .ifThen [condition, yes, no]

/-- A clause of a case: its node, its folded pattern and its body. -/
structure Clause where
  node : NodeId
  pattern : NodeId
  body : NodeId

/-- Folds the patterns of clauses. -/
def patterns (d : Descent) : (clauses : List NodeId) → Fold (List Clause)
  | [] => return []
  | id :: rest => do
    match (← get).node? id with
    | none => d.patterns rest
    | some clause =>
      let folded ← d.child (clause.child 0)
      let pattern := (← get).unwrap folded
      return ⟨id, pattern, clause.child 1⟩ :: (← d.patterns rest)

/-- Folds the bodies of clauses. -/
def bodies (d : Descent) : (clauses : List Clause) → Fold (List NodeId)
  | [] => return []
  | clause :: rest => do
    let body ← d.child clause.body
    let rebuilt ← Fold.rebuild clause.node .clause [clause.pattern, body]
    return rebuilt :: (← d.bodies rest)

/-- The first clause that a literal matches, if no clause before it is undecided. -/
def decided? (s : Store) (value : NodeId) : (clauses : List Clause) → Option Clause
  | [] => none
  | clause :: rest => match s.decide? value clause.pattern with
    | some true => some clause
    | some false => decided? s value rest
    | none => none

/-- Folds a case, or the body of the clause that its scrutinee decides on. -/
def select (d : Descent) (id : NodeId) (node : Node) : Fold NodeId := do
  let scrutinee ← d.child (node.child 0)
  let value := (← get).unwrap scrutinee
  let clauses ← d.patterns (node.children.drop 1)
  let store ← get
  let literal := match store.tag? value with
    | some tag => tag.isLiteral
    | none => false
  match if literal then decided? store value clauses else none with
  | some clause =>
    let folded ← d.child clause.body
    return (← get).unwrap folded
  | none => Fold.rebuild id .case (scrutinee :: (← d.bodies clauses))

/-- Folds a node that takes no terms. -/
def single (d : Descent) (id : NodeId) (node : Node) : Fold NodeId := do
  match node.tag with
  | .num | .str | .bool | .null | .wildcard => return id
  | .exprs | .list => Fold.rebuild id node.tag (← d.below node.children)
  | .binding =>
    let folded ← d.child (node.child 1)
    Fold.rebuild id .binding [node.child 0, (← get).unwrap folded]
  | .ifThen => d.conditional id node
  | .case => d.select id node
  | tag => Fold.operation id tag (← d.children node.children)

/-- Folds a term, and tells how many terms after it were taken; `take count` folds the next ones as
arguments, at most `count` of them. -/
def term (d : Descent) (stand : Stand) (take : Nat → Fold (List NodeId × Nat)) (id : NodeId) :
    Fold (NodeId × Nat) := do
  match (← get).node? id with
  | none => return (id, 0)
  | some node =>
    if d.bound ≤ id.index then throw (.unordered id)
    match node.tag with
    | .ident => d.ident stand take id node
    | .lambda => d.applyFollowing stand take (← d.lambda id node)
    | .paren => d.paren stand take id node
    | _ => return (← d.single id node, 0)

/-- Folds terms after passing over `skip` of them, until there are `count` results. Tells how many
terms that took. -/
def terms (d : Descent) : List NodeId → (stand : Stand) → (count skip : Nat) →
    Fold (List NodeId × Nat)
  | [], _, _, _ => return ([], 0)
  | _ :: rest, stand, count, skip + 1 => d.terms rest stand count skip
  | _, _, 0, 0 => return ([], 0)
  | id :: rest, stand, count + 1, 0 => do
    let (folded, taken) ← d.term stand (fun count => d.terms rest .argument count 0) id
    let (others, more) ← d.terms rest stand count taken
    return (folded :: others, 1 + taken + more)

end Descent

/-! ## Nodes -/

/-- Folds a sequence of nodes below `bound`, whose children are below their parents. -/
def foldSequence (env : Environment)
    (inside : (name : String) → (parent : Option Nat) → List Word → NodeId → Fold NodeId) :
    (bound : Nat) → List NodeId → Fold (List NodeId)
  | 0, ids => do
    let d : Descent := ⟨env, 0, fun _ => return [], inside⟩
    return (← d.terms ids .head ids.length 0).1
  | bound + 1, ids => do
    let d : Descent := ⟨env, bound + 1, foldSequence env inside bound, inside⟩
    return (← d.terms ids .head ids.length 0).1

/-- Folds a node by itself, in an environment where `room` more scopes may be entered. -/
def foldWithin : (room : Nat) → (env : Environment) → NodeId → Fold NodeId
  | 0, env, id => do
    let inside name _ _ _ := throw (.runaway ⟨env.limit, name⟩)
    if id.isAbsent then return id
    return (← foldSequence env inside (id.index + 1) [id]).headD id
  | room + 1, env, id => do
    let inside name parent words body :=
      foldWithin room ((env.push name parent).addWords words) body
    if id.isAbsent then return id
    return (← foldSequence env inside (id.index + 1) [id]).headD id

/-- Folds a node by itself. -/
def fold (env : Environment) (id : NodeId) : Fold NodeId := foldWithin env.room env id

end Juxta
