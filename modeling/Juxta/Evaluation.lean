import Juxta.Config
import Juxta.Folding
import Juxta.Operation
import Juxta.Pattern
import Juxta.Walk.Basic

/-!
# Evaluation

The walk that computes the value of every node.

* `Context` : the scope in which a node is evaluated, and the arguments of the current call;
* `EvalFrame` : what waits for the values of nodes;
* `Evaluator` : the program, the data from outside, and the choices of the configuration;
* `Evaluator.call` : applies a function to arguments. Too few give a function that waits for more;
  those that are left over go to the function that the call returns;
* `Evaluator.each` : one call per item of a list, for MAP, FILTER and REDUCE;
* `Evaluator.select?` : the clause of a case that a value matches;
* `Evaluator.walk` : all kinds of nodes.
-/

namespace Juxta

/-- Where a node is evaluated. -/
structure Context where
  scope : Scope
  /-- The arguments of the innermost call, if there is one. -/
  arguments : Option (List Value)
deriving Inhabited

/-- The context of a whole program. -/
def Context.global : Context := ⟨.global, none⟩

/-- Calls for the items of a list, one after the other. -/
structure Iteration where
  /-- The node that makes the calls. -/
  site : NodeId
  tag : Tag
  closure : Closure
  context : Context
  /-- The diagnostics so far, the last ones first. -/
  found : List (List Diagnostic)
  /-- The values of MAP and FILTER so far, the last one first. -/
  values : List Value
  /-- The value of REDUCE so far. -/
  accumulator : Value

namespace Iteration

/-- The value of MAP, FILTER or REDUCE after the last call. -/
def result (i : Iteration) : Value :=
  if i.tag = .reduce then i.accumulator else .list i.values.reverse

/-- The arguments of the call for an item. -/
def arguments (i : Iteration) (item : Value) : List Value :=
  if i.tag = .reduce then [i.accumulator, item] else [item]

/-- Takes in the value of the call for an item. -/
def take (i : Iteration) (item : Value) (found : List Diagnostic) (value : Value) :
    Iteration :=
  let i := { i with found := found :: i.found }
  match i.tag with
  | .map => { i with values := value :: i.values }
  | .filter => if value.isTruthy then { i with values := item :: i.values } else i
  | _ => { i with accumulator := value }

end Iteration

/-- What waits for the values of nodes. -/
inductive EvalFrame where
  /-- An operation on the values. -/
  | operands (site : NodeId) (tag : Tag) (context : Context)
  /-- The last of the values. -/
  | last
  /-- A function and its arguments. -/
  | application (site : NodeId) (context : Context)
  /-- The value of a call, to which arguments are left over. -/
  | surplus (site : NodeId) (arguments : List Value) (context : Context)
  /-- A function and a list. -/
  | iteration (site : NodeId) (tag : Tag) (context : Context)
  /-- The value of a call for `item`; calls for the other items follow. -/
  | item (iteration : Iteration) (item : Value) (rest : List Value)
  /-- The value that a case selects by. -/
  | scrutinee (site : NodeId) (clauses : List NodeId) (context : Context)
  | condition (yes no : NodeId) (context : Context)
  /-- The left operand of AND or OR. -/
  | connective (tag : Tag) (right : NodeId) (context : Context)
  /-- A value that counts as true or false. -/
  | truth

/-- What the evaluation of a node asks for next. -/
abbrev EvalAction := Action Context Value EvalFrame

/-- A program with data from outside. -/
structure Evaluator where
  store : Store
  data : Value
  /-- How many calls may be nested. -/
  limit : Nat
  caseFallthrough : CaseFallthrough

namespace Evaluator

/-! ## Results -/

/-- The result of an operation at a node, after some diagnostics. -/
def settle (e : Evaluator) (site : NodeId) (found : List Diagnostic) : Computed → EvalAction
  | .value value => .done found value
  | .fallback none value => .done found value
  | .fallback (some message) value =>
    .done (found ++ [.at? message (e.store.coord? site) .evaluation]) value
  | .endless => .endless

/-- The value of a literal. -/
def literal (node : Node) : Computed :=
  match node.tag with
  | .num =>
    let numeral := node.text?.getD ""
    match Number.parse? numeral with
    | some n => .value (.number n)
    | none => .instead s!"'{numeral}' is not a number." .nan
  | .str => .value (.string (node.text?.getD ""))
  | .bool => .value (.bool (node.flag?.getD false))
  | _ => .value .null

/-- The value of a name; a name without a value stands for itself. -/
def ident (node : Node) (context : Context) : Value :=
  let name := node.text?.getD ""
  (context.scope.get? name).getD (.string name)

/-- The terms of a sequence; any other node is a single term. -/
def terms (e : Evaluator) (id : NodeId) : List NodeId :=
  match e.store.node? id with
  | some node => if node.tag = .exprs then node.children else [id]
  | none => [id]

/-! ## Calls -/

/-- Applies a function to further arguments at a node. -/
def call (e : Evaluator) (site : NodeId) (closure : Closure) (arguments : List Value)
    (context : Context) : EvalAction :=
  let applied := closure.applied ++ arguments
  let arity := closure.params.length
  if applied.length < arity then .done [] (.function { closure with applied })
  else
    let own := applied.take arity
    match Scope.call closure.scope context.scope "lambda" (closure.params.zip own) e.limit with
    | .error cause => .abort (.runaway cause (e.store.coord? site))
    | .ok scope =>
      .gather [closure.body] ⟨scope, some own⟩ (.surplus site (applied.drop arity) context)

/-- Goes on with the value of a call. -/
def surplus (e : Evaluator) (site : NodeId) (arguments : List Value) (context : Context)
    (found : List Diagnostic) (value : Value) : EvalAction :=
  match value with
  | .function closure =>
    if arguments.isEmpty then .done found value
    else .after found (e.call site closure arguments context)
  | value => .done found value

/-- The arguments of an application: the items of a list, nothing, or a single value. -/
def argumentsOf : Value → List Value
  | .list items => items
  | .null => []
  | value => [value]

/-- Applies a function to the arguments that a value stands for. -/
def apply (e : Evaluator) (site : NodeId) (context : Context) (found : List Diagnostic)
    (function arguments : Value) : EvalAction :=
  match function with
  | .function closure => .after found (e.call site closure (argumentsOf arguments) context)
  | other => e.settle site found (.expects .apply "a function" other .null)

/-! ## Calls for all items of a list -/

/-- Calls the function for the next item. -/
def advance (e : Evaluator) (i : Iteration) : List Value → EvalAction
  | [] => .done i.found.reverse.flatten i.result
  | item :: rest =>
    .capture (e.call i.site i.closure (i.arguments item) i.context) (.item i item rest)

/-- Calls a function for all items of a list. REDUCE has an initial value between the two. -/
def each (e : Evaluator) (site : NodeId) (tag : Tag) (context : Context)
    (found : List Diagnostic) (values : List Value) : EvalAction :=
  let initial := if tag = .reduce then values[1]? else none
  let items := (values[if tag = .reduce then 2 else 1]?).getD .null
  let fallback := initial.getD (.list [])
  match values.headD .null with
  | .function closure => match items with
    | .list items => e.advance
        ⟨site, tag, closure, context, [found], [], initial.getD .null⟩ items
    | other => e.settle site found (.expects tag "a list" other fallback)
  | other => e.settle site found (.expects tag "a function" other fallback)

/-! ## Cases -/

/-- The body of the first clause whose pattern a value matches; `target` is its id in the table. -/
def selectFrom (e : Evaluator) (scope : Scope) (target : NodeId) : List NodeId → PatternTable →
    Option NodeId
  | [], _ => none
  | id :: rest, table => match e.store.node? id with
    | none => e.selectFrom scope target rest table
    | some clause =>
      let tree := match e.store.tree? (clause.child 0) with
        | some tree => tree.asPattern scope
        | none => .node .null []
      let (pattern, table) := table.intern tree
      if table.fits pattern target then some (clause.child 1)
      else e.selectFrom scope target rest table

/-- The body of the first clause whose pattern a value matches. -/
def select? (e : Evaluator) (clauses : List NodeId) (value : Value) (scope : Scope) :
    Option NodeId :=
  let (target, table) := PatternTable.empty.internValue value
  e.selectFrom scope target clauses table

/-- What a case comes to that no clause matches. -/
def unmatched (e : Evaluator) (value : Value) : Computed :=
  match e.caseFallthrough with
  | .empty => .silent (.record [])
  | .report => .instead s!"No case matched the value {value.shown}." (.record [])

/-! ## All nodes -/

/-- What the evaluation of a node asks for first. -/
def enter (e : Evaluator) (id : NodeId) (node : Node) (context : Context) : EvalAction :=
  match node.tag with
  | .num | .str | .bool | .null | .wildcard => e.settle id [] (literal node)
  | .ident => .done [] (ident node context)
  | .prog => .gather (e.terms (node.child 0)) context .last
  | .paren => .visit (node.child 0) context
  | .clause => .visit (node.child 1) context
  | .lambda =>
    .done [] (.function ⟨id, e.store.params id, node.child 1, context.scope, []⟩)
  | .apply => .gather [node.child 0, node.child 1] context (.application id context)
  | .map | .filter | .reduce => .gather node.children context (.iteration id node.tag context)
  | .case => .gather [node.child 0] context (.scrutinee id (node.children.drop 1) context)
  | .ifThen => .gather [node.child 0] context (.condition (node.child 1) (node.child 2) context)
  | .and | .or => .gather [node.child 0] context (.connective node.tag (node.child 1) context)
  | tag => .gather node.children context (.operands id tag context)

/-- Goes on with values. -/
def resume (e : Evaluator) (frame : EvalFrame) (found : List Diagnostic) (values : List Value) :
    EvalAction :=
  let value := values.headD .null
  match frame with
  | .operands site tag context =>
    e.settle site found (tag.operate ⟨e.data, context.arguments⟩ values)
  | .last => .done found (values.getLastD .null)
  | .application site context => e.apply site context found value ((values.drop 1).headD .null)
  | .surplus site arguments context => e.surplus site arguments context found value
  | .iteration site tag context => e.each site tag context found values
  | .item i item rest => e.advance (i.take item found value) rest
  | .scrutinee site clauses context => match e.select? clauses value context.scope with
    | some body => .after found (.visit body context)
    | none => e.settle site found (e.unmatched value)
  | .condition yes no context =>
    .after found (.visit (if value.isTruthy then yes else no) context)
  | .connective tag right context =>
    if value.isTruthy == (tag == .or) then .done found (.bool value.isTruthy)
    else .after found (.gather [right] context .truth)
  | .truth => .done found (.bool value.isTruthy)

/-- The walk that evaluates a program. -/
def walk (e : Evaluator) : Walk Context Value EvalFrame where
  store := e.store
  absent := .null
  enter := e.enter
  resume := e.resume

end Evaluator

end Juxta
