import Juxta.Number
import Juxta.Walk.Basic

/-!
# Shapes

What can be known of the value of a node without evaluation, and the operands that can never be
right.

* `Shape` : what is known of a value;
* `Node.shape`, `Node.problems` : the shape of a node from those of its children, and what is wrong
  with its children;
* `checking` : the walk that computes shapes and finds all problems.
-/

namespace Juxta

/-- What is known of a value. -/
inductive Shape where
  | unknown
  | boolean
  | null
  | number (zero : Bool)
  | string (empty : Bool)
  | list
  | record
  | function
deriving DecidableEq, Inhabited

namespace Shape

/-- Whether a value of the shape may stand where a boolean is expected: unknown values, booleans,
and literals that count as false. -/
def isBooleanLike : Shape → Bool
  | .unknown | .boolean | .null | .number true | .string true => true
  | _ => false

/-- Whether a value of the shape may be primitive. -/
def mayBePrimitive : Shape → Bool
  | .list | .record | .function => false
  | _ => true

/-- Whether a value of the shape may be a function. -/
def mayBeFunction : Shape → Bool
  | .unknown | .function => true
  | _ => false

/-- A shape in a sentence. -/
def phrase : Shape → String
  | .unknown => "an unknown value"
  | .boolean => "a boolean"
  | .null => "null"
  | .number _ => "a number"
  | .string _ => "a string"
  | .list => "a list"
  | .record => "a record"
  | .function => "a function"

end Shape

/-- Whether a node is a literal of the number zero. -/
def Node.isZero (node : Node) : Bool :=
  match node.text?.bind Number.parse? with
  | some n => n.isZero
  | none => false

/-- The shape of a node, from the shapes of its children. -/
def Node.shape (node : Node) (children : List Shape) : Shape :=
  match node.tag with
  | .num => .number node.isZero
  | .str => .string (node.text?.getD "" == "")
  | .bool => .boolean
  | .null => .null
  | .list | .range | .map | .filter | .tl => .list
  | .record | .binding | .set | .print => .record
  | .lambda => .function
  | .add | .sub | .mul | .div | .mod | .pow | .min | .max | .neg | .len => .number false
  | .eq | .ne | .lt | .gt | .le | .ge | .and | .or | .not | .equiv => .boolean
  | .concat => .string false
  | .paren => children.headD .null
  | .exprs => match children with
    | [] => .null
    | [only] => only
    | _ => .list
  | _ => .unknown

/-- What is wrong with the children of a node. -/
def Tag.problems (tag : Tag) (children : List Shape) : List String :=
  match tag with
  | .and | .or | .not => (children.filter fun shape => !shape.isBooleanLike).map fun shape =>
    s!"{tag.name} expects boolean operands, found {shape.phrase}."
  | .equiv => (children.filter fun shape => !shape.mayBePrimitive).map fun shape =>
    s!"{tag.name} compares primitive values, found {shape.phrase}."
  | .map | .filter | .reduce | .apply =>
    ((children.take 1).filter fun shape => !shape.mayBeFunction).map fun shape =>
      s!"{tag.name} expects a function, found {shape.phrase}."
  | _ => []

/-- A node whose children are checked. -/
structure CheckFrame where
  id : NodeId
  node : Node

/-- The walk that computes the shape of every node from those of its children. -/
def checking (store : Store) : Walk Unit Shape CheckFrame where
  store := store
  absent := .null
  enter id node context := .gather node.children context ⟨id, node⟩
  resume frame found shapes :=
    let problems := (frame.node.tag.problems shapes).map fun message =>
      Diagnostic.at? message (store.coord? frame.id) .check
    .done (found ++ problems) (frame.node.shape shapes)

end Juxta
