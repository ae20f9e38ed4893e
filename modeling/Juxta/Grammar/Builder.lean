import Juxta.Grammar.Basic

/-!
# Building nodes

While a program is parsed, nodes whose rules are not complete wait on a stack.

* `Builder` : the store, the scopes, the stack, and the errors that do not stop parsing;
* `Build` : steps on a builder;
* `Build.push`, `Build.pop`, `Build.split` : the stack;
* `Build.pushNode`, `Build.pushBranch` : new nodes, with their places;
* `Build.foldNode`, `Build.enter`, `Build.exit` : folding, and scopes.
-/

namespace Juxta

/-- What has been built. -/
structure Builder where
  store : Store
  env : Environment
  /-- Nodes that wait, the last one first. -/
  nodes : List NodeId
  errors : List SyntaxError
  /-- The whole program, once it is complete. -/
  root : Option NodeId
deriving Inhabited

/-- A step of building. -/
abbrev Build := StateM Builder

/-- The place that covers the places of some nodes. -/
def Store.joinedCoord? (s : Store) (ids : List NodeId) : Option Coord :=
  match ids.filterMap s.coord? with
  | [] => none
  | first :: rest => some (rest.foldl Coord.join first)

/-- The place from the beginning of one to the end of another. -/
def Coord.upTo (a b : Coord) : Coord := ⟨a.start, b.stop⟩

namespace Build

/-! ## The stack -/

/-- How many nodes wait. -/
def height : Build Nat := do return (← get).nodes.length

def push (id : NodeId) : Build Unit := modify fun b => { b with nodes := id :: b.nodes }

/-- Takes the last node, or the absent one if none waits. -/
def pop : Build NodeId := modifyGet fun b => match b.nodes with
  | [] => (.absent, b)
  | id :: rest => (id, { b with nodes := rest })

/-- Takes the nodes from the height `base` on, in the order in which they came. -/
def split (base : Nat) : Build (List NodeId) := modifyGet fun b =>
  let count := b.nodes.length - base
  ((b.nodes.take count).reverse, { b with nodes := b.nodes.drop count })

/-! ## Nodes -/

def intern (node : Node) (coord : Option Coord) : Build NodeId := modifyGet fun b =>
  let (id, store) := b.store.intern node coord
  (id, { b with store })

/-- Stores a node and lets it wait. -/
def pushNode (node : Node) (coord : Option Coord) : Build Unit := do push (← intern node coord)

/-- Stores a leaf at a place and lets it wait. -/
def pushLeaf (tag : Tag) (text : String) (coord : Coord) : Build Unit :=
  pushNode (.leaf tag text) (some coord)

/-- Stores a node with children and lets it wait. Its place is `coord` or else that of its
children. -/
def pushBranch (tag : Tag) (children : List NodeId) (coord : Option Coord) : Build Unit := do
  let coord := coord <|> (← get).store.joinedCoord? children
  pushNode (.branch tag children) coord

/-- Stores the concatenation of some nodes and lets it wait. -/
def pushConcat (parts : List NodeId) (coord : Option Coord) : Build Unit := do
  let list ← intern (.branch .list parts) coord
  pushNode (.branch .concat [list]) coord

/-! ## Scopes and folding -/

def addWord (word : Word) : Build Unit := modify fun b => { b with env := b.env.addWord word }

/-- Opens a scope below the innermost one. -/
def enter (name : String) : Build (Except FoldError Unit) := modifyGet fun b =>
  match b.env.enter name none with
  | .ok env => (.ok (), { b with env })
  | .error cause => (.error (.runaway cause), b)

def exit : Build Unit := modify fun b => { b with env := b.env.exit }

/-- Folds a node by itself. -/
def foldNode (id : NodeId) : Build (Except FoldError NodeId) := modifyGet fun b =>
  let (result, store) := (fold b.env id).run.run b.store
  (result, { b with store })

/-- Notes an error and goes on. -/
def report (error : SyntaxError) : Build Unit :=
  modify fun b => { b with errors := b.errors ++ [error] }

end Build

end Juxta
