import Juxta.Store
import Juxta.Value

/-!
# Patterns

A case compares a value with patterns. Both are trees; they are stored in one table, so that equal
trees have equal ids and most comparisons are comparisons of ids.

* `Value.tree` : the tree that a value is compared as;
* `Tree.asPattern` : the tree of a pattern, with the values of its names;
* `PatternTable` : trees that are compared; `PatternTable.fits` compares two of them. A pattern
  of two elements also stands for a head and the rest of a longer list.
-/

namespace Juxta

/-! ## Trees of values and patterns -/

mutual

/-- The tree that a value is compared as. All functions are compared alike. -/
def Value.tree : Value → Tree
  | .null => .node .null []
  | .bool flag => .node .bool [.flag flag]
  | .number n => .leaf .num (Number.format n)
  | .nan => .leaf .num "NaN"
  | .string content => .leaf .str content
  | .list items => .node .list (Value.itemParts items)
  | .record fields => .node .record (Value.fieldParts fields)
  | .function _ => .node .lambda []

def Value.itemParts : List Value → List Tree.Part
  | [] => []
  | item :: rest => .tree (Value.tree item) :: Value.itemParts rest

def Value.fieldParts : List (String × Value) → List Tree.Part
  | [] => []
  | (name, value) :: rest =>
    .tree (.branch .binding [.leaf .str name, Value.tree value]) :: Value.fieldParts rest

end

namespace Tree

/-- A numeral in the form in which numbers are compared. -/
def canonicalNumber (parts : List Part) : Tree :=
  match (text? (.node .num parts)).bind Number.parse? with
  | some n => .leaf .num (Number.format n)
  | none => .node .num parts

/-- What a name stands for in a pattern: its value, or itself as a string. -/
def ofName (scope : Scope) (parts : List Part) : Tree :=
  let name := (text? (.node .ident parts)).getD ""
  match scope.get? name with
  | some value => value.tree
  | none => .leaf .str name

mutual

/-- The tree of a pattern: numbers in one form, groups of one term replaced by the term, and names
by what they stand for. -/
def asPattern (scope : Scope) : Tree → Tree
  | .node .num parts => canonicalNumber parts
  | .node .ident parts => ofName scope parts
  | .node .paren [part] => groupPattern scope part
  | .node .exprs [part] => groupPattern scope part
  | .node tag parts => .node tag (partPatterns scope parts)

/-- The pattern of a group with one part. -/
def groupPattern (scope : Scope) : Part → Tree
  | .tree tree => asPattern scope tree
  | _ => .node .null []

def partPatterns (scope : Scope) : List Part → List Part
  | [] => []
  | part :: rest => partPattern scope part :: partPatterns scope rest

def partPattern (scope : Scope) : Part → Part
  | .tree tree => .tree (asPattern scope tree)
  | part => part

end

end Tree

/-! ## Comparing -/

/-- Trees that are compared, and the id of the wildcard among them. -/
structure PatternTable where
  store : Store
  wildcard : NodeId

namespace PatternTable

/-- The table that holds the wildcard alone. -/
def empty : PatternTable :=
  let (wildcard, store) := Store.empty.intern ⟨.wildcard, []⟩ none
  ⟨store, wildcard⟩

/-- The id of a tree. -/
def intern (t : PatternTable) (tree : Tree) : NodeId × PatternTable :=
  let (id, store) := t.store.internTree tree
  (id, { t with store })

/-- The id of the tree of a value. -/
def internValue (t : PatternTable) (value : Value) : NodeId × PatternTable := t.intern value.tree

/-- Whether values are of the form that the children of a pattern describe. Children have lower ids
than their parent, so that `depth` levels are enough for a pattern with the id `depth`. -/
def childrenMatch (t : PatternTable) : (depth : Nat) → (pattern : Node) → (values : List NodeId) →
    Bool
  | 0, _, _ => false
  | depth + 1, pattern, values =>
    let one (p v : NodeId) : Bool := p == v || p == t.wildcard ||
      match t.store.node? p, t.store.node? v with
      | some p, some v => p.tag == v.tag && !p.tag.isLeaf && t.childrenMatch depth p v.children
      | _, _ => false
    let rest (p : NodeId) (others : List NodeId) : Bool := p == t.wildcard ||
      match t.store.node? p with
      | some p => p.tag == pattern.tag && t.childrenMatch depth p others
      | none => false
    if pattern.children.length = values.length then
      (pattern.children.zip values).all fun pair => one pair.1 pair.2
    else match pattern.children, values with
      | [headPattern, restPattern], first :: others =>
        1 < others.length && one headPattern first && rest restPattern others
      | _, _ => false

/-- Whether a value is of the form that a pattern describes: they are equal, the pattern is the
wildcard, or their children match. -/
def fits (t : PatternTable) (pattern value : NodeId) : Bool :=
  pattern == value || pattern == t.wildcard ||
    match t.store.node? pattern, t.store.node? value with
    | some p, some v =>
      p.tag == v.tag && !p.tag.isLeaf && t.childrenMatch pattern.index p v.children
    | _, _ => false

end PatternTable

end Juxta
