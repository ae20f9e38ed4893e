import Juxta.Node

/-!
# Trees

A subtree detached from any store.

* `Tree`, `Tree.Part` : a tag over parts, each a tree, a scalar or nothing;
* `Tree.text?` : the text that a leaf holds;
* `Tree.shown` : the tree on one line, in parentheses.
-/

namespace Juxta

mutual

/-- A tag over its parts. -/
inductive Tree where
  | node (tag : Tag) (parts : List Tree.Part)

/-- What stands at one position below a tag. -/
inductive Tree.Part where
  | tree (tree : Tree)
  | text (content : String)
  | flag (value : Bool)
  | absent

end

namespace Tree

instance : Inhabited Tree := ⟨.node .null []⟩

def tag : Tree → Tag
  | .node tag _ => tag

def parts : Tree → List Part
  | .node _ parts => parts

/-- The tree that holds one text. -/
def leaf (tag : Tag) (text : String) : Tree := .node tag [.text text]

/-- The tree with the given subtrees. -/
def branch (tag : Tag) (children : List Tree) : Tree := .node tag (children.map .tree)

/-- The text in the first part. -/
def text? : Tree → Option String
  | .node _ (.text content :: _) => some content
  | _ => none

mutual

/-- A tree on one line. -/
def shown : Tree → String
  | .node tag parts => "(" ++ tag.name ++ shownParts parts ++ ")"

/-- The parts of a tree, each after a space. -/
def shownParts : List Part → String
  | [] => ""
  | part :: rest => " " ++ shownPart part ++ shownParts rest

def shownPart : Part → String
  | .tree tree => shown tree
  | .text content => Text.Quoted.string content
  | .flag value => if value then "true" else "false"
  | .absent => "_"

end

end Tree

end Juxta
