/-!
# Tags

The kinds of nodes a program is made of.

* `Tag` : one constructor per kind; `Tag.all` lists them in their fixed order;
* `Tag.name`, `Tag.ofName?` : the upper-case name of a kind and back (`ofName?_name`);
* `Tag.isLeaf`, `Tag.isLiteral` : kinds that hold scalars, and kinds that stand for themselves.
-/

namespace Juxta

/-- The kind of a node. -/
inductive Tag where
  -- literals and names
  | num | str | bool | null | ident
  -- structure
  | prog | exprs | list | record | binding | paren | lambda | apply
  -- operators
  | add | sub | mul | div | mod | pow | neg | min | max | concat | eq | ne | lt | gt | le | ge
  | range | and | or | not | equiv
  -- control
  | case | clause | ifThen | wildcard
  -- collections
  | map | filter | reduce
  -- accessors
  | get | set | val | key | len | nth | hd | tl
  -- host
  | data | arg | json | print
deriving DecidableEq, Hashable, Inhabited

namespace Tag

/-- The upper-case name of a kind; the wildcard is written as it is in a program. -/
def name : Tag → String
  | .num => "NUM" | .str => "STR" | .bool => "BOOL" | .null => "NULL" | .ident => "IDENT"
  | .prog => "PROG" | .exprs => "EXPRS" | .list => "LIST" | .record => "RECORD"
  | .binding => "BINDING" | .paren => "PAREN" | .lambda => "LAMBDA" | .apply => "APPLY"
  | .add => "ADD" | .sub => "SUB" | .mul => "MUL" | .div => "DIV" | .mod => "MOD" | .pow => "POW"
  | .neg => "NEG" | .min => "MIN" | .max => "MAX" | .concat => "CONCAT" | .eq => "EQ"
  | .ne => "NE" | .lt => "LT" | .gt => "GT" | .le => "LE" | .ge => "GE" | .range => "RANGE"
  | .and => "AND" | .or => "OR" | .not => "NOT" | .equiv => "EQUIV" | .case => "CASE"
  | .clause => "OF" | .ifThen => "IF" | .wildcard => "_" | .map => "MAP" | .filter => "FILTER"
  | .reduce => "REDUCE" | .get => "GET" | .set => "SET" | .val => "VAL" | .key => "KEY"
  | .len => "LEN" | .nth => "NTH" | .hd => "HD" | .tl => "TL" | .data => "DATA" | .arg => "ARG"
  | .json => "JSON" | .print => "PRINT"

/-- All kinds, in their fixed order. -/
def all : List Tag :=
  [.num, .str, .bool, .null, .ident, .prog, .exprs, .list, .record, .binding, .paren, .lambda,
   .apply, .add, .sub, .mul, .div, .mod, .pow, .neg, .min, .max, .concat, .eq, .ne, .lt, .gt, .le,
   .ge, .range, .and, .or, .not, .equiv, .case, .clause, .ifThen, .wildcard, .map, .filter,
   .reduce, .get, .set, .val, .key, .len, .nth, .hd, .tl, .data, .arg, .json, .print]

/-- The kind with a given name. -/
def ofName? (text : String) : Option Tag := all.find? (fun tag => tag.name == text)

/-- Kinds whose slots are scalars rather than nodes. -/
def isLeaf : Tag → Bool
  | .num | .str | .bool | .null | .ident => true
  | _ => false

/-- Literal data: kinds of nodes that evaluate to themselves. -/
def isLiteral : Tag → Bool
  | .num | .str | .bool | .null => true
  | _ => false

theorem mem_all (tag : Tag) : tag ∈ all := by cases tag <;> decide

theorem ofName?_name (tag : Tag) : ofName? tag.name = some tag := by cases tag <;> decide

theorem name_inj {s t : Tag} (h : s.name = t.name) : s = t := by
  have := ofName?_name s
  rw [h, ofName?_name t] at this
  exact (Option.some.inj this).symm

end Tag

end Juxta
