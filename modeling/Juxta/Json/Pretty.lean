import Juxta.Json.Basic

/-!
# JSON values on many lines

* `Json.pretty` : every item and every field on a line of its own, two spaces further in than the
  bracket around it.
-/

namespace Juxta.Json

/-- The beginning of a line, `depth` brackets deep. -/
def newLine (depth : Nat) : String := "\n" ++ String.ofList (List.replicate (2 * depth) ' ')

/-- Lines between two brackets; without any, the brackets stand together. -/
def bracketed (first last : String) (depth : Nat) (lines : List String) : String :=
  if lines.isEmpty then first ++ last
  else first ++ newLine (depth + 1) ++ ("," ++ newLine (depth + 1)).intercalate lines ++
    newLine depth ++ last

mutual

/-- The text of a value that stands `depth` brackets deep. -/
def prettyAt (depth : Nat) : Json → String
  | .arr items => bracketed "[" "]" depth (prettyItems (depth + 1) items)
  | .obj fields => bracketed "\x7b" "\x7d" depth (prettyFields (depth + 1) fields)
  | .null => text .null
  | .bool value => text (.bool value)
  | .whole value => text (.whole value)
  | .real value => text (.real value)
  | .str value => text (.str value)

def prettyItems (depth : Nat) : List Json → List String
  | [] => []
  | item :: rest => prettyAt depth item :: prettyItems depth rest

def prettyFields (depth : Nat) : List (String × Json) → List String
  | [] => []
  | (name, value) :: rest =>
    (quoted name ++ ": " ++ prettyAt depth value) :: prettyFields depth rest

end

/-- The text of a value on many lines. -/
def pretty (json : Json) : String := prettyAt 0 json

end Juxta.Json
