import Juxta.Compile
import Juxta.Json.Pretty

/-!
# Invocations

What a command line asks for, and what is printed for a program.

* `Invocation`, `Invocation.ofArguments` : the choices of a command line, or its leftover words;
* `Setting`, `Invocation.setting` : the configuration and the data of a run, from the texts of
  their files;
* `Setting.snapshot?` : a program text that is read, and the lines to print;
* `Setting.report` : what is printed for a file, and the exit code;
* `Setting.reply` : what is printed for a line of a dialogue.
-/

namespace Juxta

/-! ## Command lines -/

/-- The choices of a command line. -/
structure Invocation where
  /-- Whether visits of nodes run to their end at once. -/
  direct : Bool
  /-- Whether the tree of a program is printed. -/
  showTree : Bool
  dataFile : Option String
  configFile : Option String
  /-- The file of the program; without one there is a dialogue. -/
  file : Option String
deriving DecidableEq

namespace Invocation

/-- The word after the first `flag`, and the other words. A flag that comes last stays. -/
def takeValue (flag : String) : List String → Option String × List String
  | word :: value :: rest =>
    if word = flag then (some value, rest)
    else
      let (found, others) := takeValue flag (value :: rest)
      (found, word :: others)
  | words => (none, words)

/-- Whether a word looks like a flag. -/
def isFlag (word : String) : Bool := ['-', '-'].isPrefixOf word.toList

/-- The first word that is no flag, and the other words. -/
def takeFile : List String → Option String × List String
  | [] => (none, [])
  | word :: rest =>
    if isFlag word then
      let (found, others) := takeFile rest
      (found, word :: others)
    else (some word, rest)

/-- The choices of a command line, or the words that mean nothing. -/
def ofArguments (words : List String) : Except (List String) Invocation :=
  let direct := words.contains "--sync"
  let words := words.erase "--sync"
  let showTree := words.contains "--ast"
  let words := words.erase "--ast"
  let (dataFile, words) := takeValue "--data" words
  let (configFile, words) := takeValue "--config" words
  let (file, words) := takeFile words
  if words.isEmpty then .ok ⟨direct, showTree, dataFile, configFile, file⟩ else .error words

/-- What is said of words that mean nothing. -/
def usage (words : List String) : List String :=
  ["Unrecognized arguments: [" ++ ", ".intercalate (words.map Text.Quoted.string) ++ "]",
   "Usage: juxta [--sync] [--ast] [--data FILE.json] [--config FILE.json] [FILE]"]

end Invocation

/-! ## Runs -/

/-- How programs are run. -/
structure Setting where
  config : Config
  data : Json
  showTree : Bool

/-- The setting that a command line asks for, from the texts of its files. -/
def Invocation.setting (i : Invocation) (configText dataText : Option String) :
    Except String Setting := do
  let config ← match configText with
    | none => pure Config.standard
    | some text => (Config.parse text).mapError Config.invalid
  let config := if i.direct then { config with scheduling := .direct } else config
  let data ← match dataText with
    | none => pure Json.null
    | some text => (Json.parse text).mapError Json.Failure.message
  return ⟨config, data, i.showTree⟩

/-- What is printed, and the exit code. -/
structure Report where
  lines : List String
  code : UInt32

namespace Setting

/-- The exit code of a program that has no value. -/
def failure : UInt32 := 70

/-- The snapshot of a program text without errors, and the lines that are printed while it is
read. -/
def snapshot? (s : Setting) (source : String) : List String × Option Snapshot :=
  let options := { ParseOptions.standard with limit := s.config.recursionLimit }
  let program := Program.ofText options source
  let tree := if s.showTree then program.root?.bind program.store.tree? else none
  (program.diagnostics.map Diagnostic.shown ++ tree.toList.map Tree.shown,
    if program.hasErrors then none else program.snapshot?)

/-- What is printed for the program of a file: what is wrong with it, and its value. -/
def report (s : Setting) (source : String) : Report :=
  let (lines, snapshot) := s.snapshot? source
  match snapshot.map fun snapshot => tryCompile s.config snapshot s.data with
  | none | some .unfinished => ⟨lines, failure⟩
  | some (.failed error) => ⟨lines ++ [error.message], failure⟩
  | some (.compiled ⟨found, value⟩) =>
    let lines := lines ++ found.map Diagnostic.shown
    match value with
    | some value => ⟨lines ++ [value.pretty], 0⟩
    | none => ⟨lines, failure⟩

/-- What is printed for a line of a dialogue. -/
def reply (s : Setting) (line : String) : List String :=
  let (lines, snapshot) := s.snapshot? (line ++ "\n")
  match snapshot.map fun snapshot => tryCompile s.config snapshot s.data with
  | none | some .unfinished => lines
  | some (.failed error) => lines ++ [error.message]
  | some (.compiled ⟨found, value⟩) =>
    let shown := match value with
      | some value => value.text
      | none => "<no value>"
    lines ++ found.map Diagnostic.shown ++ ["==> " ++ shown]

end Setting

end Juxta
