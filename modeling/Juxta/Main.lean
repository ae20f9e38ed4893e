import Juxta.Invocation

/-!
# Command line

Reads the files that the command line names, and prints the value of a program or, line by line, of
a dialogue.
-/

namespace Juxta

/-- Answers lines of input until there are no more; `count` is the number of the next one. -/
partial def dialogue (setting : Setting) (input output : IO.FS.Stream) (count : Nat) : IO Unit := do
  output.putStr s!"{count}> "
  output.flush
  let line ← input.getLine
  if line.isEmpty then return
  let line := if line.endsWith "\n" then String.ofList line.toList.dropLast else line
  for reply in setting.reply line do output.putStrLn reply
  dialogue setting input output (count + 1)

/-- Does what a command line asks for, and returns the exit code. -/
def carryOut (invocation : Invocation) : IO UInt32 := do
  let configText ← invocation.configFile.mapM fun path => IO.FS.readFile path
  let dataText ← invocation.dataFile.mapM fun path => IO.FS.readFile path
  match invocation.setting configText dataText with
  | .error message =>
    IO.eprintln s!"Error: {message}"
    return 1
  | .ok setting => match invocation.file with
    | some path =>
      let report := setting.report (← IO.FS.readFile path)
      for line in report.lines do IO.println line
      return report.code
    | none =>
      dialogue setting (← IO.getStdin) (← IO.getStdout) 1
      return 0

end Juxta

/-- Runs a program, or a dialogue if there is none. -/
def main (arguments : List String) : IO UInt32 := do
  match Juxta.Invocation.ofArguments arguments with
  | .error words =>
    for line in Juxta.Invocation.usage words do IO.eprintln line
    return 1
  | .ok invocation => Juxta.carryOut invocation
