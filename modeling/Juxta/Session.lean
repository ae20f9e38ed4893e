import Juxta.Diagnostic
import Juxta.Parser
import Juxta.Snapshot
import Juxta.Token.Scan

/-!
# Programs from text

* `Program` : what parsing leaves behind, with its errors as diagnostics and its snapshot;
* `ParseOptions` : the lexicon, the recursion limit and the version of snapshots;
* `Session` : a program whose text arrives in pieces; `Session.step` reads one token;
* `Program.ofText` : the program of a complete text.
-/

namespace Juxta

/-- What parsing leaves behind. -/
structure Program where
  store : Store
  root? : Option NodeId
  scanErrors : List ScanError
  syntaxErrors : List SyntaxError
  version : String

namespace Program

def hasErrors (p : Program) : Bool := !p.scanErrors.isEmpty || !p.syntaxErrors.isEmpty

/-- The stored form of a complete program. -/
def snapshot? (p : Program) : Option Snapshot :=
  p.root?.map fun root => { p.store.snapshot root with version := p.version }

/-- The errors, those in tokens before all others. -/
def diagnostics (p : Program) : List Diagnostic :=
  p.scanErrors.map (fun e => .at? e.message (some e.location.coord) .lexical) ++
    p.syntaxErrors.map (fun e => .at? e.message (some e.location.coord) .syntactic)

end Program

/-- How programs are read. -/
structure ParseOptions where
  lexicon : Lexicon
  /-- How many scopes may be nested. -/
  limit : Nat
  version : String
deriving Inhabited

def ParseOptions.standard : ParseOptions :=
  ⟨.standard, Runaway.defaultLimit, Snapshot.currentVersion⟩

/-- A program whose text arrives in pieces. -/
structure Session where
  scan : Scan
  parser : Parser
  scanErrors : List ScanError
  version : String

namespace Session

/-- The session before any text. -/
def start (options : ParseOptions) : Session :=
  ⟨.empty options.lexicon, .start options.lexicon options.limit, [], options.version⟩

/-- Adds text at the end. -/
def push (s : Session) (text : String) : Session := { s with scan := s.scan.push text }

/-- Ends the text. -/
def close (s : Session) : Session := { s with scan := s.scan.close }

/-- What a step has come to. -/
inductive Step where
  | token (as : TokenClass)
  /-- There is no token left, but more text may come. -/
  | needsInput
  | done
deriving DecidableEq, Inhabited

/-- Reads one token. -/
def step (s : Session) : Step × Session :=
  if s.parser.isDone then (.done, s)
  else match s.scan.next with
    | (some (.ok token), scan) =>
      let (as, parser) := s.parser.feed token
      (.token as, { s with scan, parser })
    | (some (.error error), scan) =>
      (.token .error, { s with scan, scanErrors := s.scanErrors ++ [error] })
    | (none, scan) => (if scan.closed then .done else .needsInput, { s with scan })

theorem measure_step {s t : Session} {as : TokenClass} (h : s.step = (.token as, t)) :
    t.scan.measure < s.scan.measure := by
  unfold step at h
  split at h
  · simp at h
  · split at h
    · rename_i next
      cases h
      exact Scan.measure_next next
    · rename_i next
      cases h
      exact Scan.measure_next next
    · split at h <;> simp at h

/-- Reads all tokens that are there. The last step is the only one that reads none. -/
def drain (s : Session) : List Step × Session :=
  match h : s.step with
  | (.token as, t) =>
    have := measure_step h
    let (steps, u) := t.drain
    (.token as :: steps, u)
  | (last, t) => ([last], t)
termination_by s.scan.measure

/-- The program as far as it has been read. -/
def program (s : Session) : Program :=
  ⟨s.parser.store, s.parser.root?, s.scanErrors, s.parser.errors, s.version⟩

end Session

/-- The program of a complete text. -/
def Program.ofText (options : ParseOptions) (text : String) : Program :=
  (((Session.start options).push text).close.drain).2.program

end Juxta
