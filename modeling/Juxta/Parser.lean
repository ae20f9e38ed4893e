import Juxta.Grammar.Measure

/-!
# Parsing token by token

* `Parser` : the rules that wait and what has been built, between two tokens;
* `Parser.feed` : one more token; it tells what the token turned out to be;
* `Parser.isDone`, `Parser.root?`, `Parser.errors` : how parsing ended.
-/

namespace Juxta

/-- The state between two tokens. -/
structure Parser where
  /-- The rules that wait, the next one first. -/
  rules : List Rule
  builder : Builder
  /-- Whether an error has stopped parsing. -/
  halted : Bool
deriving Inhabited

namespace Parser

/-- The state before the first token. -/
def start (lexicon : Lexicon) (limit : Nat) : Parser :=
  ⟨[.program], ⟨.empty, .ofLexicon lexicon limit, [], [], none⟩, false⟩

def store (p : Parser) : Store := p.builder.store

/-- The whole program, once it is complete. -/
def root? (p : Parser) : Option NodeId := p.builder.root

/-- The errors in the order in which they were met. -/
def errors (p : Parser) : List SyntaxError := p.builder.errors

def isDone (p : Parser) : Bool := p.halted || p.root?.isSome

/-- Offers a token to one rule after the other until one takes or refuses it. -/
def offer (token : Token) (rules : List Rule) (b : Builder) : TokenClass × Parser :=
  match rules with
  | [] => (.error, ⟨[], b, true⟩)
  | rule :: rest =>
    match h : (rule.answer token).run b with
    | (.taken as more, b) => (as, ⟨more ++ rest, b, false⟩)
    | (.passed more, b) =>
      have := Rule.measure_lt_of_passed rest (congrArg Prod.fst h)
      offer token (more ++ rest) b
    | (.refused error, b) => (.error, ⟨rest, { b with errors := b.errors ++ [error] }, true⟩)
termination_by Rule.measure rules

/-- Takes one more token. Comments are passed over, and nothing is taken after an error that stops
parsing. -/
def feed (p : Parser) (token : Token) : TokenClass × Parser :=
  if token.kind = .comment then (.comment, p)
  else if p.halted then (.error, p)
  else offer token p.rules p.builder

end Parser

end Juxta
