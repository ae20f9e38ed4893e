import Juxta.Lexicon
import Juxta.Source
import Juxta.Text.Quoted

/-!
# Tokens

* `TokenKind` : what a token is; `TokenKind.describe` says it in a sentence;
* `Token` : a kind and its place;
* `ScanError` : text that is no token, with its wording.
-/

namespace Juxta

/-- What a token is. A string with inserted expressions comes in pieces: one at its start, one
after each expression but the last, and one at its end. -/
inductive TokenKind where
  | openParen | closeParen | openBracket | closeBracket | openBrace | closeBrace
  | openAngle | closeAngle
  | comma | dot | colon | equal | minus
  | operator (op : BinOp)
  | identifier (name : String)
  | number (lexeme : String)
  | string (text : String)
  | stringStart (text : String)
  | stringMiddle (text : String)
  | stringEnd (text : String)
  | keyword (word : Keyword)
  | comment
  | endOfText
deriving DecidableEq, Inhabited

namespace TokenKind

/-- A token in a sentence. -/
def describe : TokenKind → String
  | .openParen => "a '('"
  | .closeParen => "a ')'"
  | .openBracket => "a '['"
  | .closeBracket => "a ']'"
  | .openBrace => "a '\x7b'"
  | .closeBrace => "a '\x7d'"
  | .openAngle => "a '<'"
  | .closeAngle => "a '>'"
  | .comma => "a ','"
  | .dot => "a '.'"
  | .colon => "a ':'"
  | .equal => "a '='"
  | .minus => "a '-'"
  | .operator op => s!"the {op.name} operator"
  | .identifier name => s!"the name '{name}'"
  | .number lexeme => s!"the number {lexeme}"
  | .string _ | .stringStart _ | .stringMiddle _ | .stringEnd _ => "a string"
  | .keyword word => s!"the '{word.text}' keyword"
  | .comment => "a comment"
  | .endOfText => "the end of the program"

end TokenKind

/-- A kind of token at a place. -/
structure Token where
  kind : TokenKind
  location : Location
deriving DecidableEq, Inhabited

/-- Text that is no token. -/
inductive ScanError where
  | unexpectedCharacter (character : Char) (location : Location)
  | unterminatedString (location : Location)
  | unknownEscape (character : Char) (location : Location)
deriving DecidableEq

namespace ScanError

def location : ScanError → Location
  | .unexpectedCharacter _ location => location
  | .unterminatedString location => location
  | .unknownEscape _ location => location

def message : ScanError → String
  | .unexpectedCharacter character _ => s!"Unexpected character: {Text.Quoted.char character}"
  | .unterminatedString _ => "Unterminated string"
  | .unknownEscape character _ => s!"Unknown escape character {Text.Quoted.char character}"

/-- What is said at the place itself. -/
def label : ScanError → String
  | .unterminatedString _ => "String starts here"
  | _ => "Character found here"

end ScanError

end Juxta
