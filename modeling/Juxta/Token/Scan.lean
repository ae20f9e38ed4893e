import Juxta.Token.Basic
import Juxta.Text.Blank
import Juxta.Text.Letter

/-!
# From text to tokens

Text may arrive in pieces. Until it is complete, a token that reaches the end of the text so far is
not given out, because more text could make it longer.

* `Head` : the text that is left, and the place reached;
* `Segment` : a string that an inserted expression interrupts;
* `Scan` : the state between two tokens; `Scan.push` and `Scan.close` add text and end it;
* `Scan.next` : the next token or error, which leaves less to read (`Scan.measure_next`);
* `Scan.drain` : all tokens and errors that are there;
* `Scan.ofText`, `Scan.items` : a complete text.
-/

namespace Juxta

/-! ## Reading characters -/

/-- The text that is left, with the offset and the position of its first character. -/
structure Head where
  rest : List Char
  offset : Nat
  position : Position
deriving DecidableEq

namespace Head

/-- The head after its first character. -/
def advance (h : Head) : Head :=
  match h.rest with
  | [] => h
  | c :: rest => ⟨rest, h.offset + c.utf8Size, h.position.after c⟩

/-- The head after the characters that satisfy a condition, as far as it holds. -/
def skipWhile (condition : Char → Bool) (offset : Nat) (position : Position) : List Char → Head
  | [] => ⟨[], offset, position⟩
  | c :: rest =>
    if condition c then skipWhile condition (offset + c.utf8Size) (position.after c) rest
    else ⟨c :: rest, offset, position⟩

def advanceWhile (h : Head) (condition : Char → Bool) : Head :=
  skipWhile condition h.offset h.position h.rest

/-- The text from `start` up to this head. -/
def textSince (h start : Head) : List Char :=
  start.rest.take (start.rest.length - h.rest.length)

/-- The place from `start` up to this head. -/
def since (h start : Head) : Location :=
  ⟨.between start.offset h.offset, ⟨start.position, h.position⟩⟩

end Head

/-! ## Words, numbers and strings -/

/-- Whether a word may begin with a character. -/
def beginsWord (c : Char) : Bool := Text.isLetter c || c == '_'

/-- Whether a word may go on with a character. -/
def continuesWord (c : Char) : Bool :=
  Text.isLetterOrDigit c || c == '_' || c == '-' || c == '@' || c == '#' || c == '~'

/-- Whether a text begins with a point and a digit. -/
def isFraction : List Char → Bool
  | '.' :: digit :: _ => digit.isDigit
  | _ => false

/-- The head after a number whose first character has been read. -/
def numberEnd (h : Head) : Head :=
  let h := h.advanceWhile Char.isDigit
  if isFraction h.rest then h.advance.advanceWhile Char.isDigit else h

/-- The text of a number: a zero is put before a leading point. -/
def numberText (lexeme : List Char) : String :=
  String.ofList (if lexeme.head? = some '.' then '0' :: lexeme else lexeme)

/-- The kind of a word. -/
def wordKind (lexicon : Lexicon) (word : String) : TokenKind :=
  match Keyword.ofText? word with
  | some keyword => .keyword keyword
  | none => match lexicon.operator? word with
    | some op => .operator op
    | none => .identifier word

/-- How a stretch of string text ends. -/
inductive StringStop where
  | closed
  /-- An expression is inserted. -/
  | opened
  | unterminated
deriving DecidableEq

/-- A stretch of string text: its characters with escapes decoded, the escapes that mean nothing,
and how it ends. -/
structure StringRun where
  stop : StringStop
  text : List Char
  errors : List ScanError
  head : Head

/-- The character that a letter stands for after a backslash. -/
def escaped? : Char → Option Char
  | 'n' => some '\n'
  | 't' => some '\t'
  | 'r' => some '\r'
  | c => if c = '\\' || c = '"' || c = '\'' || c = '$' then some c else none

/-- Reads string text up to the closing `quote` or the next inserted expression. Text that is not
`decoded` has neither escapes nor expressions. What has been read is kept in reverse. -/
def readString (quote : Char) (decoded : Bool) (text : List Char) (errors : List ScanError)
    (offset : Nat) (position : Position) : List Char → StringRun
  | [] => ⟨.unterminated, text.reverse, errors.reverse, ⟨[], offset, position⟩⟩
  | c :: rest =>
    let offset := offset + c.utf8Size
    let position := position.after c
    if c = quote then ⟨.closed, text.reverse, errors.reverse, ⟨rest, offset, position⟩⟩
    else if c = '$' && decoded && rest.head? = some '\x7b' then
      ⟨.opened, text.reverse, errors.reverse, (Head.mk rest offset position).advance⟩
    else if c = '\\' && decoded then
      match rest with
      | [] => ⟨.unterminated, text.reverse, errors.reverse, ⟨[], offset, position⟩⟩
      | e :: rest =>
        let after := position.after e
        match escaped? e with
        | some plain =>
          readString quote decoded (plain :: text) errors (offset + e.utf8Size) after rest
        | none =>
          let place : Location := ⟨.between offset (offset + e.utf8Size), ⟨position, after⟩⟩
          readString quote decoded (e :: text) (.unknownEscape e place :: errors)
            (offset + e.utf8Size) after rest
    else readString quote decoded (c :: text) errors offset position rest

/-! ## Reading leaves less -/

theorem Head.length_skipWhile (condition : Char → Bool) (offset : Nat) (position : Position)
    (chars : List Char) :
    (skipWhile condition offset position chars).rest.length ≤ chars.length := by
  induction chars generalizing offset position with
  | nil => simp [skipWhile]
  | cons c rest ih =>
    simp only [skipWhile]
    split
    · have := ih (offset + c.utf8Size) (position.after c); simp; omega
    · simp

theorem Head.length_advanceWhile (h : Head) (condition : Char → Bool) :
    (h.advanceWhile condition).rest.length ≤ h.rest.length := Head.length_skipWhile ..

theorem Head.length_advance (h : Head) : h.advance.rest.length = h.rest.length - 1 := by
  cases h with
  | mk rest offset position => cases rest <;> simp [advance]

theorem length_readString (quote : Char) (decoded : Bool) (text : List Char)
    (errors : List ScanError) (offset : Nat) (position : Position) (chars : List Char) :
    (readString quote decoded text errors offset position chars).head.rest.length +
      (readString quote decoded text errors offset position chars).errors.length ≤
      chars.length + errors.length := by
  fun_induction readString quote decoded text errors offset position chars <;>
    simp_all [Head.advance] <;> grind

theorem length_numberEnd (h : Head) : (numberEnd h).rest.length ≤ h.rest.length := by
  have first := h.length_advanceWhile Char.isDigit
  simp only [numberEnd]
  split
  · have second := (h.advanceWhile Char.isDigit).advance.length_advanceWhile Char.isDigit
    have := (h.advanceWhile Char.isDigit).length_advance
    omega
  · exact first

/-! ## The state between tokens -/

/-- A string that an inserted expression interrupts: its quote, and how many braces are open in
the expression. -/
structure Segment where
  quote : Char
  depth : Nat
deriving DecidableEq

/-- A token or an error. -/
abbrev ScanItem := Except ScanError Token

/-- What is known between two tokens. -/
structure Scan where
  lexicon : Lexicon
  head : Head
  /-- The bytes of all text so far. -/
  size : Nat
  /-- Whether no more text will come. -/
  closed : Bool
  /-- Whether the end has been given out. -/
  finished : Bool
  /-- The interrupted strings, the innermost first. -/
  segments : List Segment
  /-- Errors in the token given out last. -/
  pending : List ScanError

namespace Scan

/-- The state before any text. -/
def empty (lexicon : Lexicon) : Scan :=
  ⟨lexicon, ⟨[], 0, .start⟩, 0, false, false, [], []⟩

/-- Adds text at the end. -/
def push (s : Scan) (text : String) : Scan :=
  { s with head := { s.head with rest := s.head.rest ++ text.toList }
           size := s.size + text.utf8ByteSize }

/-- Ends the text. -/
def close (s : Scan) : Scan := { s with closed := true }

/-- The state before a complete text. -/
def ofText (lexicon : Lexicon) (text : String) : Scan := ((empty lexicon).push text).close

/-! ## Tokens -/

/-- Gives out the token from `start` up to `head`. -/
def yield (s : Scan) (start head : Head) (kind : TokenKind) : ScanItem × Scan :=
  (.ok ⟨kind, head.since start⟩, { s with head := head })

/-- Reads a stretch of string text; `resumed` tells that an inserted expression ended before
it. -/
def string (s : Scan) (start head : Head) (quote : Char) (decoded resumed : Bool) :
    ScanItem × Scan :=
  let run := readString quote decoded [] [] head.offset head.position head.rest
  let s := { s with pending := s.pending ++ run.errors }
  let text := String.ofList run.text
  match run.stop with
  | .closed => s.yield start run.head (if resumed then .stringEnd text else .string text)
  | .opened =>
    { s with segments := ⟨quote, 0⟩ :: s.segments }.yield start run.head
      (if resumed then .stringMiddle text else .stringStart text)
  | .unterminated =>
    (.error (.unterminatedString (run.head.since start)), { s with head := run.head })

/-- Reads an operator of the lexicon, of two characters if there is one and of one if not, or one
of the symbols that are tokens in any lexicon. -/
def symbol (s : Scan) (start head : Head) (c : Char) : ScanItem × Scan :=
  let pair := head.rest.head?.bind fun d => s.lexicon.operator? (String.ofList [c, d])
  match pair with
  | some op => s.yield start head.advance (.operator op)
  | none => match s.lexicon.operator? (String.ofList [c]) with
    | some op => s.yield start head (.operator op)
    | none => match c with
      | '=' => s.yield start head .equal
      | '<' => s.yield start head .openAngle
      | '>' => s.yield start head .closeAngle
      | _ => (.error (.unexpectedCharacter c (head.since start)), { s with head := head })

/-- Reads the token from `start` on, whose first character is `c`; `head` is behind it. -/
def token (s : Scan) (start head : Head) (c : Char) : ScanItem × Scan :=
  match c with
  | '(' => s.yield start head .openParen
  | ')' => s.yield start head .closeParen
  | '[' => s.yield start head .openBracket
  | ']' => s.yield start head .closeBracket
  | '{' =>
    let segments := match s.segments with
      | [] => []
      | inner :: outer => { inner with depth := inner.depth + 1 } :: outer
    { s with segments := segments }.yield start head .openBrace
  | '}' => match s.segments with
    | [] => s.yield start head .closeBrace
    | inner :: outer =>
      if inner.depth = 0 then { s with segments := outer }.string start head inner.quote true true
      else
        { s with segments := { inner with depth := inner.depth - 1 } :: outer }.yield start head
          .closeBrace
  | ',' => s.yield start head .comma
  | ':' => s.yield start head .colon
  | '-' => s.yield start head .minus
  | '|' => s.yield start (head.advanceWhile (· != '\n')) .comment
  | '"' => s.string start head c true false
  | '\'' => s.string start head c true false
  | '`' => s.string start head c false false
  | _ =>
    if c.isDigit || isFraction (c :: head.rest) then
      let stop := numberEnd head
      s.yield start stop (.number (numberText (stop.textSince start)))
    else if c = '.' then s.yield start head .dot
    else if beginsWord c then
      let stop := head.advanceWhile continuesWord
      s.yield start stop (wordKind s.lexicon (String.ofList (stop.textSince start)))
    else s.symbol start head c

/-- The next token or error, if there is one. -/
def next (s : Scan) : Option ScanItem × Scan :=
  match s.pending with
  | error :: rest => (some (.error error), { s with pending := rest })
  | [] =>
    if s.finished then (none, s)
    else
      let s := { s with head := s.head.advanceWhile Text.isBlank }
      match s.head.rest with
      | [] =>
        if s.closed then
          let (item, s) := { s with finished := true }.yield s.head s.head .endOfText
          (some item, s)
        else (none, s)
      | c :: _ =>
        let (item, t) := s.token s.head s.head.advance c
        -- more text could make a token longer that reaches the end
        if !s.closed && t.head.rest.isEmpty then (none, s) else (some item, t)

/-! ## Every item takes something away -/

/-- How much is left: characters, errors and the end. -/
def measure (s : Scan) : Nat :=
  s.head.rest.length + s.pending.length + (!s.finished).toNat

theorem measure_string (s : Scan) (start head : Head) (quote : Char) (decoded resumed : Bool) :
    (s.string start head quote decoded resumed).2.measure ≤
      head.rest.length + s.pending.length + (!s.finished).toNat := by
  have := length_readString quote decoded [] [] head.offset head.position head.rest
  simp only [string]
  split <;> simp [yield, measure] at * <;> omega

theorem measure_symbol (s : Scan) (start head : Head) (c : Char) :
    (s.symbol start head c).2.measure ≤
      head.rest.length + s.pending.length + (!s.finished).toNat := by
  have := head.length_advance
  simp only [symbol]
  repeat' split
  all_goals simp [yield, measure] at * <;> omega

theorem measure_token (s : Scan) (start head : Head) (c : Char) :
    (s.token start head c).2.measure ≤
      head.rest.length + s.pending.length + (!s.finished).toNat := by
  have words := head.length_advanceWhile continuesWord
  have comment := head.length_advanceWhile (· != '\n')
  have number := length_numberEnd head
  unfold token
  split
  case h_6 =>
    split
    · simp [yield, measure]
    · split
      · exact measure_string ..
      · simp [yield, measure]
  case h_14 =>
    repeat' split
    · simp [yield, measure]; omega
    · simp [yield, measure]
    · simp [yield, measure]; omega
    · exact measure_symbol ..
  case h_10 => simpa [yield, measure] using comment
  case h_11 | h_12 | h_13 => exact measure_string ..
  all_goals simp [yield, measure]

theorem measure_next {s t : Scan} {item : ScanItem} (h : s.next = (some item, t)) :
    t.measure < s.measure := by
  have blanks := s.head.length_advanceWhile Text.isBlank
  unfold next at h
  split at h
  · rename_i error rest pending
    cases h
    simp [measure, pending]
  · rename_i pending
    split at h
    · simp at h
    · rename_i finished
      simp only at h
      split at h
      · rename_i empty
        split at h
        · cases h
          simp [measure, yield, pending, finished, empty]
        · simp at h
      · rename_i c rest found
        split at h
        · simp at h
        · cases h
          have := measure_token { s with head := s.head.advanceWhile Text.isBlank }
            (s.head.advanceWhile Text.isBlank) (s.head.advanceWhile Text.isBlank).advance c
          have step := (s.head.advanceWhile Text.isBlank).length_advance
          simp [measure, found] at *
          omega
/-- All tokens and errors that are there. -/
def drain (s : Scan) : List ScanItem × Scan :=
  match h : s.next with
  | (none, t) => ([], t)
  | (some item, t) =>
    have := measure_next h
    let (items, u) := t.drain
    (item :: items, u)
termination_by s.measure

/-- The tokens and errors of a complete text. -/
def items (lexicon : Lexicon) (text : String) : List ScanItem := (ofText lexicon text).drain.1

end Scan

end Juxta
