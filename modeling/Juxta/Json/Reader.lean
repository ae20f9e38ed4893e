import Juxta.Json.Basic
import Juxta.Text.Quoted

/-!
# Reading JSON text piece by piece

* `Json.Cursor` : the text that is left and the place reached, in lines and bytes;
* `Json.Cause`, `Json.Failure` : why reading fails, and where; `Json.Failure.message` words it;
* `Json.Reader` : a step that reads from a cursor; one that fails keeps the cursor it reached;
* `Reader.string`, `Reader.number`, `Reader.value` : strings, numbers and whole values;
* `Json.parse` : a complete text.
-/

namespace Juxta.Json

/-- A line, counted from one, and the number of bytes read on it. -/
structure Place where
  line : Nat
  column : Nat
deriving DecidableEq

/-- The place after `bytes` bytes of some text. -/
def Place.after (place : Place) : (bytes : Nat) → List Char → Place
  | 0, _ | _, [] => place
  | bytes, c :: rest =>
    if c.utf8Size ≤ bytes then
      let next : Place :=
        if c = '\n' then ⟨place.line + 1, 0⟩ else ⟨place.line, place.column + c.utf8Size⟩
      next.after (bytes - c.utf8Size) rest
    else ⟨place.line, place.column + bytes⟩
termination_by _ chars => chars.length

/-- What is left to read, and where it begins. -/
structure Cursor where
  rest : List Char
  place : Place

/-- What was found in place of something else. -/
inductive Found where
  | null
  | bool (value : Bool)
  | whole (value : Int)
  | real (value : Binary64)
  | str (value : String)
  | sequence
  | map

def Found.text : Found → String
  | .null => "null"
  | .bool value => if value then "boolean `true`" else "boolean `false`"
  | .whole value => s!"integer `{value}`"
  | .real value => s!"floating point `{value.text}`"
  | .str value => s!"string {Text.Quoted.string value}"
  | .sequence => "sequence"
  | .map => "map"

/-- Why a text cannot be read. -/
inductive Cause where
  | endInValue | endInList | endInObject | endInString
  | expectedValue | expectedIdent | expectedColon | expectedQuote
  | expectedListEnd | expectedObjectEnd
  | trailingCharacters | trailingComma
  | keyNoString | keyNoNumber
  | invalidNumber | numberOutOfRange
  | invalidEscape | hexEscapeEnds | loneSurrogate | controlCharacter
  | tooDeep
  | missingField (name : String)
  | duplicateField (name : String)
  | unknownField (name : String) (known : List String)
  | unknownVariant (name : String) (known : List String)
  | invalidType (found : Found) (expected : String)
  | invalidValue (found : Found) (expected : String)
  | invalidLength (length : Nat) (expected : String)
  | noVariant (type : String)

/-- The names that would have been right. -/
def knownNames (known : List String) : String :=
  match known.map (fun name => s!"`{name}`") with
  | [] => "nothing"
  | [one] => one
  | [one, two] => s!"{one} or {two}"
  | names => "one of " ++ ", ".intercalate names

def Cause.text : Cause → String
  | .endInValue => "EOF while parsing a value"
  | .endInList => "EOF while parsing a list"
  | .endInObject => "EOF while parsing an object"
  | .endInString => "EOF while parsing a string"
  | .expectedValue => "expected value"
  | .expectedIdent => "expected ident"
  | .expectedColon => "expected `:`"
  | .expectedQuote => "expected `\"`"
  | .expectedListEnd => "expected `,` or `]`"
  | .expectedObjectEnd => "expected `,` or `\x7d`"
  | .trailingCharacters => "trailing characters"
  | .trailingComma => "trailing comma"
  | .keyNoString => "key must be a string"
  | .keyNoNumber => "invalid value: expected key to be a number in quotes"
  | .invalidNumber => "invalid number"
  | .numberOutOfRange => "number out of range"
  | .invalidEscape => "invalid escape"
  | .hexEscapeEnds => "unexpected end of hex escape"
  | .loneSurrogate => "lone leading surrogate in hex escape"
  | .controlCharacter => "control character (\\u0000-\\u001F) found while parsing a string"
  | .tooDeep => "recursion limit exceeded"
  | .missingField name => s!"missing field `{name}`"
  | .duplicateField name => s!"duplicate field `{name}`"
  | .unknownField name known => s!"unknown field `{name}`, expected {knownNames known}"
  | .unknownVariant name known => s!"unknown variant `{name}`, expected {knownNames known}"
  | .invalidType found expected => s!"invalid type: {found.text}, expected {expected}"
  | .invalidValue found expected => s!"invalid value: {found.text}, expected {expected}"
  | .invalidLength length expected => s!"invalid length {length}, expected {expected}"
  | .noVariant type => s!"data did not match any variant of untagged enum {type}"

/-- A cause, and the place once it is known. -/
structure Failure where
  cause : Cause
  place : Option Place

def Failure.message (failure : Failure) : String :=
  match failure.place with
  | some place => s!"{failure.cause.text} at line {place.line} column {place.column}"
  | none => failure.cause.text

/-- A step that reads from a cursor. -/
abbrev Reader := ExceptT Failure (StateM Cursor)

namespace Reader

/-- The next character, which is not read. -/
def peek : Reader (Option Char) := do return (← get).rest.head?

/-- Fails at the place reached. -/
def fail {α : Type} (cause : Cause) : Reader α := do throw ⟨cause, some (← get).place⟩

/-- Fails at the next byte. -/
def failNext {α : Type} (cause : Cause) : Reader α := do
  let cursor ← get
  throw ⟨cause, some (cursor.place.after 1 cursor.rest)⟩

/-- Fails at a place that the reader of the enclosing value decides. -/
def refuse {α : Type} (cause : Cause) : Reader α := throw ⟨cause, none⟩

/-- Gives a failure without a place the one that is reached. -/
def located {α : Type} (reader : Reader α) : Reader α :=
  tryCatch reader fun failure => match failure.place with
    | some _ => throw failure
    | none => fail failure.cause

/-- How many bytes some characters take. -/
def byteCount : List Char → Nat
  | [] => 0
  | c :: rest => c.utf8Size + byteCount rest

/-- Reads `count` characters. -/
def skip (count : Nat) : Reader Unit := modify fun cursor =>
  let chars := cursor.rest.take count
  ⟨cursor.rest.drop count, cursor.place.after (byteCount chars) chars⟩

/-- Reads the characters that satisfy a condition, as far as it holds. -/
def span (condition : Char → Bool) : Reader (List Char) := do
  let chars := (← get).rest.takeWhile condition
  skip chars.length
  return chars

def isBlank (c : Char) : Bool := c == ' ' || c == '\n' || c == '\t' || c == '\r'

/-- Reads blanks and looks at what follows. -/
def next : Reader (Option Char) := do
  discard <| span isBlank
  peek

/-- Repeats a step until it gives a result, `fuel` times at most. -/
def iterateTo {σ β : Type} (step : σ → Reader (Sum σ β)) : (fuel : Nat) → σ → Reader β
  | 0, _ => fail .endInValue
  | fuel + 1, state => do
    match ← step state with
    | .inl state => iterateTo step fuel state
    | .inr result => return result

/-- Repeats a step until it gives a result. No two steps in a row read nothing. -/
def iterate {σ β : Type} (step : σ → Reader (Sum σ β)) (state : σ) : Reader β := do
  iterateTo step (2 * ((← get).rest.length + 1)) state

/-! ## Words and strings -/

/-- Reads the letters of a word one by one. -/
def word : List Char → Reader Unit
  | [] => return
  | c :: rest => do
    match ← peek with
    | none => fail .endInValue
    | some found =>
      if found = c then do
        skip 1
        word rest
      else failNext .expectedIdent

def hexDigit? (c : Char) : Option Nat :=
  if c.isDigit then some (c.toNat - 48)
  else if 'a' ≤ c && c ≤ 'f' then some (c.toNat - 87)
  else if 'A' ≤ c && c ≤ 'F' then some (c.toNat - 55)
  else none

/-- Reads four hexadecimal digits. -/
def hexEscape : Reader Nat := do
  let cursor ← get
  match cursor.rest.take 4 |>.mapM hexDigit? with
  | some [a, b, c, d] =>
    skip 4
    return ((a * 16 + b) * 16 + c) * 16 + d
  | _ =>
    let bytes := byteCount cursor.rest
    let cause := if bytes < 4 then Cause.endInString else .invalidEscape
    throw ⟨cause, some (cursor.place.after (Nat.min bytes 4) cursor.rest)⟩

/-- Reads one character that must stand in an escape of a surrogate pair. -/
def pairMark (c : Char) : Reader Unit := do
  match ← peek with
  | none => fail .endInString
  | some found => if found = c then skip 1 else failNext .hexEscapeEnds

/-- Reads the digits of an escape, and its second half if it is the first of a surrogate pair. -/
def unicodeEscape : Reader Char := do
  let first ← hexEscape
  if 0xDC00 ≤ first && first ≤ 0xDFFF then fail .loneSurrogate
  else if first < 0xD800 || 0xDBFF < first then return Char.ofNat first
  else
    pairMark '\\'
    pairMark 'u'
    let second ← hexEscape
    if second < 0xDC00 || 0xDFFF < second then fail .loneSurrogate
    else return Char.ofNat ((first - 0xD800) * 1024 + (second - 0xDC00) + 0x10000)

/-- The character that a letter stands for after a backslash. -/
def escaped? : Char → Option Char
  | '"' => some '"'
  | '\\' => some '\\'
  | '/' => some '/'
  | 'b' => some '\x08'
  | 'f' => some '\x0c'
  | 'n' => some '\n'
  | 'r' => some '\r'
  | 't' => some '\t'
  | _ => none

/-- Reads what follows a backslash; `code` reads what follows the letter of a code point. -/
def escape {α : Type} (plain : Char → α) (code : Reader α) : Reader α := do
  match ← peek with
  | none => fail .endInString
  | some 'u' => skip 1; code
  | some c => match escaped? c with
    | some d => skip 1; return plain d
    | none => failNext .invalidEscape

/-- Reads a string after its opening quote and puts its pieces together. `code` reads the digits of
a code point, and `control` fails at a control character. -/
def pieces {α : Type} (append : α → List Char → α) (code : Reader (List Char))
    (control : Reader (Sum α α)) (empty : α) : Reader α :=
  iterate (fun (done : α) => do
    let plain ← span fun c => c != '"' && c != '\\' && 32 ≤ c.toNat
    let done := append done plain
    match ← peek with
    | none => fail .endInString
    | some '"' => skip 1; return .inr done
    | some '\\' => skip 1; return .inl (append done (← escape (fun c => [c]) code))
    | some _ => control) empty

/-- Reads a string after its opening quote. -/
def string : Reader String :=
  pieces (fun done chars => done ++ String.ofList chars) (do return [← unicodeEscape])
    (failNext .controlCharacter) ""

/-- Passes over a string after its opening quote. Code points need four digits, but surrogates no
partner. -/
def skipString : Reader Unit :=
  pieces (fun _ _ => ()) (do discard hexEscape; return []) (fail .controlCharacter) ()

/-! ## Numbers -/

/-- A significand of at most 64 bits and the power of ten that it stands for. -/
structure Significand where
  value : Nat
  exponent : Int

/-- The first number of more than 64 bits. -/
def wordBound : Nat := 18446744073709551616

/-- The first magnitude of more than 63 bits: that of the least signed 64-bit integer. -/
def signedBound : Nat := 9223372036854775808

def digitValue (c : Char) : Nat := c.toNat - 48

/-- Takes the digits before a point. Once one does not fit, it and the others only count. -/
def Significand.takeWhole (digits : List Char) : Significand :=
  digits.foldl (fun s c =>
    if s.exponent = 0 && s.value * 10 + digitValue c < wordBound then
      ⟨s.value * 10 + digitValue c, 0⟩
    else ⟨s.value, s.exponent + 1⟩) ⟨0, 0⟩

/-- Takes the digits behind a point as long as they fit, and leaves out the others. -/
def Significand.takeFraction (s : Significand) : List Char → Significand
  | [] => s
  | c :: rest =>
    if s.value * 10 + digitValue c < wordBound then
      takeFraction ⟨s.value * 10 + digitValue c, s.exponent - 1⟩ rest
    else s

/-- The greatest power of ten that is a binary number. -/
def greatestTen : Nat := 308

/-- Scales a binary number by a power of ten in one rounded operation; an exponent below the range
takes a division by the greatest power first. -/
def scaleTen : (steps : Nat) → Binary64 → Int → Option Binary64
  | 0, _, _ => some (.zero false)
  | steps + 1, x, exponent =>
    if exponent.natAbs ≤ greatestTen then do
      let power ← Binary64.tenPower? exponent.natAbs
      if 0 ≤ exponent then x.mul? power else x.div? power
    else if x.isZero then some x
    else if 0 ≤ exponent then none
    else do
      scaleTen steps (← x.div? (← Binary64.tenPower? greatestTen)) (exponent + greatestTen)

/-- The number that a significand stands for. -/
def real (negative : Bool) (s : Significand) : Reader Json := do
  match (Binary64.ofNat? s.value).bind (fun x => scaleTen 4 x s.exponent) with
  | some x => return .real (x.withSign negative)
  | none => fail .numberOutOfRange

/-- The first number that does not fit a signed 32-bit integer. -/
def exponentBound : Nat := 2147483648

/-- The length of the shortest beginning of some digits whose value does not fit an exponent. -/
def excess? (digits : List Char) : Option Nat :=
  let rec go (value taken : Nat) : List Char → Option Nat
    | [] => none
    | c :: rest =>
      let value := value * 10 + digitValue c
      if exponentBound ≤ value then some (taken + 1) else go value (taken + 1) rest
  go 0 0 digits

/-- Reads an exponent after its letter. -/
def exponent (negative : Bool) (s : Significand) : Reader Json := do
  let sign ← peek
  if sign = some '+' || sign = some '-' then skip 1
  match ← peek with
  | none => fail .endInValue
  | some c => unless c.isDigit do failNext .invalidNumber
  let digits := (← get).rest.takeWhile Char.isDigit
  match excess? digits with
  | some taken =>
    if s.value != 0 && sign != some '-' then
      skip taken
      fail .numberOutOfRange
    skip digits.length
    return .real (.zero negative)
  | none =>
    skip digits.length
    let value : Int := digits.foldl (fun n c => n * 10 + digitValue c) 0
    real negative ⟨s.value, if sign = some '-' then s.exponent - value else s.exponent + value⟩

/-- Reads a fraction after its point. -/
def fraction (negative : Bool) (s : Significand) : Reader Json := do
  let digits ← span Char.isDigit
  if digits.isEmpty then
    if (← peek).isNone then fail .endInValue else failNext .invalidNumber
  let s := s.takeFraction digits
  match ← peek with
  | some 'e' | some 'E' => skip 1; exponent negative s
  | _ => real negative s

/-- A whole number, in binary if it is no 64-bit integer or the negative zero. -/
def whole (negative : Bool) (s : Significand) : Reader Json :=
  if s.exponent != 0 then real negative s
  else if !negative then return .whole s.value
  else if s.value != 0 && s.value ≤ signedBound then return .whole (-s.value)
  else real true s

/-- Reads a number after its sign. -/
def number (negative : Bool) : Reader Json := do
  match ← peek with
  | none => fail .endInValue
  | some c => unless c.isDigit do failNext .invalidNumber
  let digits := (← get).rest.takeWhile Char.isDigit
  if digits.head? = some '0' && 1 < digits.length then
    skip 1
    failNext .invalidNumber
  skip digits.length
  let s := Significand.takeWhole digits
  match ← peek with
  | some '.' => skip 1; fraction negative s
  | some 'e' | some 'E' => skip 1; exponent negative s
  | _ => whole negative s

/-! ## Values -/

/-- Looks for another item of a list; false at its end. -/
def moreItems (first : Bool) : Reader Bool := do
  match ← next with
  | none => failNext .endInList
  | some ']' => return false
  | some c =>
    if first then return true
    if c != ',' then failNext .expectedListEnd
    skip 1
    match ← next with
    | some ']' => failNext .trailingComma
    | some _ => return true
    | none => failNext .endInValue

/-- Looks for another key of an object; false at its end. -/
def moreKeys (first : Bool) : Reader Bool := do
  match ← next with
  | none => failNext .endInObject
  | some '}' => return false
  | some c =>
    if first then
      if c = '"' then return true
      failNext .keyNoString
    if c != ',' then failNext .expectedObjectEnd
    skip 1
    match ← next with
    | some '"' => return true
    | some '}' => failNext .trailingComma
    | some _ => failNext .keyNoString
    | none => failNext .endInValue

/-- Reads the colon after a key. -/
def colon : Reader Unit := do
  match ← next with
  | some ':' => skip 1
  | some _ => failNext .expectedColon
  | none => failNext .endInObject

/-- Reads the end of a list. -/
def endList : Reader Unit := do
  match ← next with
  | some ']' => skip 1
  | some ',' =>
    skip 1
    if (← next) = some ']' then failNext .trailingComma else failNext .trailingCharacters
  | some _ => failNext .trailingCharacters
  | none => failNext .endInList

/-- Reads the end of an object. -/
def endObject : Reader Unit := do
  match ← next with
  | some '}' => skip 1
  | some ',' => failNext .trailingComma
  | some _ => failNext .trailingCharacters
  | none => failNext .endInObject

/-- Reads what stands between the brackets of a list, each item with `item`. -/
def items {α : Type} (item : Reader α) : Reader (List α) :=
  iterate (fun (done : List α) => do
    if ← moreItems done.isEmpty then return .inl ((← item) :: done)
    else return .inr done.reverse) []

/-- Reads a value. Lists and objects nest less than `room` deep. -/
def value : (room : Nat) → Reader Json
  | 0 => failNext .tooDeep
  | room + 1 => do
    match ← next with
    | none => failNext .endInValue
    | some 'n' => word "null".toList; return .null
    | some 't' => word "true".toList; return .bool true
    | some 'f' => word "false".toList; return .bool false
    | some '-' => skip 1; number true
    | some '"' => skip 1; return .str (← string)
    | some '[' =>
      if room = 0 then failNext .tooDeep
      skip 1
      let done ← items (value room)
      endList
      return .arr done
    | some '{' =>
      if room = 0 then failNext .tooDeep
      skip 1
      let fields ← iterate (fun (done : List (String × Json)) => do
        if ← moreKeys done.isEmpty then
          skip 1
          let name ← string
          colon
          return .inl ((name, ← value room) :: done)
        else return .inr (Fields.ofPairs done.reverse)) []
      endObject
      return .obj fields
    | some c => if c.isDigit then number false else failNext .expectedValue

/-- How deep lists and objects nest, and one more. -/
def nesting : Nat := 128

/-- Reads a complete text. -/
def readAll {α : Type} (reader : Reader α) (text : String) : Except Failure α :=
  let complete : Reader α := do
    let result ← reader
    match ← next with
    | some _ => failNext .trailingCharacters
    | none => return result
  (ExceptT.run complete ⟨text.toList, ⟨1, 0⟩⟩).1

end Reader

/-- The value that a text stands for. -/
def parse (text : String) : Except Failure Json :=
  Reader.readAll (Reader.value Reader.nesting) text

end Juxta.Json
