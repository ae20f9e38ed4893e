import Juxta.Grammar.Basic

/-!
# The language of programs

The grammar in extended Backus-Naur form, without rules that wait and without nodes.

* `Terminal` : classes of tokens;
* `Phrase`, `Piece` : what has a name in the grammar, and what the alternatives of a phrase consist
  of; a sequence may also end before a token without taking it (`Piece.ahead`);
* `Piece.alternatives` : the grammar;
* `Derives` : the tokens that some pieces in a row stand for; `IsProgram` for whole programs;
* `Derives.front` : what follows some pieces may be replaced by what derives as much;
* `derives_sequence`, `derives_afterTerm` : a sequence one expression or dot at a time;
* `Phrase.starts` : the tokens with which a phrase may start.
-/

namespace Juxta

/-! ## Grammar -/

/-- A class of tokens. -/
inductive Terminal where
  | exactly (kind : TokenKind)
  | name | number | string | stringStart | stringMiddle | stringEnd | operator

/-- The tokens of a class. -/
def Terminal.Accepts : Terminal → TokenKind → Prop
  | .exactly kind, found => found = kind
  | .name, found => ∃ name, found = .identifier name
  | .number, found => ∃ lexeme, found = .number lexeme
  | .string, found => ∃ text, found = .string text
  | .stringStart, found => ∃ text, found = .stringStart text
  | .stringMiddle, found => ∃ text, found = .stringMiddle text
  | .stringEnd, found => ∃ text, found = .stringEnd text
  | .operator, found => ∃ op, found = .operator op

/-- What has a name in the grammar. In patterns the elements of lists are patterns again. -/
inductive Phrase where
  | program | sequence | expression | conditional
  | unary (pattern : Bool)
  | primary (pattern : Bool)

/-- A piece of an alternative. -/
inductive Piece where
  | token (terminal : Terminal)
  /-- The next token ends a sequence. It is not taken. -/
  | ahead
  | phrase (phrase : Phrase)
  | choice (alternatives : List (List Piece))
  | many (body : List Piece)

namespace Piece

/-- One kind of token. -/
abbrev exactly (kind : TokenKind) : Piece := .token (.exactly kind)

abbrev word (word : Keyword) : Piece := .exactly (.keyword word)

abbrev name : Piece := .token .name

abbrev optional (body : List Piece) : Piece := .choice [body, []]

abbrev sequence : Piece := .phrase .sequence

abbrev expression : Piece := .phrase .expression

/-- An expression, and a dot that separates it from the next one. -/
abbrev separated : List Piece := [expression, optional [exactly .dot]]

abbrev parameters : Piece := .many [name]

abbrev clauses : Piece :=
  .many [word .ofWord, .phrase (.unary true), exactly .colon, sequence]

abbrev operations : Piece := .many [.token .operator, .phrase (.unary false)]

abbrev fields : Piece :=
  .many [.choice [[name], [.token .string]], exactly .colon, sequence, optional [exactly .comma]]

/-- An element of a list. In patterns it is a pattern. -/
abbrev element (pattern : Bool) : Piece := if pattern then .phrase (.unary true) else expression

/-- Elements of a list, with commas anywhere. -/
abbrev elements (pattern : Bool) : Piece := .many [.choice [[element pattern], [exactly .comma]]]

abbrev insertions : Piece := .many [.token .stringMiddle, sequence]

/-- The grammar. A sequence ends before a token that ends sequences, or with a dot that is its first
token or follows a dot between expressions. -/
def alternatives : Phrase → List (List Piece)
  | .program => [[sequence, exactly .endOfText]]
  | .sequence =>
    [[.many separated, .ahead],
     [exactly .dot],
     [.many separated, expression, exactly .dot, exactly .dot]]
  | .expression =>
    [[word .letWord, name, parameters, exactly .equal, sequence],
     [.phrase .conditional]]
  | .conditional =>
    [[word .caseWord, sequence, clauses, word .endWord],
     [word .ifWord, sequence, word .thenWord, sequence, optional [word .elseWord, sequence],
       word .endWord],
     [.phrase (.unary false), operations]]
  | .unary pattern =>
    [[exactly .minus, .phrase (.unary pattern)],
     [.phrase (.primary pattern)]]
  | .primary pattern =>
    [[.token .number], [.token .string], [word .trueWord], [word .falseWord], [word .nullWord],
     [name],
     [exactly .openBrace, fields, exactly .closeBrace],
     [exactly .openBracket, elements pattern, exactly .closeBracket],
     [exactly .openParen, sequence, exactly .closeParen],
     [exactly .openAngle, parameters, exactly .colon, sequence, exactly .closeAngle],
     [.token .stringStart, sequence, insertions, .token .stringEnd]]

/-- A piece is replaced by others, or it takes a token. -/
inductive Expands : Piece → List TokenKind → List Piece → List TokenKind → Prop where
  | token {terminal : Terminal} {kind : TokenKind} {kinds : List TokenKind}
      (h : terminal.Accepts kind) : Expands (.token terminal) (kind :: kinds) [] kinds
  | ahead {kind : TokenKind} {kinds : List TokenKind} (h : kind.endsSequence = true) :
      Expands .ahead (kind :: kinds) [] (kind :: kinds)
  | phrase {phrase : Phrase} {alternative : List Piece} {kinds : List TokenKind}
      (h : alternative ∈ alternatives phrase) : Expands (.phrase phrase) kinds alternative kinds
  | choice {options : List (List Piece)} {option : List Piece} {kinds : List TokenKind}
      (h : option ∈ options) : Expands (.choice options) kinds option kinds
  | enough {body : List Piece} {kinds : List TokenKind} : Expands (.many body) kinds [] kinds
  | again {body : List Piece} {kinds : List TokenKind} :
      Expands (.many body) kinds (body ++ [.many body]) kinds

end Piece

/-- The tokens that some pieces in a row stand for, up to the end of the text. -/
inductive Derives : List Piece → List TokenKind → Prop where
  | nil : Derives [] []
  | cons {piece : Piece} {rest more : List Piece} {kinds left : List TokenKind}
      (h : piece.Expands kinds more left) (hrest : Derives (more ++ rest) left) :
      Derives (piece :: rest) kinds

/-- Tokens that are a program. -/
def IsProgram (kinds : List TokenKind) : Prop := Derives [.phrase .program] kinds

/-! ## One piece at a time -/

section

variable {rest : List Piece} {kind : TokenKind} {kinds : List TokenKind}

@[simp] theorem derives_nil : Derives [] kinds ↔ kinds = [] := by
  constructor
  · rintro ⟨⟩
    rfl
  · rintro rfl
    exact .nil

@[simp] theorem derives_token {terminal : Terminal} :
    Derives (.token terminal :: rest) (kind :: kinds) ↔
      terminal.Accepts kind ∧ Derives rest kinds := by
  constructor
  · rintro (_ | ⟨hpiece, hrest⟩)
    cases hpiece with
    | token h => exact ⟨h, hrest⟩
  · rintro ⟨h, hrest⟩
    exact .cons (.token h) hrest

@[simp] theorem not_derives_token_nil {terminal : Terminal} :
    ¬ Derives (.token terminal :: rest) [] := by
  rintro (_ | ⟨⟨⟩, hrest⟩)

@[simp] theorem derives_ahead :
    Derives (.ahead :: rest) (kind :: kinds) ↔
      kind.endsSequence = true ∧ Derives rest (kind :: kinds) := by
  constructor
  · rintro (_ | ⟨hpiece, hrest⟩)
    cases hpiece with
    | ahead h => exact ⟨h, hrest⟩
  · rintro ⟨h, hrest⟩
    exact .cons (.ahead h) hrest

theorem derives_phrase {phrase : Phrase} :
    Derives (.phrase phrase :: rest) kinds ↔
      ∃ alternative ∈ Piece.alternatives phrase, Derives (alternative ++ rest) kinds := by
  constructor
  · rintro (_ | ⟨hpiece, hrest⟩)
    cases hpiece with
    | phrase h => exact ⟨_, h, hrest⟩
  · rintro ⟨alternative, h, hrest⟩
    exact .cons (.phrase h) hrest

theorem derives_choice {options : List (List Piece)} :
    Derives (.choice options :: rest) kinds ↔
      ∃ option ∈ options, Derives (option ++ rest) kinds := by
  constructor
  · rintro (_ | ⟨hpiece, hrest⟩)
    cases hpiece with
    | choice h => exact ⟨_, h, hrest⟩
  · rintro ⟨option, h, hrest⟩
    exact .cons (.choice h) hrest

@[simp] theorem derives_optional {body : List Piece} :
    Derives (.optional body :: rest) kinds ↔
      Derives (body ++ rest) kinds ∨ Derives rest kinds := by
  simp [derives_choice]

theorem derives_many {body : List Piece} :
    Derives (.many body :: rest) kinds ↔
      Derives rest kinds ∨ Derives (body ++ .many body :: rest) kinds := by
  constructor
  · rintro (_ | ⟨⟨⟩, hrest⟩)
    · exact .inl hrest
    · rw [List.append_assoc] at hrest
      exact .inr hrest
  · rintro (hrest | hrest)
    · exact .cons .enough hrest
    · refine .cons .again ?_
      rw [List.append_assoc]
      exact hrest

end

/-! ## Phrases -/

section

open Piece

variable {rest : List Piece} {kinds : List TokenKind} {pattern : Bool}

theorem derives_expression :
    Derives (expression :: rest) kinds ↔
      Derives (word .letWord :: name :: parameters :: exactly .equal :: sequence :: rest) kinds ∨
        Derives (.phrase .conditional :: rest) kinds := by
  rw [derives_phrase]
  simp [alternatives]

theorem derives_conditional :
    Derives (.phrase .conditional :: rest) kinds ↔
      Derives (word .caseWord :: sequence :: clauses :: word .endWord :: rest) kinds ∨
        Derives (word .ifWord :: sequence :: word .thenWord :: sequence ::
          optional [word .elseWord, sequence] :: word .endWord :: rest) kinds ∨
        Derives (.phrase (.unary false) :: operations :: rest) kinds := by
  rw [derives_phrase]
  simp [alternatives]

theorem derives_unary :
    Derives (.phrase (.unary pattern) :: rest) kinds ↔
      Derives (exactly .minus :: .phrase (.unary pattern) :: rest) kinds ∨
        Derives (.phrase (.primary pattern) :: rest) kinds := by
  rw [derives_phrase]
  simp [alternatives]

theorem derives_elements :
    Derives (elements pattern :: rest) kinds ↔ Derives rest kinds ∨
      Derives (element pattern :: elements pattern :: rest) kinds ∨
      Derives (exactly .comma :: elements pattern :: rest) kinds := by
  rw [derives_many]
  simp [derives_choice]

end

/-! ## Pieces that are replaced by others -/

section

variable {rest : List Piece} {kind : TokenKind} {kinds : List TokenKind}

/-- What follows some pieces may be replaced by one of several ways to derive as much. -/
theorem Derives.front {back front : List Piece} {options : List (List Piece)}
    (h : ∀ kinds, Derives back kinds → ∃ option ∈ options, Derives option kinds)
    (hd : Derives (front ++ back) kinds) : ∃ option ∈ options, Derives (front ++ option) kinds := by
  generalize hall : front ++ back = all at hd
  induction hd generalizing front with
  | nil =>
    obtain ⟨rfl, rfl⟩ := List.append_eq_nil_iff.1 hall
    exact h [] .nil
  | cons hpiece hrest ih =>
    cases front with
    | nil =>
      rw [List.nil_append] at hall
      subst hall
      exact h _ (.cons hpiece hrest)
    | cons first front =>
      obtain ⟨rfl, rfl⟩ := List.cons.inj hall
      obtain ⟨option, hm, hoption⟩ := ih (List.append_assoc ..)
      rw [List.append_assoc] at hoption
      exact ⟨option, hm, .cons hpiece hoption⟩

/-- Which option a piece stands for may be chosen before the pieces in front of it. -/
theorem derives_front (front : List Piece) {piece : Piece} {options : List (List Piece)}
    (h : ∀ kinds, Derives (piece :: rest) kinds ↔
      ∃ option ∈ options, Derives (option ++ rest) kinds) :
    Derives (front ++ piece :: rest) kinds ↔
      ∃ option ∈ options, Derives (front ++ (option ++ rest)) kinds := by
  constructor
  · intro hd
    have hoptions : ∀ kinds, Derives (piece :: rest) kinds →
        ∃ option ∈ options.map (· ++ rest), Derives option kinds := by
      intro kinds hd
      obtain ⟨option, hm, hoption⟩ := (h kinds).1 hd
      exact ⟨option ++ rest, List.mem_map_of_mem hm, hoption⟩
    obtain ⟨option, hm, hoption⟩ := hd.front hoptions
    obtain ⟨chosen, hchosen, rfl⟩ := List.mem_map.1 hm
    exact ⟨chosen, hchosen, hoption⟩
  · rintro ⟨option, hm, hd⟩
    have honly : ∀ kinds, Derives (option ++ rest) kinds →
        ∃ only ∈ [piece :: rest], Derives only kinds :=
      fun kinds hd => ⟨_, List.mem_singleton_self _, (h kinds).2 ⟨option, hm, hd⟩⟩
    obtain ⟨only, hsingle, hd⟩ := hd.front honly
    rw [List.mem_singleton.1 hsingle] at hd
    exact hd

/-! ## Sequences -/

open Piece

/-- What may follow an expression in a sequence. -/
abbrev Piece.afterTerm : Piece :=
  .choice [[optional [exactly .dot], .many separated, .ahead],
    [exactly .dot, exactly .dot],
    [optional [exactly .dot], .many separated, expression, exactly .dot, exactly .dot]]

/-- The terms of a sequence, with either end. -/
theorem derives_terms :
    Derives (.many separated :: .ahead :: rest) kinds ∨
        Derives (.many separated :: expression :: exactly .dot :: exactly .dot :: rest) kinds ↔
      Derives (.ahead :: rest) kinds ∨ Derives (expression :: afterTerm :: rest) kinds := by
  have hchoice : Derives ([expression] ++ afterTerm :: rest) kinds ↔ _ :=
    derives_front [expression] fun _ => derives_choice
  simp only [List.cons_append, List.nil_append] at hchoice
  rw [derives_many, derives_many, hchoice]
  simp [or_assoc]

/-- What a sequence starts with. -/
theorem derives_sequence :
    Derives (sequence :: rest) kinds ↔ Derives (.ahead :: rest) kinds ∨
      Derives (exactly .dot :: rest) kinds ∨ Derives (expression :: afterTerm :: rest) kinds := by
  rw [or_left_comm, ← derives_terms, or_left_comm, derives_phrase]
  simp [alternatives]

/-- What may come after an expression. A dot only separates. -/
theorem derives_afterTerm :
    Derives (afterTerm :: rest) kinds ↔ Derives (.ahead :: rest) kinds ∨
      Derives (exactly .dot :: sequence :: rest) kinds ∨
      Derives (expression :: afterTerm :: rest) kinds := by
  have hdot : Derives ([exactly .dot] ++ sequence :: rest) kinds ↔ _ :=
    derives_front [exactly .dot] fun _ => derives_phrase
  simp only [List.cons_append, List.nil_append] at hdot
  rw [or_left_comm, ← derives_terms, hdot, derives_choice]
  simp only [alternatives, List.mem_cons, List.not_mem_nil, or_false, exists_eq_or_imp,
    exists_eq_left, List.cons_append, List.nil_append, derives_optional]
  -- every way to go on starts with a dot or not
  grind

end

/-! ## Beginnings -/

namespace TokenKind

/-- The tokens with which operands and patterns without a sign start. -/
def startsPrimary : TokenKind → Bool
  | .number _ | .string _ | .stringStart _ | .identifier _ | .openBrace | .openBracket
  | .openParen | .openAngle | .keyword .trueWord | .keyword .falseWord | .keyword .nullWord => true
  | _ => false

/-- The tokens with which operands and patterns start. -/
def startsUnary : TokenKind → Bool
  | .minus => true
  | kind => kind.startsPrimary

/-- The tokens with which conditionals and operations start. -/
def startsConditional : TokenKind → Bool
  | .keyword .caseWord | .keyword .ifWord => true
  | kind => kind.startsUnary

/-- The tokens with which expressions start. -/
def startsExpression : TokenKind → Bool
  | .keyword .letWord => true
  | kind => kind.startsConditional

theorem startsExpression_of_endsSequence {kind : TokenKind} (h : kind.endsSequence = true) :
    kind.startsExpression = false := by
  unfold endsSequence at h
  split at h
  case h_13 => cases h
  all_goals rfl

end TokenKind

/-- The tokens with which a phrase may start. Of whole programs and sequences nothing is said. -/
def Phrase.starts (kind : TokenKind) : Phrase → Bool
  | .program | .sequence => true
  | .expression => kind.startsExpression
  | .conditional => kind.startsConditional
  | .unary _ => kind.startsUnary
  | .primary _ => kind.startsPrimary

section

open Piece

variable {rest : List Piece} {kind : TokenKind} {kinds : List TokenKind} {pattern : Bool}

theorem startsPrimary_of_primary
    (h : Derives (.phrase (.primary pattern) :: rest) (kind :: kinds)) :
    kind.startsPrimary = true := by
  obtain ⟨alternative, hm, hd⟩ := derives_phrase.1 h
  simp only [alternatives, List.mem_cons, List.not_mem_nil, or_false] at hm
  -- every alternative starts with a token, of one kind or with a text
  rcases hm with rfl | rfl | rfl | rfl | rfl | rfl | rfl | rfl | rfl | rfl | rfl <;>
    obtain ⟨hkind, -⟩ := derives_token.1 hd <;>
    first
      | cases hkind; rfl
      | obtain ⟨_, rfl⟩ := hkind; rfl

theorem startsUnary_of_unary
    (h : Derives (.phrase (.unary pattern) :: rest) (kind :: kinds)) :
    kind.startsUnary = true := by
  rcases derives_unary.1 h with hd | hd
  · cases (derives_token.1 hd).1
    rfl
  · have hprimary := startsPrimary_of_primary hd
    unfold TokenKind.startsUnary
    split
    · rfl
    · exact hprimary

theorem startsConditional_of_conditional
    (h : Derives (.phrase .conditional :: rest) (kind :: kinds)) :
    kind.startsConditional = true := by
  rcases derives_conditional.1 h with hd | hd | hd
  · cases (derives_token.1 hd).1
    rfl
  · cases (derives_token.1 hd).1
    rfl
  · have hunary := startsUnary_of_unary hd
    unfold TokenKind.startsConditional
    split
    · rfl
    · rfl
    · exact hunary

theorem startsExpression_of_expression (h : Derives (expression :: rest) (kind :: kinds)) :
    kind.startsExpression = true := by
  rcases derives_expression.1 h with hd | hd
  · cases (derives_token.1 hd).1
    rfl
  · have hconditional := startsConditional_of_conditional hd
    unfold TokenKind.startsExpression
    split
    · rfl
    · exact hconditional

/-- What a phrase starts with. -/
theorem starts_of_derives {phrase : Phrase}
    (h : Derives (.phrase phrase :: rest) (kind :: kinds)) : phrase.starts kind = true := by
  cases phrase with
  | program => rfl
  | sequence => rfl
  | expression => exact startsExpression_of_expression h
  | conditional => exact startsConditional_of_conditional h
  | unary pattern => exact startsUnary_of_unary h
  | primary pattern => exact startsPrimary_of_primary h

theorem not_derives_phrase {phrase : Phrase} (h : phrase.starts kind = false) :
    ¬ Derives (.phrase phrase :: rest) (kind :: kinds) := by
  intro hd
  rw [starts_of_derives hd] at h
  cases h

/-- A token with which no expression starts and no operand. -/
theorem not_derives_element (h : kind.startsExpression = false)
    (hunary : kind.startsUnary = false) :
    ¬ Derives (element pattern :: rest) (kind :: kinds) := by
  cases pattern with
  | true => exact not_derives_phrase hunary
  | false => exact not_derives_phrase h

/-- Neither an expression nor what may come after it starts with an operator. -/
theorem not_derives_operator_afterTerm {op : BinOp} :
    ¬ Derives (afterTerm :: rest) (.operator op :: kinds) := by
  rw [derives_afterTerm]
  rintro (hd | hd | hd)
  · cases (derives_ahead.1 hd).1
  · cases (derives_token.1 hd).1
  · exact not_derives_phrase rfl hd

end

end Juxta
