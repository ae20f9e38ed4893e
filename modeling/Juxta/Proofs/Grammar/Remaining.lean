import Juxta.Grammar.Measure
import Juxta.Proofs.Grammar.Phrases

/-!
# What rules still have to read

Rules that wait stand for pieces of the grammar. With every token that one of them takes, the
language of what is left loses its first token, and a token is refused only if nothing in that
language starts with it.

* `Rule.pieces`, `Rule.remaining` : what a rule, or several, still have to read;
* `Rule.Settled` : an operation that waits is not followed by another operator;
* `Answer.Follows` : an answer that agrees with the grammar;
* `Rule.follows_answer` : every answer does;
* `Rule.derives_remaining` : whatever waits can be brought to an end.
-/

namespace Juxta

namespace Rule

open Piece

/-! ## Rules that wait -/

/-- What a rule still has to read. -/
def pieces : Rule → List Piece
  | .program => [.phrase .program]
  | .programEnd => [exactly .endOfText]
  | .sequence _ .afterTerm => [afterTerm]
  | .sequence _ _ => [Piece.sequence]
  | .expression => [Piece.expression]
  | .letName => [name, parameters, exactly .equal, Piece.sequence]
  | .letParams .. => [parameters, exactly .equal, Piece.sequence]
  | .letBody .. | .clauseBody | .negation _ => []
  | .conditional => [.phrase .conditional]
  | .clauses .. => [Piece.clauses, word .endWord]
  | .clauseColon => [exactly .colon, Piece.sequence]
  | .ifCondition .. =>
    [word .thenWord, Piece.sequence, optional [word .elseWord, Piece.sequence], word .endWord]
  | .ifBranch .. => [optional [word .elseWord, Piece.sequence], word .endWord]
  | .elseBranch .. => [word .endWord]
  | .operand _ => [.phrase (.unary false), operations]
  | .operator _ => [operations]
  | .unary pattern => [.phrase (.unary pattern)]
  | .primary pattern => [.phrase (.primary pattern)]
  | .interpolation .. => [insertions, .token .stringEnd]
  | .recordKey .. => [fields, exactly .closeBrace]
  | .recordColon .. =>
    [exactly .colon, Piece.sequence, optional [exactly .comma], fields, exactly .closeBrace]
  | .recordValue .. => [optional [exactly .comma], fields, exactly .closeBrace]
  | .list _ pattern _ => [elements pattern, exactly .closeBracket]
  | .paren _ => [exactly .closeParen]
  | .lambdaParams .. => [parameters, exactly .colon, Piece.sequence, exactly .closeAngle]
  | .lambdaBody .. => [exactly .closeAngle]

/-- What some rules still have to read, the first of them next. -/
def remaining (rules : List Rule) : List Piece := rules.flatMap pieces

@[simp] theorem remaining_nil : remaining [] = [] := rfl

@[simp] theorem remaining_cons (rule : Rule) (rest : List Rule) :
    remaining (rule :: rest) = rule.pieces ++ remaining rest := rfl

/-- The rules that lead to the operators of an operation, and the one that waits for them. -/
def isOperation : Rule → Bool
  | .expression | .conditional | .operand _ | .operator _ => true
  | _ => false

/-- What is below an operation does not start with an operator. -/
def Settled : List Rule → Prop
  | [] => True
  | rule :: rest =>
    (rule.isOperation = true → ∀ op kinds, ¬ Derives (remaining rest) (.operator op :: kinds)) ∧
      Settled rest

/-- Rules that do not lead to operators, in front of others. -/
theorem Settled.append {more rest : List Rule} (hmore : more.all (!isOperation ·) = true)
    (hrest : Settled rest) : Settled (more ++ rest) := by
  induction more with
  | nil => exact hrest
  | cons rule more ih =>
    obtain ⟨hrule, hmore⟩ := Bool.and_eq_true_iff.1 (List.all_cons.symm.trans hmore)
    refine ⟨fun h => ?_, ih hmore⟩
    rw [h] at hrule
    cases hrule

end Rule

open Rule

theorem Build.Always.opened {α : Type} {next : Rule → Build α} {condition : α → Prop}
    (h : ∀ base, Build.Always (next (.sequence base .start)) condition) :
    Build.Always (Rule.opened >>= next) condition := by
  unfold Rule.opened
  rw [bind_assoc]
  exact .bind fun base => h base

/-- Answers that agree with the grammar. The language of what is left loses the token that is taken;
one that is refused cannot come next. -/
def Answer.Follows (token : Token) (rules below : List Rule) : Answer → Prop
  | .taken _ more => Settled (more ++ below) ∧ ∀ kinds,
    Derives (remaining rules) (token.kind :: kinds) ↔ Derives (remaining (more ++ below)) kinds
  | .passed more => Settled (more ++ below) ∧ ∀ kinds,
    Derives (remaining rules) (token.kind :: kinds) ↔
      Derives (remaining (more ++ below)) (token.kind :: kinds)
  | .refused (.unexpected _ found location) => found = token.kind ∧ location = token.location ∧
    ∀ kinds, ¬ Derives (remaining rules) (token.kind :: kinds)
  | .refused (.unknownName ..) => False
  | .refused (.folding ..) => True

namespace Rule

open Piece Build

attribute [local simp] pieces

variable {token : Token} {below : List Rule}

/-- A step whose answer agrees with the grammar. -/
abbrev Follows (token : Token) (rule : Rule) (below : List Rule) (step : Build Answer) : Prop :=
  Always step (Answer.Follows token (rule :: below) below)

theorem follows_program (h : Settled below) :
    Follows token .program below (Rule.program.answer token) := by
  refine Always.opened fun base => .pure ⟨.append rfl h, fun kinds => ?_⟩
  simp [derives_phrase, alternatives]

theorem follows_programEnd (h : Settled below) :
    Follows token .programEnd below (answerProgramEnd token) := by
  unfold answerProgramEnd
  split
  · rename_i hk
    refine .bind fun sequence => .bind fun folded => ?_
    split
    · exact .pure trivial
    · refine .bind fun b => .bind fun root => .bind fun _ => .pure ⟨h, fun kinds => ?_⟩
      simp [hk, Terminal.Accepts]
  · rename_i hk
    exact .pure ⟨rfl, rfl, fun kinds hd => hk (derives_token.1 hd).1⟩

/-! ## Sequences and definitions -/

theorem follows_sequence (base : Nat) (stage : SequenceStage) (h : Settled below) :
    Follows token (.sequence base stage) below (answerSequence base stage token) := by
  unfold answerSequence
  split
  · rename_i hdot
    have hnone : ∀ rest kinds, ¬ Derives (Piece.expression :: rest) (.dot :: kinds) :=
      fun _ _ => not_derives_phrase rfl
    have hnext : TokenKind.dot.endsSequence = false := rfl
    split
    · rename_i hstage
      refine .pure ⟨.append rfl h, fun kinds => ?_⟩
      simp [hdot, hstage, derives_afterTerm, hnone, hnext, Terminal.Accepts]
    · refine .bind fun _ => .pure ⟨h, fun kinds => ?_⟩
      simp [hdot, derives_sequence, hnone, hnext, Terminal.Accepts]
  · rename_i hdot
    split
    · rename_i hends
      have hnone : ∀ rest kinds, ¬ Derives (Piece.expression :: rest) (token.kind :: kinds) :=
        fun _ _ => not_derives_phrase (TokenKind.startsExpression_of_endsSequence hends)
      refine .bind fun _ => .pure ⟨h, fun kinds => ?_⟩
      cases stage <;>
        simp [derives_sequence, derives_afterTerm, hends, hdot, hnone, Terminal.Accepts]
    · rename_i hends
      refine .pure ⟨⟨fun _ op kinds => not_derives_operator_afterTerm, .append rfl h⟩,
        fun kinds => ?_⟩
      cases stage <;>
        simp [derives_sequence, derives_afterTerm, hends, hdot, Terminal.Accepts]

theorem follows_expression (h : Settled (.expression :: below)) :
    Follows token .expression below (Rule.expression.answer token) := by
  refine .pure ?_
  split
  · rename_i hk
    have hnone : ∀ rest kinds,
        ¬ Derives (.phrase .conditional :: rest) (.keyword .letWord :: kinds) :=
      fun _ _ => not_derives_phrase rfl
    refine ⟨.append rfl h.2, fun kinds => ?_⟩
    simp [hk, derives_expression, hnone, Terminal.Accepts]
  · rename_i hlet
    refine ⟨h, fun kinds => ?_⟩
    exact derives_expression.trans (or_iff_right fun hd => hlet (derives_token.1 hd).1)

theorem follows_letName (h : Settled below) :
    Follows token .letName below (answerLetName token) := by
  unfold answerLetName
  split
  · rename_i hk
    refine .bind fun _ => .bind fun entered => ?_
    split
    · exact .pure trivial
    · refine .pure ⟨.append rfl h, fun kinds => ?_⟩
      simp [hk, Terminal.Accepts]
  · rename_i hname
    refine .pure ⟨rfl, rfl, fun kinds hd => ?_⟩
    obtain ⟨⟨name, hk⟩, -⟩ := derives_token.1 hd
    exact hname name hk

theorem follows_letParams (name : String) (params : List String) (h : Settled below) :
    Follows token (.letParams name params) below (answerLetParams name params token) := by
  unfold answerLetParams
  split
  · rename_i hk
    refine .bind fun _ => .pure ⟨.append rfl h, fun kinds => ?_⟩
    simp [hk, derives_many, Terminal.Accepts]
  · rename_i hk
    refine .opened fun base => .pure ⟨.append rfl h, fun kinds => ?_⟩
    simp [hk, derives_many, Terminal.Accepts]
  · rename_i hname hequal
    refine .pure ⟨rfl, rfl, fun kinds hd => ?_⟩
    rcases derives_many.1 hd with hd | hd
    · exact hequal (derives_token.1 hd).1
    · obtain ⟨⟨param, hk⟩, -⟩ := derives_token.1 hd
      exact hname param hk

theorem follows_letBody (name : String) (params : List String) (h : Settled below) :
    Follows token (.letBody name params) below (answerLetBody name params token) := by
  unfold answerLetBody
  refine .bind fun body => .bind fun folded => .bind fun _ => ?_
  split
  · exact .pure trivial
  · exact .bind fun _ => .pure ⟨h, fun kinds => Iff.rfl⟩

/-! ## Cases and conditionals -/

theorem follows_conditional (h : Settled (.conditional :: below)) :
    Follows token .conditional below (answerConditional token) := by
  unfold answerConditional
  split
  · rename_i hk
    have hnone : ∀ rest kinds,
        ¬ Derives (.phrase (.unary false) :: rest) (.keyword .caseWord :: kinds) :=
      fun _ _ => not_derives_phrase rfl
    refine .bind fun base => .opened fun _ => .pure ⟨.append rfl h.2, fun kinds => ?_⟩
    simp [hk, derives_conditional, hnone, Terminal.Accepts]
  · rename_i hk
    have hnone : ∀ rest kinds,
        ¬ Derives (.phrase (.unary false) :: rest) (.keyword .ifWord :: kinds) :=
      fun _ _ => not_derives_phrase rfl
    refine .bind fun base => .opened fun _ => .pure ⟨.append rfl h.2, fun kinds => ?_⟩
    simp [hk, derives_conditional, hnone, Terminal.Accepts]
  · rename_i hcase hif
    refine .pure ⟨h, fun kinds => derives_conditional.trans ?_⟩
    refine (or_iff_right ?_).trans (or_iff_right ?_)
    · exact fun hd => hcase (derives_token.1 hd).1
    · exact fun hd => hif (derives_token.1 hd).1

theorem follows_clauses (base : Nat) (start : Coord) (h : Settled below) :
    Follows token (.clauses base start) below (answerClauses base start token) := by
  unfold answerClauses
  split
  · rename_i hk
    refine .pure ⟨.append rfl h, fun kinds => ?_⟩
    simp [hk, derives_many, Terminal.Accepts]
  · rename_i hk
    refine .bind fun children => .bind fun _ => .pure ⟨h, fun kinds => ?_⟩
    simp [hk, derives_many, Terminal.Accepts]
  · rename_i hof hend
    refine .pure ⟨rfl, rfl, fun kinds hd => ?_⟩
    rcases derives_many.1 hd with hd | hd
    · exact hend (derives_token.1 hd).1
    · exact hof (derives_token.1 hd).1

theorem follows_clauseColon (h : Settled below) :
    Follows token .clauseColon below (answerClauseColon token) := by
  unfold answerClauseColon
  split
  · rename_i hk
    refine .opened fun _ => .pure ⟨.append rfl h, fun kinds => ?_⟩
    simp [hk, Terminal.Accepts]
  · rename_i hcolon
    exact .pure ⟨rfl, rfl, fun kinds hd => hcolon (derives_token.1 hd).1⟩

theorem follows_clauseBody (h : Settled below) :
    Follows token .clauseBody below answerClauseBody :=
  .bind fun _ => .bind fun _ => .bind fun _ => .pure ⟨h, fun _ => Iff.rfl⟩

theorem follows_ifCondition (base : Nat) (start : Coord) (h : Settled below) :
    Follows token (.ifCondition base start) below (answerIfCondition base start token) := by
  unfold answerIfCondition
  split
  · rename_i hk
    refine .opened fun _ => .pure ⟨.append rfl h, fun kinds => ?_⟩
    simp [hk, Terminal.Accepts]
  · rename_i hthen
    exact .pure ⟨rfl, rfl, fun kinds hd => hthen (derives_token.1 hd).1⟩

theorem follows_ifBranch (base : Nat) (start : Coord) (h : Settled below) :
    Follows token (.ifBranch base start) below (answerIfBranch base start token) := by
  unfold answerIfBranch
  split
  · rename_i hk
    refine .opened fun _ => .pure ⟨.append rfl h, fun kinds => ?_⟩
    simp [hk, Terminal.Accepts]
  · rename_i hk
    refine .bind fun slots => .bind fun _ => .pure ⟨h, fun kinds => ?_⟩
    simp [hk, Terminal.Accepts]
  · rename_i helse hend
    refine .pure ⟨rfl, rfl, fun kinds hd => ?_⟩
    rcases derives_optional.1 hd with hd | hd
    · exact helse (derives_token.1 hd).1
    · exact hend (derives_token.1 hd).1

theorem follows_elseBranch (base : Nat) (start : Coord) (h : Settled below) :
    Follows token (.elseBranch base start) below (answerElseBranch base start token) := by
  unfold answerElseBranch
  split
  · rename_i hk
    refine .bind fun slots => .bind fun _ => .pure ⟨h, fun kinds => ?_⟩
    simp [hk, Terminal.Accepts]
  · rename_i hend
    exact .pure ⟨rfl, rfl, fun kinds hd => hend (derives_token.1 hd).1⟩

/-! ## Operations -/

theorem follows_operand (waiting : List BinOp) (h : Settled (.operand waiting :: below)) :
    Follows token (.operand waiting) below ((Rule.operand waiting).answer token) :=
  .pure ⟨⟨nofun, h⟩, fun _ => Iff.rfl⟩

theorem follows_operator (waiting : List BinOp) (h : Settled (.operator waiting :: below)) :
    Follows token (.operator waiting) below (answerOperator waiting token) := by
  unfold answerOperator
  split
  · rename_i op hk
    have hbelow := h.1 rfl op
    refine .bind fun left => .pure ⟨h, fun kinds => ?_⟩
    simp [hk, derives_many, hbelow, Terminal.Accepts]
  · rename_i hoperator
    refine .bind fun _ => .pure ⟨h.2, fun kinds => derives_many.trans (or_iff_left fun hd => ?_)⟩
    obtain ⟨⟨op, hk⟩, -⟩ := derives_token.1 hd
    exact hoperator op hk

theorem follows_unary (pattern : Bool) (h : Settled below) :
    Follows token (.unary pattern) below (answerUnary pattern token) := by
  unfold answerUnary
  split
  · rename_i hk
    have hnone : ∀ rest kinds,
        ¬ Derives (.phrase (.primary pattern) :: rest) (.minus :: kinds) :=
      fun _ _ => not_derives_phrase rfl
    refine .pure ⟨.append rfl h, fun kinds => ?_⟩
    simp [hk, derives_unary, hnone, Terminal.Accepts]
  · rename_i hminus
    refine .pure ⟨.append rfl h, fun kinds => ?_⟩
    exact derives_unary.trans (or_iff_right fun hd => hminus (derives_token.1 hd).1)

theorem follows_negation (start : Coord) (h : Settled below) :
    Follows token (.negation start) below (answerNegation start) :=
  .bind fun _ => .bind fun _ => .bind fun _ => .pure ⟨h, fun _ => Iff.rfl⟩

/-! ## Primaries -/

theorem follows_primary (pattern : Bool) (h : Settled below) :
    Follows token (.primary pattern) below (answerPrimary pattern token) := by
  unfold answerPrimary
  dsimp only
  split
  case h_1 hk | h_2 hk =>
    refine .bind fun _ => .pure ⟨h, fun kinds => ?_⟩
    simp [hk, derives_phrase, alternatives, Terminal.Accepts]
  case h_3 hk =>
    refine .bind fun _ => .bind fun _ => .opened fun _ => .pure ⟨.append rfl h, fun kinds => ?_⟩
    simp [hk, derives_phrase, alternatives, Terminal.Accepts]
  case h_4 hk | h_5 hk | h_6 hk =>
    refine .bind fun _ => .pure ⟨h, fun kinds => ?_⟩
    simp [hk, derives_phrase, alternatives, Terminal.Accepts]
  case h_7 hk | h_8 hk =>
    refine .bind fun _ => .pure ⟨.append rfl h, fun kinds => ?_⟩
    simp [hk, derives_phrase, alternatives, Terminal.Accepts]
  case h_9 hk =>
    refine .opened fun _ => .pure ⟨.append rfl h, fun kinds => ?_⟩
    simp [hk, derives_phrase, alternatives, Terminal.Accepts]
  case h_10 hk =>
    refine .bind fun entered => ?_
    split
    · exact .pure trivial
    · refine .pure ⟨.append rfl h, fun kinds => ?_⟩
      simp [hk, derives_phrase, alternatives, Terminal.Accepts]
  case h_11 hk =>
    refine .bind fun _ => .pure ⟨h, fun kinds => ?_⟩
    simp [hk, derives_phrase, alternatives, Terminal.Accepts]
  case h_12 =>
    refine .pure ⟨rfl, rfl, fun kinds hd => ?_⟩
    have hstarts := startsPrimary_of_primary hd
    unfold TokenKind.startsPrimary at hstarts
    split at hstarts <;> simp_all

theorem follows_interpolation (base : Nat) (start : Coord) (h : Settled below) :
    Follows token (.interpolation base start) below (answerInterpolation base start token) := by
  unfold answerInterpolation
  split
  · rename_i hk
    refine .bind fun _ => .opened fun _ => .pure ⟨.append rfl h, fun kinds => ?_⟩
    simp [hk, derives_many, Terminal.Accepts]
  · rename_i hk
    refine .bind fun _ => .bind fun _ => .bind fun _ => .pure ⟨h, fun kinds => ?_⟩
    simp [hk, derives_many, Terminal.Accepts]
  · rename_i hmiddle hend
    refine .pure ⟨rfl, rfl, fun kinds hd => ?_⟩
    rcases derives_many.1 hd with hd | hd
    · obtain ⟨⟨text, hk⟩, -⟩ := derives_token.1 hd
      exact hend text hk
    · obtain ⟨⟨text, hk⟩, -⟩ := derives_token.1 hd
      exact hmiddle text hk

theorem follows_recordKey (base : Nat) (start : Coord) (h : Settled below) :
    Follows token (.recordKey base start) below (answerRecordKey base start token) := by
  unfold answerRecordKey
  split
  · rename_i hk
    refine .bind fun _ => .bind fun _ => .pure ⟨h, fun kinds => ?_⟩
    simp [hk, derives_many, derives_choice, Terminal.Accepts]
  · rename_i hk
    refine .bind fun _ => .pure ⟨.append rfl h, fun kinds => ?_⟩
    simp [hk, derives_many, derives_choice, Terminal.Accepts]
  · rename_i hk
    refine .bind fun _ => .pure ⟨.append rfl h, fun kinds => ?_⟩
    simp [hk, derives_many, derives_choice, Terminal.Accepts]
  · rename_i hclose hname hstring
    refine .pure ⟨rfl, rfl, fun kinds hd => ?_⟩
    rcases derives_many.1 hd with hd | hd
    · exact hclose (derives_token.1 hd).1
    · obtain ⟨key, hm, hd⟩ := derives_choice.1 hd
      simp only [List.mem_cons, List.not_mem_nil, or_false] at hm
      rcases hm with rfl | rfl
      · obtain ⟨⟨key, hk⟩, -⟩ := derives_token.1 hd
        exact hname key hk
      · obtain ⟨⟨key, hk⟩, -⟩ := derives_token.1 hd
        exact hstring key hk

theorem follows_recordColon (base : Nat) (start : Coord) (h : Settled below) :
    Follows token (.recordColon base start) below (answerRecordColon base start token) := by
  unfold answerRecordColon
  split
  · rename_i hk
    refine .opened fun _ => .pure ⟨.append rfl h, fun kinds => ?_⟩
    simp [hk, Terminal.Accepts]
  · rename_i hcolon
    exact .pure ⟨rfl, rfl, fun kinds hd => hcolon (derives_token.1 hd).1⟩

theorem follows_recordValue (base : Nat) (start : Coord) (h : Settled below) :
    Follows token (.recordValue base start) below (answerRecordValue base start token) := by
  unfold answerRecordValue
  refine .bind fun _ => .bind fun _ => .bind fun _ => ?_
  split
  · rename_i hk
    refine .pure ⟨.append rfl h, fun kinds => ?_⟩
    simp [hk, derives_many, derives_choice, Terminal.Accepts]
  · rename_i hcomma
    refine .pure ⟨.append rfl h, fun kinds => ?_⟩
    simp [hcomma, Terminal.Accepts]

theorem follows_list (base : Nat) (pattern : Bool) (start : Coord) (h : Settled below) :
    Follows token (.list base pattern start) below (answerList base pattern start token) := by
  unfold answerList
  split
  · rename_i hk
    have hnone : ∀ rest kinds, ¬ Derives (element pattern :: rest) (.closeBracket :: kinds) :=
      fun _ _ => not_derives_element rfl rfl
    refine .bind fun _ => .bind fun _ => .pure ⟨h, fun kinds => ?_⟩
    simp [hk, derives_elements, hnone, Terminal.Accepts]
  · rename_i hk
    have hnone : ∀ rest kinds, ¬ Derives (element pattern :: rest) (.comma :: kinds) :=
      fun _ _ => not_derives_element rfl rfl
    refine .pure ⟨.append rfl h, fun kinds => ?_⟩
    simp [hk, derives_elements, hnone, Terminal.Accepts]
  · rename_i hclose hcomma
    have hrest : ∀ kinds, Derives (remaining (.list base pattern start :: below))
        (token.kind :: kinds) ↔ Derives (element pattern :: elements pattern ::
          exactly .closeBracket :: remaining below) (token.kind :: kinds) := by
      refine fun kinds => derives_elements.trans ((or_iff_right ?_).trans (or_iff_left ?_))
      · exact fun hd => hclose (derives_token.1 hd).1
      · exact fun hd => hcomma (derives_token.1 hd).1
    refine .pure ?_
    cases pattern with
    | true => exact ⟨.append rfl h, hrest⟩
    | false =>
      refine ⟨⟨fun _ op kinds hd => ?_, .append rfl h⟩, hrest⟩
      rcases derives_elements.1 hd with hd | hd | hd
      · cases (derives_token.1 hd).1
      · exact not_derives_phrase rfl hd
      · cases (derives_token.1 hd).1

theorem follows_paren (start : Coord) (h : Settled below) :
    Follows token (.paren start) below (answerParen start token) := by
  unfold answerParen
  split
  · rename_i hk
    refine .bind fun _ => .bind fun _ => .pure ⟨h, fun kinds => ?_⟩
    simp [hk, Terminal.Accepts]
  · rename_i hclose
    exact .pure ⟨rfl, rfl, fun kinds hd => hclose (derives_token.1 hd).1⟩

/-! ## Lambdas -/

theorem follows_lambdaParams (params : List String) (start : Coord) (h : Settled below) :
    Follows token (.lambdaParams params start) below
      (answerLambdaParams params start token) := by
  unfold answerLambdaParams
  split
  · rename_i hk
    refine .bind fun _ => .pure ⟨.append rfl h, fun kinds => ?_⟩
    simp [hk, derives_many, Terminal.Accepts]
  · rename_i hk
    refine .opened fun _ => .pure ⟨.append rfl h, fun kinds => ?_⟩
    simp [hk, derives_many, Terminal.Accepts]
  · rename_i hname hcolon
    refine .pure ⟨rfl, rfl, fun kinds hd => ?_⟩
    rcases derives_many.1 hd with hd | hd
    · exact hcolon (derives_token.1 hd).1
    · obtain ⟨⟨param, hk⟩, -⟩ := derives_token.1 hd
      exact hname param hk

theorem follows_lambdaBody (params : List String) (start : Coord) (h : Settled below) :
    Follows token (.lambdaBody params start) below (answerLambdaBody params start token) := by
  unfold answerLambdaBody
  split
  · rename_i hk
    refine .bind fun _ => .bind fun folded => .bind fun _ => ?_
    split
    · exact .pure trivial
    · refine .bind fun _ => .bind fun _ => .bind fun _ => .pure ⟨h, fun kinds => ?_⟩
      simp [hk, Terminal.Accepts]
  · rename_i hclose
    exact .pure ⟨rfl, rfl, fun kinds hd => hclose (derives_token.1 hd).1⟩

/-! ## All rules -/

/-- What a rule does with a token agrees with the grammar. -/
theorem follows_answer (token : Token) (rule : Rule) (below : List Rule)
    (h : Settled (rule :: below)) : Follows token rule below (rule.answer token) := by
  cases rule with
  | program => exact follows_program h.2
  | programEnd => exact follows_programEnd h.2
  | sequence base stage => exact follows_sequence base stage h.2
  | expression => exact follows_expression h
  | letName => exact follows_letName h.2
  | letParams name params => exact follows_letParams name params h.2
  | letBody name params => exact follows_letBody name params h.2
  | conditional => exact follows_conditional h
  | clauses base start => exact follows_clauses base start h.2
  | clauseColon => exact follows_clauseColon h.2
  | clauseBody => exact follows_clauseBody h.2
  | ifCondition base start => exact follows_ifCondition base start h.2
  | ifBranch base start => exact follows_ifBranch base start h.2
  | elseBranch base start => exact follows_elseBranch base start h.2
  | operand waiting => exact follows_operand waiting h
  | operator waiting => exact follows_operator waiting h
  | unary pattern => exact follows_unary pattern h.2
  | negation start => exact follows_negation start h.2
  | primary pattern => exact follows_primary pattern h.2
  | interpolation base start => exact follows_interpolation base start h.2
  | recordKey base start => exact follows_recordKey base start h.2
  | recordColon base start => exact follows_recordColon base start h.2
  | recordValue base start => exact follows_recordValue base start h.2
  | list base pattern start => exact follows_list base pattern start h.2
  | paren start => exact follows_paren start h.2
  | lambdaParams params start => exact follows_lambdaParams params start h.2
  | lambdaBody params start => exact follows_lambdaBody params start h.2

/-! ## Ways to the end -/

/-- Tokens with which a rule that waits comes to its end. -/
def closing : Rule → List TokenKind
  | .program => [.dot, .endOfText]
  | .programEnd => [.endOfText]
  | .sequence _ .afterTerm => [.dot, .dot]
  | .sequence _ _ => [.dot]
  | .expression | .conditional | .operand _ | .unary _ | .primary _ => [.keyword .nullWord]
  | .letName => [.identifier "", .equal, .dot]
  | .letParams .. => [.equal, .dot]
  | .letBody .. | .clauseBody | .operator _ | .negation _ => []
  | .clauses .. | .ifBranch .. | .elseBranch .. => [.keyword .endWord]
  | .clauseColon => [.colon, .dot]
  | .ifCondition .. => [.keyword .thenWord, .dot, .keyword .endWord]
  | .interpolation .. => [.stringEnd ""]
  | .recordKey .. | .recordValue .. => [.closeBrace]
  | .recordColon .. => [.colon, .dot, .closeBrace]
  | .list .. => [.closeBracket]
  | .paren _ => [.closeParen]
  | .lambdaParams .. => [.colon, .dot, .closeAngle]
  | .lambdaBody .. => [.closeAngle]

theorem derives_closing (rule : Rule) {rest : List Piece} {kinds : List TokenKind}
    (h : Derives rest kinds) : Derives (rule.pieces ++ rest) (rule.closing ++ kinds) := by
  have hdot : ∀ {rest kinds}, Derives rest kinds →
      Derives (Piece.sequence :: rest) (.dot :: kinds) :=
    fun hrest => derives_sequence.2 (.inr (.inl (derives_token.2 ⟨rfl, hrest⟩)))
  have hnull : ∀ {pattern rest kinds}, Derives rest kinds →
      Derives (.phrase (.primary pattern) :: rest) (.keyword .nullWord :: kinds) := by
    intro pattern rest kinds hrest
    simp [derives_phrase, alternatives, Terminal.Accepts, hrest]
  cases rule with
  | program => simp [closing, derives_phrase, alternatives, Terminal.Accepts, h]
  | sequence base stage =>
    cases stage <;> simp [closing, derives_sequence, derives_afterTerm, Terminal.Accepts, h]
  | _ =>
    simp [closing, derives_many, derives_expression, derives_conditional, derives_unary,
      Terminal.Accepts, hdot, hnull, h]

/-- Whatever waits can be brought to its end. -/
theorem derives_remaining (rules : List Rule) :
    Derives (remaining rules) (rules.flatMap closing) := by
  induction rules with
  | nil => exact .nil
  | cons rule rest ih => exact derives_closing rule ih

end Rule

end Juxta
