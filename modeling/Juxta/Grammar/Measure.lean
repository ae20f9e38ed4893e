import Juxta.Grammar.Answer

/-!
# Why a token is taken or refused

A rule that passes a token on is replaced by other rules, which may be more in number.

* `Rule.rank?` : the rules that lead to the beginning of an expression, which never is passed on;
* `Rule.measure` : the rank of the next rule if it leads there, or else a sum over all rules;
* `Rule.measure_lt_of_passed` : the measure falls whenever a token is passed on.
-/

namespace Juxta

/-- Whether what a step returns satisfies a condition, whatever it starts from. -/
def Build.Always {α : Type} (step : Build α) (condition : α → Prop) : Prop :=
  ∀ b, condition (step.run b).1

theorem Build.Always.pure {α : Type} {a : α} {condition : α → Prop} (h : condition a) :
    Build.Always (Pure.pure a) condition := fun _ => h

theorem Build.Always.bind {α β : Type} {step : Build α} {next : α → Build β} {condition : β → Prop}
    (h : ∀ a, Build.Always (next a) condition) : Build.Always (step >>= next) condition :=
  fun b => h (step.run b).1 (step.run b).2

namespace Rule

/-- How far a rule is from the beginning of an expression, if it leads there. -/
def rank? : Rule → Option Nat
  | .primary _ => some 0
  | .unary _ => some 1
  | .operand _ => some 2
  | .conditional => some 3
  | .expression => some 4
  | _ => none

/-- What a rule counts for while it waits. -/
def weight : Rule → Nat
  | .program => 3
  | .recordValue .. => 2
  | _ => 1

/-- What some rules count for. -/
def weights : List Rule → Nat
  | [] => 0
  | rule :: rest => rule.weight + weights rest

/-- A measure of rules of which the first one is next. -/
def measure : List Rule → Nat
  | [] => 0
  | top :: rest => match top.rank? with
    | some rank => rank
    | none => 5 + (top.weight + weights rest)

theorem measure_cons (top : Rule) (rest : List Rule) :
    measure (top :: rest) = match top.rank? with
      | some rank => rank
      | none => 5 + (top.weight + weights rest) := rfl

theorem measure_le (rules : List Rule) : measure rules ≤ 5 + weights rules := by
  cases rules with
  | nil => simp [measure]
  | cons top rest => cases top <;> simp [measure, rank?, weights] <;> omega

/-- The measure falls if the answer passes the token on. -/
def Falls (rule : Rule) (rest : List Rule) : Answer → Prop
  | .passed rules => measure (rules ++ rest) < measure (rule :: rest)
  | _ => True

theorem always_falls (token : Token) (rule : Rule) (rest : List Rule) :
    Build.Always (rule.answer token) (Falls rule rest) := by
  have le := measure_le rest
  cases rule <;>
    simp only [answer, opened, bind_assoc, pure_bind, answerProgramEnd, answerSequence,
      answerLetName, answerLetParams, answerLetBody, answerConditional, answerClauses,
      answerClauseColon, answerClauseBody, answerIfCondition, answerIfBranch, answerElseBranch,
      closeIf, answerOperator, answerUnary, answerNegation, answerPrimary, answerInterpolation,
      answerRecordKey, answerRecordColon, answerRecordValue, answerList, answerParen,
      answerLambdaParams, answerLambdaBody] <;>
    repeat' (first
      | with_reducible apply Build.Always.pure
      | (with_reducible apply Build.Always.bind; intro _)
      | split)
  all_goals
    simp [Falls, measure_cons, rank?, weight, weights, Token.instead, Token.failed] <;> omega

theorem measure_lt_of_passed {token : Token} {rule : Rule} {rules : List Rule} {b : Builder}
    (rest : List Rule) (h : ((rule.answer token).run b).1 = .passed rules) :
    measure (rules ++ rest) < measure (rule :: rest) := by
  have falls := always_falls token rule rest b
  rwa [h] at falls

end Rule

end Juxta
