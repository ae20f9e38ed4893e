import Juxta.Proofs.ChainedFolding
import Juxta.Proofs.Grammar.Prolonged
import Juxta.Proofs.Standing

/-!
# Scopes stay chained while a text is parsed

The rules of the grammar open and close scopes and define words, whatever tokens they are offered,
and a rule may give up between the opening and the closing. The scopes are chained all the same.

* `Build.Chains` : a step of building after which the scopes are chained if they were before; one
  lemma for every step that changes them, and `Rule.chains_answer` for all rules;
* `Rule.Segments.depth_eq` : which rules have scopes of their own, so that a definition ends in the
  scope in which it began;
* `Parser.Passes.stays_chained` : all states of a parser, and those in which its nodes are folded.
-/

namespace Juxta

/-! ## Steps -/

namespace Build

variable {α β : Type}

/-- A step that keeps the scopes chained. -/
def Chains (step : Build α) : Prop :=
  ∀ limit b, b.env.Chained limit → (step.run b).2.env.Chained limit

theorem Chains.bind {step : Build α} {next : α → Build β} (h : Chains step)
    (k : ∀ a, Chains (next a)) : Chains (step >>= next) :=
  fun limit b hb => k (step.run b).1 limit (step.run b).2 (h limit b hb)

/-- A step that leaves the scopes as they are. -/
theorem chains_of_env {step : Build α} (h : ∀ b, (step.run b).2.env = b.env) : Chains step := by
  intro limit b hb
  rw [h b]
  exact hb

theorem chains_pure (a : α) : Chains (pure a) := chains_of_env fun _ => rfl

theorem chains_get : Chains get := chains_of_env fun _ => rfl

theorem chains_modify {f : Builder → Builder} (h : ∀ b, (f b).env = b.env) :
    Chains (modify f : Build Unit) := chains_of_env h

theorem chains_height : Chains height := chains_of_env fun _ => rfl

theorem chains_push (id : NodeId) : Chains (push id) := chains_of_env fun _ => rfl

theorem chains_pop : Chains pop := chains_of_env fun b => by
  unfold pop
  rw [StateT.run_modifyGet]
  split <;> rfl

theorem chains_split (base : Nat) : Chains (split base) := chains_of_env fun _ => rfl

theorem chains_intern (node : Node) (coord : Option Coord) : Chains (intern node coord) :=
  chains_of_env fun _ => rfl

theorem chains_pushNode (node : Node) (coord : Option Coord) : Chains (pushNode node coord) :=
  chains_of_env fun _ => rfl

theorem chains_pushLeaf (tag : Tag) (text : String) (coord : Coord) :
    Chains (pushLeaf tag text coord) := chains_of_env fun _ => rfl

theorem chains_pushBranch (tag : Tag) (children : List NodeId) (coord : Option Coord) :
    Chains (pushBranch tag children coord) := chains_of_env fun _ => rfl

theorem chains_pushConcat (parts : List NodeId) (coord : Option Coord) :
    Chains (pushConcat parts coord) := chains_of_env fun _ => rfl

theorem chains_foldNode (id : NodeId) : Chains (foldNode id) := chains_of_env fun _ => rfl

theorem chains_report (error : SyntaxError) : Chains (report error) := chains_of_env fun _ => rfl

/-- A scope below the innermost one, or none if there is no room. -/
theorem chains_enter (name : String) : Chains (enter name) := by
  intro limit b hb
  cases henter : b.env.enter name none with
  | ok env =>
    rw [run_enter_of_ok henter]
    exact hb.enter henter nofun
  | error cause =>
    rw [run_enter_of_error henter]
    exact hb

theorem chains_exit : Chains exit := fun _ _ hb => hb.exit

/-- A word that is no function. -/
theorem chains_addWord {word : Word} (hw : word.kind.home? = none) : Chains (addWord word) :=
  fun _ _ hb => hb.addWord (by rw [hw]; exact nofun)

/-- A function is defined in the innermost scope, and names it. -/
theorem chains_define (name : String) (params : List String) (folded : NodeId) :
    Chains (modify fun b : Builder =>
      let kind := if params.isEmpty then WordKind.value (b.store.unwrap folded)
        else .function params folded b.env.top
      { b with env := b.env.define b.env.top name kind }) := by
  intro limit b hb
  refine hb.define name fun home hh => ?_
  split at hh
  · cases hh
  · cases hh
    rfl

end Build

/-! ## Rules -/

namespace Rule

open Build

variable {token : Token}

theorem chains_opened : Chains opened := chains_of_env fun _ => rfl

theorem chains_reduce (op : BinOp) : Chains (reduce op) := by
  refine .bind chains_pop fun _ => .bind chains_pop fun _ => .bind chains_get fun _ => ?_
  split
  · exact chains_pushConcat _ _
  · exact chains_pushBranch _ _ _

theorem chains_reduceAll (least : Nat) (waiting : List BinOp) :
    Chains (reduceAll least waiting) := by
  induction waiting with
  | nil => exact chains_pure _
  | cons op rest ih =>
    unfold reduceAll
    split
    · exact chains_pure _
    · exact .bind (chains_reduce op) fun _ => ih

theorem chains_operator (waiting : List BinOp) : Chains (answerOperator waiting token) := by
  unfold answerOperator
  split
  · exact .bind (chains_reduceAll _ _) fun _ => chains_pure _
  · exact .bind (.bind (chains_reduceAll _ _) fun _ => chains_pure _) fun _ => chains_pure _

theorem chains_internParams (params : List String) : Chains (internParams params) := by
  induction params with
  | nil => exact chains_pure _
  | cons param rest ih =>
    exact .bind (chains_intern _ _) fun _ => .bind ih fun _ => chains_pure _

/-- The scopes change with parameters, with definitions and where lambdas begin and end. -/
theorem chains_answer (token : Token) (rule : Rule) : Chains (rule.answer token) := by
  cases rule with
  | operator waiting => exact chains_operator waiting
  | _ =>
    simp only [answer, answerProgramEnd, answerSequence, closeSequence, answerLetName,
      answerLetParams, answerLetBody, answerConditional, answerClauses, answerClauseColon,
      answerClauseBody, answerIfCondition, answerIfBranch, answerElseBranch, closeIf, answerUnary,
      answerNegation, answerPrimary, readName, answerInterpolation, answerRecordKey,
      answerRecordColon, answerRecordValue, answerList, answerParen, answerLambdaParams,
      answerLambdaBody]
    repeat' (first
      | with_reducible exact chains_pure _
      | with_reducible exact chains_get
      | with_reducible exact chains_height
      | with_reducible exact chains_opened
      | with_reducible exact chains_push _
      | with_reducible exact chains_pop
      | with_reducible exact chains_split _
      | with_reducible exact chains_exit
      | with_reducible exact chains_enter _
      | with_reducible exact chains_addWord rfl
      | with_reducible exact chains_foldNode _
      | with_reducible exact chains_report _
      | with_reducible exact chains_intern _ _
      | with_reducible exact chains_internParams _
      | with_reducible exact chains_pushNode _ _
      | with_reducible exact chains_pushLeaf _ _ _
      | with_reducible exact chains_pushBranch _ _ _
      | with_reducible exact chains_pushConcat _ _
      | with_reducible exact chains_define _ _ _
      | with_reducible exact chains_modify fun _ => rfl
      | with_reducible apply Chains.bind
      | with_reducible intro _
      | split)

/-! ## The scopes of rules -/

/-- Definitions and lambdas have scopes of their own, from their names or parameters on. -/
def hasScope : Rule → Bool
  | .letParams _ _ | .letBody _ _ | .lambdaParams _ _ | .lambdaBody _ _ => true
  | _ => false

/-- Next to the outermost scope, those that are open belong to rules that wait. -/
theorem Segments.depth_eq {rules : List Rule} {height depth : Nat}
    (h : Segments rules height depth) : depth = rules.countP hasScope + 1 := by
  induction h with
  | program | programEnd | done => rfl
  | @owns rule _ _ _ own howns _ ih =>
    have hnone : rule.hasScope = false := by
      cases rule <;> first | rfl | exact howns.elim
    rw [List.countP_cons_of_neg (by simp [hnone])]
    exact ih
  | expression _ _ ih _ | letName _ ih => exact ih
  | letParams _ ih | letBody _ ih | lambdaParams _ ih | lambdaBody _ ih =>
    rw [List.countP_cons_of_pos rfl, ih]

end Rule

/-! ## States -/

namespace Parser

open InPlace (enter watchedFold)

variable {lexicon : Lexicon} {limit : Nat} {p : Parser}

theorem Passes.chained (hp : Passes lexicon limit p) : p.builder.env.Chained limit := by
  induction hp with
  | start => exact Environment.chained_ofLexicon lexicon limit
  | @answer p _ _ token ih =>
    obtain ⟨rules, b, halted⟩ := p
    cases rules with
    | nil => exact ih
    | cons rule rest =>
      have hnext := Rule.chains_answer token rule limit b ih
      cases hrun : (rule.answer token).run b with
      | mk answer c =>
      rw [hrun] at hnext
      rw [answer_of_run hrun]
      cases answer <;> exact hnext

/-- A definition is completed in the scope in which it began. -/
theorem Passes.top_definition (hp : Passes lexicon limit p) (hgoing : p.halted = false)
    (rest : List Rule) :
    (p.rules = .letName :: rest → p.builder.env.top = rest.countP Rule.hasScope) ∧
      ∀ name params, p.rules = .letBody name params :: rest →
        p.builder.env.exit.top = rest.countP Rule.hasScope := by
  have hdepth := (hp.segments hgoing).depth_eq
  refine ⟨fun hrules => ?_, fun name params hrules => ?_⟩
  · rw [hrules, List.countP_cons_of_neg Bool.false_ne_true] at hdepth
    exact congrArg (· - 1) hdepth
  · rw [hrules, List.countP_cons_of_pos rfl] at hdepth
    exact congrArg (· - 1) (Environment.depth_exit hdepth (Nat.succ_pos _))

/-- In all states of a parser the scopes are chained: between one and as many as the limit allows are
open, every one but the first has a parent with a lower number, and every function names the scope
that holds it. Each search in chained scopes ends without leaving those that are open, and a scope
that there is no room for changes nothing. A definition is completed in the scope in which it began;
and when nodes are folded the scopes stay chained all the time, and the body of a function is folded
in a scope chained to the one that holds the function: an alarm for anything else is not raised. -/
theorem Passes.stays_chained (hp : Passes lexicon limit p) :
    p.builder.env.Chained limit ∧
      (∀ env : Environment, env.Chained limit → ∀ name,
        env.Seeks name (some env.top) (env.find? name)) ∧
      (∀ name cause, p.builder.env.enter name none = .error cause →
        (Build.enter name).run p.builder = (.error (.runaway cause), p.builder)) ∧
      (∀ env name parent cause, Environment.enter env name parent = .error cause →
        ∀ s, (enter name parent).run.run ⟨s, env⟩ = (.error (.runaway cause), ⟨s, env⟩)) ∧
      (p.halted = false → ∀ rest,
        (p.rules = .letName :: rest → p.builder.env.top = rest.countP Rule.hasScope) ∧
          ∀ name params, p.rules = .letBody name params :: rest →
            p.builder.env.exit.top = rest.countP Rule.hasScope) ∧
      ∀ alarm s id, (watchedFold alarm id).run.run ⟨s, p.builder.env⟩ =
        (((fold p.builder.env id).run.run s).1,
          ⟨((fold p.builder.env id).run.run s).2, p.builder.env⟩) :=
  ⟨hp.chained, fun _ hc => hc.seeks, fun _ _ henter => Build.run_enter_of_error henter,
    fun _ _ _ _ henter s => InPlace.run_enter_of_error henter s, hp.top_definition,
    fun _ s id => (InPlace.mirrors_watchedFold hp.chained id s).1⟩

/-- In the scope of a function that is being defined. -/
theorem stays_chained_function :
    let p := (start .standard Runaway.defaultLimit).feedAll
      [⟨.keyword .letWord, default⟩, ⟨.identifier "f", default⟩, ⟨.identifier "x", default⟩,
        ⟨.equal, default⟩]
    Passes .standard Runaway.defaultLimit p ∧ p.builder.env.Chained Runaway.defaultLimit ∧
      p.builder.env.Seeks "f" (some p.builder.env.top) (p.builder.env.find? "f") ∧
      ∀ alarm s id, (watchedFold alarm id).run.run ⟨s, p.builder.env⟩ =
        (((fold p.builder.env id).run.run s).1,
          ⟨((fold p.builder.env id).run.run s).2, p.builder.env⟩) := by
  intro p
  have hp : Passes .standard Runaway.defaultLimit p := Passes.start.feedAll _
  obtain ⟨hc, hseeks, -, -, -, hfold⟩ := Passes.stays_chained hp
  exact ⟨hp, hc, hseeks _ hc "f", hfold⟩

end Parser

end Juxta
