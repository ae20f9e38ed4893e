import Juxta.Proofs.Parsing
import Juxta.Proofs.Prolonged

/-!
# Parsing with more room

A builder with a higher limit does what it does below the old one, until the old limit is reached
and parsing stops with an error that says so.

* `Builder.raise`, `Parser.raise`, `Session.raise` : the same state with a higher limit;
* `Build.Steady` : a step that does the same at all limits;
* `Answer.RunsAway`, `Build.Prolonged` : an answer that is the same at a higher limit, or runs away;
* `Rule.prolonged_answer` : every rule answers so;
* `Parser.prolonged_feed`, `Session.prolonged_drain` : tokens and complete texts.
-/

namespace Juxta

/-- The builder in which `more` scopes more may be entered. -/
def Builder.raise (more : Nat) (b : Builder) : Builder := { b with env := b.env.raise more }

/-- An answer that refuses a token because too many scopes were to be entered. -/
inductive Answer.RunsAway : Answer → Prop where
  | refused (cause : Runaway) (location : Location) :
      RunsAway (.refused (.folding (.runaway cause) location))

theorem Token.runsAway_failed (token : Token) (cause : Runaway) :
    (token.failed (.runaway cause)).RunsAway := .refused cause token.location

namespace Build

variable {α β : Type} {more : Nat}

/-- A step after another one goes on with its result and its builder. -/
theorem run_bind (step : Build α) (next : α → Build β) (b : Builder) :
    (step >>= next).run b = (next (step.run b).1).run (step.run b).2 := rfl

/-! ## Steps that do not depend on the limit -/

/-- A step that does the same when `more` scopes more may be entered. -/
def Steady (more : Nat) (step : Build α) : Prop :=
  ∀ b : Builder, step.run (b.raise more) = ((step.run b).1, (step.run b).2.raise more)

theorem Steady.pure (a : α) : Steady more (Pure.pure a : Build α) := fun _ => rfl

theorem Steady.bind {step : Build α} {next : α → Build β} (h : Steady more step)
    (k : ∀ a, Steady more (next a)) : Steady more (step >>= next) := by
  intro b
  rw [run_bind, run_bind, h b]
  exact k _ _

/-- What a step reads of the builder does not depend on the limit. -/
theorem Steady.get {next : Builder → Build β} (h : ∀ b, next (Builder.raise more b) = next b)
    (k : ∀ b, Steady more (next b)) : Steady more (get >>= next) := by
  intro b
  show (next (b.raise more)).run (b.raise more) = _
  rw [h b]
  exact k b b

theorem steady_push (id : NodeId) : Steady more (push id) := fun _ => rfl

theorem steady_pop : Steady more pop := by
  rintro ⟨store, env, nodes, errors, root⟩
  cases nodes <;> rfl

theorem steady_intern (node : Node) (coord : Option Coord) : Steady more (intern node coord) :=
  fun _ => rfl

theorem steady_pushNode (node : Node) (coord : Option Coord) :
    Steady more (pushNode node coord) := fun _ => rfl

theorem steady_pushLeaf (tag : Tag) (text : String) (coord : Coord) :
    Steady more (pushLeaf tag text coord) := fun _ => rfl

theorem steady_pushBranch (tag : Tag) (children : List NodeId) (coord : Option Coord) :
    Steady more (pushBranch tag children coord) := fun _ => rfl

theorem steady_pushConcat (parts : List NodeId) (coord : Option Coord) :
    Steady more (pushConcat parts coord) := fun _ => rfl

theorem steady_addWord (word : Word) : Steady more (addWord word) := fun _ => rfl

theorem steady_exit : Steady more exit := by
  intro b
  show ((), { b with env := (b.env.raise more).exit }) = _
  rw [Environment.exit_raise]
  rfl

theorem steady_report (error : SyntaxError) : Steady more (report error) := fun _ => rfl

theorem steady_opened : Steady more Rule.opened := fun _ => rfl

/-! ## Steps that may run away -/

/-- An answer that is the same when `more` scopes more may be entered, unless it runs away. -/
def Prolonged (more : Nat) (step : Build Answer) : Prop :=
  ∀ b : Builder, (step.run b).1.RunsAway ∨
    step.run (b.raise more) = ((step.run b).1, (step.run b).2.raise more)

theorem Steady.prolonged {step : Build Answer} (h : Steady more step) : Prolonged more step :=
  fun b => .inr (h b)

theorem Prolonged.after {step : Build α} {next : α → Build Answer} (h : Steady more step)
    (k : ∀ a, Prolonged more (next a)) : Prolonged more (step >>= next) := by
  intro b
  rw [run_bind, run_bind, h b]
  exact k _ _

theorem run_enter_of_ok {b : Builder} {name : String} {env : Environment}
    (h : b.env.enter name none = .ok env) : (enter name).run b = (.ok (), { b with env }) := by
  have hrun : (enter name).run b = enter name b := rfl
  rw [hrun]
  unfold enter
  simp only [modifyGet, MonadStateOf.modifyGet, StateT.modifyGet]
  rw [h]
  rfl

theorem run_enter_of_error {b : Builder} {name : String} {cause : Runaway}
    (h : b.env.enter name none = .error cause) :
    (enter name).run b = (.error (.runaway cause), b) := by
  have hrun : (enter name).run b = enter name b := rfl
  rw [hrun]
  unfold enter
  simp only [modifyGet, MonadStateOf.modifyGet, StateT.modifyGet]
  rw [h]
  rfl

theorem prolonged_enter (name : String) {next : Except FoldError Unit → Build Answer}
    (hfail : ∀ cause b, ((next (.error (.runaway cause))).run b).1.RunsAway)
    (hnext : Prolonged more (next (.ok ()))) : Prolonged more (enter name >>= next) := by
  intro b
  rw [run_bind, run_bind]
  cases henter : b.env.enter name none with
  | error cause =>
    rw [run_enter_of_error henter]
    exact .inl (hfail cause b)
  | ok env =>
    rw [run_enter_of_ok henter, run_enter_of_ok (b.env.enter_raise more henter)]
    exact hnext { b with env }

theorem prolonged_foldNode (id : NodeId) {next : Except FoldError NodeId → Build Answer}
    (hfail : ∀ cause b, ((next (.error (.runaway cause))).run b).1.RunsAway)
    (hnext : ∀ result, Prolonged more (next result)) :
    Prolonged more (foldNode id >>= next) := by
  intro b
  have hrun : ∀ c : Builder, (foldNode id).run c =
      (((fold c.env id).run.run c.store).1,
        { c with store := ((fold c.env id).run.run c.store).2 }) := fun _ => rfl
  have hfold : (fold (b.raise more).env id).run.run (b.raise more).store =
      (fold (b.env.raise more) id).run.run b.store := rfl
  rw [run_bind, run_bind, hrun, hrun, hfold]
  rcases prolongs_fold more b.env id b.store with ⟨error, t, haway, hfolded⟩ | hsame
  · cases error with
    | unordered => exact haway.elim
    | runaway cause =>
      rw [hfolded]
      exact .inl (hfail cause _)
  · rw [hsame]
    exact hnext _ _

end Build

/-! ## Rules -/

namespace Rule

open Build

variable {more : Nat} (token : Token)

theorem prolonged_answerProgramEnd : Prolonged more (answerProgramEnd token) := by
  unfold answerProgramEnd
  split
  · refine .after steady_pop fun sequence => prolonged_foldNode sequence (fun cause b => ?_) ?_
    · exact token.runsAway_failed cause
    · rintro (cause | folded)
      · exact (Steady.pure _).prolonged
      · exact Steady.prolonged fun _ => rfl
  · exact (Steady.pure _).prolonged

theorem steady_closeSequence (base : Nat) : Steady more (closeSequence base) := fun _ => rfl

theorem steady_answerSequence (base : Nat) (stage : SequenceStage) :
    Steady more (answerSequence base stage token) := by
  unfold answerSequence
  split
  · split
    · exact .pure _
    · exact (steady_closeSequence base).bind fun _ => .pure _
  · split
    · exact (steady_closeSequence base).bind fun _ => .pure _
    · exact .pure _

theorem prolonged_answerLetName : Prolonged more (answerLetName token) := by
  unfold answerLetName
  split
  · refine .after (steady_addWord _) fun _ => prolonged_enter _ (fun cause b => ?_) ?_
    · exact token.runsAway_failed cause
    · exact (Steady.pure _).prolonged
  · exact (Steady.pure _).prolonged

theorem steady_answerLetParams (name : String) (params : List String) :
    Steady more (answerLetParams name params token) := by
  unfold answerLetParams
  split <;> exact fun _ => rfl

theorem prolonged_answerLetBody (name : String) (params : List String) :
    Prolonged more (answerLetBody name params token) := by
  unfold answerLetBody
  refine .after steady_pop fun body => prolonged_foldNode body (fun cause b => ?_) ?_
  · exact token.runsAway_failed cause
  · refine fun folded => .after steady_exit fun _ => Steady.prolonged ?_
    split
    · exact .pure _
    · refine Steady.bind (fun b => ?_) fun _ => .pure _
      show ((), { b with env := (b.env.raise more).define b.env.top name _ }) = _
      rw [Environment.define_raise]
      rfl

theorem steady_answerConditional : Steady more (answerConditional token) := by
  unfold answerConditional
  split <;> exact fun _ => rfl

theorem steady_answerClauses (base : Nat) (start : Coord) :
    Steady more (answerClauses base start token) := by
  unfold answerClauses
  split <;> exact fun _ => rfl

theorem steady_answerClauseColon : Steady more (answerClauseColon token) := by
  unfold answerClauseColon
  split <;> exact fun _ => rfl

theorem steady_answerClauseBody : Steady more answerClauseBody :=
  steady_pop.bind fun _ => steady_pop.bind fun _ => fun _ => rfl

theorem steady_closeIf (base : Nat) (start : Coord) : Steady more (closeIf base start token) :=
  fun _ => rfl

theorem steady_answerIfCondition (base : Nat) (start : Coord) :
    Steady more (answerIfCondition base start token) := by
  unfold answerIfCondition
  split <;> exact fun _ => rfl

theorem steady_answerIfBranch (base : Nat) (start : Coord) :
    Steady more (answerIfBranch base start token) := by
  unfold answerIfBranch
  split
  · exact fun _ => rfl
  · exact steady_closeIf token base start
  · exact .pure _

theorem steady_answerElseBranch (base : Nat) (start : Coord) :
    Steady more (answerElseBranch base start token) := by
  unfold answerElseBranch
  split
  · exact steady_closeIf token base start
  · exact .pure _

theorem steady_reduce (op : BinOp) : Steady more (reduce op) := by
  refine steady_pop.bind fun right => steady_pop.bind fun left => .get (fun _ => rfl) fun b => ?_
  dsimp only
  split
  · exact steady_pushConcat _ _
  · exact steady_pushBranch _ _ _

theorem steady_reduceAll (least : Nat) (waiting : List BinOp) :
    Steady more (reduceAll least waiting) := by
  induction waiting with
  | nil => exact .pure _
  | cons op rest ih =>
    unfold reduceAll
    split
    · exact .pure _
    · exact (steady_reduce op).bind fun _ => ih

theorem steady_answerOperator (waiting : List BinOp) :
    Steady more (answerOperator waiting token) := by
  unfold answerOperator
  split
  · exact (steady_reduceAll _ _).bind fun _ => .pure _
  · exact (steady_reduceAll _ _).bind fun _ => .pure _

theorem steady_answerUnary (pattern : Bool) : Steady more (answerUnary pattern token) := by
  unfold answerUnary
  split <;> exact .pure _

theorem steady_answerNegation (start : Coord) : Steady more (answerNegation start) :=
  steady_pop.bind fun _ => .get (fun _ => rfl) fun _ _ => rfl

theorem steady_readName (name : String) (pattern : Bool) (location : Location) :
    Steady more (readName name pattern location) := by
  unfold readName
  split
  · exact (steady_pushNode _ _).bind fun _ => .pure _
  · refine .get (fun _ => rfl) fun b => ?_
    split
    · split
      · exact (steady_push _).bind fun _ => .pure _
      · exact (steady_pushLeaf _ _ _).bind fun _ => .pure _
    · exact (steady_pushLeaf _ _ _).bind fun _ => .pure _
    · exact (steady_report _).bind fun _ => (steady_pushLeaf _ _ _).bind fun _ => .pure _

theorem prolonged_answerPrimary (pattern : Bool) :
    Prolonged more (answerPrimary pattern token) := by
  unfold answerPrimary
  dsimp only
  split
  case h_10 =>
    refine prolonged_enter "lambda" (fun cause b => ?_) (Steady.pure _).prolonged
    exact token.runsAway_failed cause
  case h_11 => exact ((steady_readName _ _ _).bind fun _ => .pure _).prolonged
  all_goals exact Steady.prolonged fun _ => rfl

theorem steady_answerInterpolation (base : Nat) (start : Coord) :
    Steady more (answerInterpolation base start token) := by
  unfold answerInterpolation
  split <;> exact fun _ => rfl

theorem steady_answerRecordKey (base : Nat) (start : Coord) :
    Steady more (answerRecordKey base start token) := by
  unfold answerRecordKey
  split <;> exact fun _ => rfl

theorem steady_answerRecordColon (base : Nat) (start : Coord) :
    Steady more (answerRecordColon base start token) := by
  unfold answerRecordColon
  split <;> exact fun _ => rfl

theorem steady_answerRecordValue (base : Nat) (start : Coord) :
    Steady more (answerRecordValue base start token) := by
  refine steady_pop.bind fun value => steady_pop.bind fun key => ?_
  refine (steady_pushBranch _ _ _).bind fun _ => ?_
  split <;> exact .pure _

theorem steady_answerList (base : Nat) (pattern : Bool) (start : Coord) :
    Steady more (answerList base pattern start token) := by
  unfold answerList
  split <;> exact fun _ => rfl

theorem steady_answerParen (start : Coord) : Steady more (answerParen start token) := by
  unfold answerParen
  split
  · exact steady_pop.bind fun _ => fun _ => rfl
  · exact .pure _

theorem steady_answerLambdaParams (params : List String) (start : Coord) :
    Steady more (answerLambdaParams params start token) := by
  unfold answerLambdaParams
  split <;> exact fun _ => rfl

theorem steady_internParams (params : List String) : Steady more (internParams params) := by
  induction params with
  | nil => exact .pure _
  | cons param rest ih => exact (steady_intern _ _).bind fun _ => ih.bind fun _ => .pure _

theorem prolonged_answerLambdaBody (params : List String) (start : Coord) :
    Prolonged more (answerLambdaBody params start token) := by
  unfold answerLambdaBody
  split
  · refine .after steady_pop fun body => prolonged_foldNode body (fun cause b => ?_) ?_
    · exact token.runsAway_failed cause
    · refine fun folded => .after steady_exit fun _ => Steady.prolonged ?_
      split
      · exact .pure _
      · refine (steady_internParams params).bind fun _ => (steady_intern _ _).bind fun _ => ?_
        exact (steady_pushNode _ _).bind fun _ => .pure _
  · exact (Steady.pure _).prolonged

/-- A rule answers a token in the same way when more scopes may be entered, unless its answer is
that too many were to be entered. -/
theorem prolonged_answer (rule : Rule) : Prolonged more (rule.answer token) := by
  cases rule with
  | program => exact (steady_opened.bind fun _ => .pure _).prolonged
  | programEnd => exact prolonged_answerProgramEnd token
  | sequence base stage => exact (steady_answerSequence token base stage).prolonged
  | expression => exact (Steady.pure _).prolonged
  | letName => exact prolonged_answerLetName token
  | letParams name params => exact (steady_answerLetParams token name params).prolonged
  | letBody name params => exact prolonged_answerLetBody token name params
  | conditional => exact (steady_answerConditional token).prolonged
  | clauses base start => exact (steady_answerClauses token base start).prolonged
  | clauseColon => exact (steady_answerClauseColon token).prolonged
  | clauseBody => exact steady_answerClauseBody.prolonged
  | ifCondition base start => exact (steady_answerIfCondition token base start).prolonged
  | ifBranch base start => exact (steady_answerIfBranch token base start).prolonged
  | elseBranch base start => exact (steady_answerElseBranch token base start).prolonged
  | operand waiting => exact (Steady.pure _).prolonged
  | operator waiting => exact (steady_answerOperator token waiting).prolonged
  | unary pattern => exact (steady_answerUnary token pattern).prolonged
  | negation start => exact (steady_answerNegation start).prolonged
  | primary pattern => exact prolonged_answerPrimary token pattern
  | interpolation base start => exact (steady_answerInterpolation token base start).prolonged
  | recordKey base start => exact (steady_answerRecordKey token base start).prolonged
  | recordColon base start => exact (steady_answerRecordColon token base start).prolonged
  | recordValue base start => exact (steady_answerRecordValue token base start).prolonged
  | list base pattern start => exact (steady_answerList token base pattern start).prolonged
  | paren start => exact (steady_answerParen token start).prolonged
  | lambdaParams params start => exact (steady_answerLambdaParams token params start).prolonged
  | lambdaBody params start => exact prolonged_answerLambdaBody token params start

end Rule

/-! ## Tokens -/

namespace Parser

/-- The parser that may enter `more` scopes more. -/
def raise (more : Nat) (p : Parser) : Parser := { p with builder := p.builder.raise more }

/-- Parsing has been stopped because too many scopes were to be entered. -/
def RanAway (p : Parser) : Prop :=
  p.halted = true ∧ ∃ cause location, .folding (.runaway cause) location ∈ p.errors

variable {more : Nat} {token : Token}

theorem prolonged_offer (rules : List Rule) (b : Builder) :
    (offer token rules b).2.RanAway ∨ offer token rules (b.raise more) =
      ((offer token rules b).1, (offer token rules b).2.raise more) := by
  fun_induction offer token rules b with
  | case1 b =>
    refine .inr ?_
    rw [offer]
    rfl
  | case2 b rule rest as others c h =>
    rcases @Rule.prolonged_answer more token rule b with haway | hsame
    · rw [h] at haway
      cases haway
    · rw [h] at hsame
      exact .inr (offer_taken hsame)
  | case3 b rule rest others c h hlt ih =>
    rcases @Rule.prolonged_answer more token rule b with haway | hsame
    · rw [h] at haway
      cases haway
    · rw [h] at hsame
      rw [offer_passed hsame]
      exact ih
  | case4 b rule rest error c h =>
    rcases @Rule.prolonged_answer more token rule b with haway | hsame
    · rw [h] at haway
      obtain ⟨cause, location⟩ := haway
      exact .inl ⟨rfl, cause, location, List.mem_append_right _ List.mem_cons_self⟩
    · rw [h] at hsame
      exact .inr (offer_refused hsame)

theorem prolonged_feed (p : Parser) (token : Token) : (p.feed token).2.RanAway ∨
    (p.raise more).feed token = ((p.feed token).1, (p.feed token).2.raise more) := by
  unfold feed
  split
  · exact .inr rfl
  · show _ ∨ (if p.halted = true then _ else _) = _
    split
    · exact .inr rfl
    · exact prolonged_offer p.rules p.builder

end Parser

/-! ## Texts -/

namespace Session

/-- The session that may enter `more` scopes more. -/
def raise (more : Nat) (s : Session) : Session := { s with parser := s.parser.raise more }

variable {more : Nat}

theorem prolonged_step (s : Session) : s.step.2.parser.RanAway ∨
    (s.raise more).step = (s.step.1, s.step.2.raise more) := by
  cases hdone : s.parser.isDone with
  | true =>
    rw [step_of_isDone hdone, step_of_isDone (s := s.raise more) hdone]
    exact .inr rfl
  | false =>
    have hgoing : (s.raise more).parser.isDone = false := hdone
    cases hnext : s.scan.next with
    | mk item scan =>
      have hsame : (s.raise more).scan.next = (item, scan) := hnext
      match item with
      | none =>
        rw [step_of_none hdone hnext, step_of_none hgoing hsame]
        exact .inr rfl
      | some (.error error) =>
        rw [step_of_error hdone hnext, step_of_error hgoing hsame]
        exact .inr rfl
      | some (.ok token) =>
        rw [step_of_token hdone hnext, step_of_token hgoing hsame]
        refine (@Parser.prolonged_feed more s.parser token).imp_right fun hfeed => ?_
        have hparser : (s.raise more).parser = s.parser.raise more := rfl
        rw [hparser, hfeed]
        rfl

/-- Nothing is read any more once parsing has been stopped. -/
theorem drain_of_ranAway {s : Session} (h : s.parser.RanAway) : s.drain = ([.done], s) := by
  have hdone : s.parser.isDone = true := by
    unfold Parser.isDone
    rw [h.1]
    rfl
  exact drain_of_last (step_of_isDone hdone) nofun

/-- A text is read to its end in the same way, unless parsing is stopped. -/
theorem prolonged_drain (s : Session) : s.drain.2.parser.RanAway ∨
    (s.raise more).drain = (s.drain.1, s.drain.2.raise more) := by
  fun_induction drain s with
  | case1 s as t hs hlt steps u hdrain ih =>
    rw [hdrain] at ih
    rcases @prolonged_step more s with haway | hsame
    · rw [hs] at haway
      rw [drain_of_ranAway haway] at hdrain
      cases hdrain
      exact .inl haway
    · rw [hs] at hsame
      refine ih.imp_right fun hrest => ?_
      rw [drain_of_token hsame, hrest]
  | case2 s last t hno hs =>
    rcases @prolonged_step more s with haway | hsame
    · rw [hs] at haway
      exact .inl haway
    · rw [hs] at hsame
      exact .inr (drain_of_last hsame hno)

end Session

/-- What is read from a text below a limit is read from it below a higher one, unless there were too
many scopes. -/
theorem Program.ofText_raise {lexicon : Lexicon} {limit : Nat} {version text : String}
    (h : ∀ cause location, .folding (.runaway cause) location ∉
      (ofText ⟨lexicon, limit, version⟩ text).syntaxErrors) (more : Nat) :
    ofText ⟨lexicon, limit + more, version⟩ text = ofText ⟨lexicon, limit, version⟩ text := by
  have hstart : ((Session.start ⟨lexicon, limit + more, version⟩).push text).close =
      (((Session.start ⟨lexicon, limit, version⟩).push text).close).raise more := rfl
  unfold ofText
  rw [hstart]
  rcases @Session.prolonged_drain more
    (((Session.start ⟨lexicon, limit, version⟩).push text).close) with haway | hsame
  · obtain ⟨-, cause, location, hm⟩ := haway
    exact absurd hm (h cause location)
  · rw [hsame]
    rfl

end Juxta
