import Juxta.Proofs.RefoldedPrograms

/-!
# How feeding a token ends

A rule that passes a token on is replaced by others, to which the token is offered again. There may
be more rules then than before, but no token is passed on for ever.

* `Parser.Passed`, `Parser.Passing` : one rule passes a token on, and several do so in turn;
* `Parser.Ends` : the three ways in which the last answer ends;
* `Parser.Passing.add_measure_le` : how many passes there may be at most;
* `Parser.offer_ends` : offering a token is a run of passes and one last answer;
* `Build.Silent`, `Rule.Tells` : steps that note no error, and answers that note one at most;
* `Parser.feed_ends` : what becomes of a token between two tokens.
-/

namespace Juxta

/-! ## Runs of passes -/

namespace Parser

/-- The next rule passes a token on, and others take its place. -/
inductive Passed (token : Token) : Parser → Parser → Prop where
  | intro {rule : Rule} {rest more : List Rule} {b c : Builder}
      (h : (rule.answer token).run b = (.passed more, c)) :
      Passed token ⟨rule :: rest, b, false⟩ ⟨more ++ rest, c, false⟩

/-- A number of rules pass a token on, one after the other. -/
inductive Passing (token : Token) : Nat → Parser → Parser → Prop where
  | none {p : Parser} : Passing token 0 p p
  | next {n : Nat} {p q r : Parser} (h : Passed token p q) (hrest : Passing token n q r) :
      Passing token (n + 1) p r

/-- A token is not passed on: the next rule takes it or refuses it, or there is no rule. -/
inductive Ends (token : Token) : Parser → TokenClass → Parser → Prop where
  | taken {rule : Rule} {rest more : List Rule} {b c : Builder} {as : TokenClass}
      (h : (rule.answer token).run b = (.taken as more, c)) :
      Ends token ⟨rule :: rest, b, false⟩ as ⟨more ++ rest, c, false⟩
  | refused {rule : Rule} {rest : List Rule} {b c : Builder} {error : SyntaxError}
      (h : (rule.answer token).run b = (.refused error, c)) :
      Ends token ⟨rule :: rest, b, false⟩ .error
        ⟨rest, { c with errors := c.errors ++ [error] }, true⟩
  | emptied {b : Builder} : Ends token ⟨[], b, false⟩ .error ⟨[], b, true⟩

variable {token : Token} {p q : Parser} {n : Nat}

theorem Passed.measure_lt (h : Passed token p q) :
    Rule.measure q.rules < Rule.measure p.rules := by
  cases h with
  | intro h => exact Rule.measure_lt_of_passed _ (congrArg Prod.fst h)

/-- The measure bounds the passes so far together with those that may follow. -/
theorem Passing.add_measure_le (h : Passing token n p q) :
    n + Rule.measure q.rules ≤ Rule.measure p.rules := by
  induction h with
  | none => exact Nat.le_of_eq (Nat.zero_add _)
  | next h _ ih =>
    have := h.measure_lt
    omega

/-- Offering a token is a run of passes and one last answer. -/
theorem offer_ends (token : Token) (rules : List Rule) (b : Builder) :
    ∃ n q, Passing token n ⟨rules, b, false⟩ q ∧
      Ends token q (offer token rules b).1 (offer token rules b).2 := by
  fun_induction offer token rules b with
  | case1 b => exact ⟨0, _, .none, .emptied⟩
  | case2 b rule rest as more c h => exact ⟨0, _, .none, .taken h⟩
  | case3 b rule rest more c h hlt ih =>
    obtain ⟨n, q, hpassing, hends⟩ := ih
    exact ⟨n + 1, q, .next ⟨h⟩ hpassing, hends⟩
  | case4 b rule rest error c h => exact ⟨0, _, .none, .refused h⟩

end Parser

/-- No rule counts for more than three. -/
theorem Rule.weights_le (rules : List Rule) : Rule.weights rules ≤ 3 * rules.length := by
  induction rules with
  | nil => exact Nat.le_refl 0
  | cons rule rest ih =>
    have : rule.weight ≤ 3 := by cases rule <;> simp [weight]
    simp only [weights, List.length_cons]
    omega

/-! ## Errors -/

namespace Build

variable {α β : Type}

/-- A step that notes no error. -/
def Silent (step : Build α) : Prop := ∀ b, (step.run b).2.errors = b.errors

theorem silent_pure (a : α) : Silent (pure a) := fun _ => rfl

theorem Silent.bind {step : Build α} {next : α → Build β} (h : Silent step)
    (k : ∀ a, Silent (next a)) : Silent (step >>= next) :=
  fun b => (k (step.run b).1 (step.run b).2).trans (h b)

theorem silent_get : Silent get := fun _ => rfl

theorem silent_modify {f : Builder → Builder} (h : ∀ b, (f b).errors = b.errors) :
    Silent (modify f : Build Unit) := h

theorem silent_height : Silent height := fun _ => rfl

theorem silent_pop : Silent pop := by
  intro b
  unfold pop
  rw [StateT.run_modifyGet]
  split <;> rfl

theorem silent_split (base : Nat) : Silent (split base) := fun _ => rfl

theorem silent_intern (node : Node) (coord : Option Coord) : Silent (intern node coord) :=
  fun _ => rfl

theorem silent_pushNode (node : Node) (coord : Option Coord) : Silent (pushNode node coord) :=
  fun _ => rfl

theorem silent_pushLeaf (tag : Tag) (text : String) (coord : Coord) :
    Silent (pushLeaf tag text coord) := fun _ => rfl

theorem silent_pushBranch (tag : Tag) (children : List NodeId) (coord : Option Coord) :
    Silent (pushBranch tag children coord) := fun _ => rfl

theorem silent_pushConcat (parts : List NodeId) (coord : Option Coord) :
    Silent (pushConcat parts coord) := fun _ => rfl

theorem silent_enter (name : String) : Silent (enter name) := by
  intro b
  unfold enter
  rw [StateT.run_modifyGet]
  split <;> rfl

theorem silent_exit : Silent exit := fun _ => rfl

theorem silent_addWord (word : Word) : Silent (addWord word) := fun _ => rfl

theorem silent_foldNode (id : NodeId) : Silent (foldNode id) := fun _ => rfl

end Build

namespace Rule

open Build

variable {token : Token}

theorem silent_opened : Silent opened := fun _ => rfl

theorem silent_reduce (op : BinOp) : Silent (reduce op) := by
  refine .bind silent_pop fun _ => .bind silent_pop fun _ => .bind silent_get fun _ => ?_
  split
  · exact silent_pushConcat _ _
  · exact silent_pushBranch _ _ _

theorem silent_reduceAll (least : Nat) (waiting : List BinOp) :
    Silent (reduceAll least waiting) := by
  induction waiting with
  | nil => exact silent_pure _
  | cons op rest ih =>
    unfold reduceAll
    split
    · exact silent_pure _
    · exact .bind (silent_reduce op) fun _ => ih

theorem silent_internParams (params : List String) : Silent (internParams params) := by
  induction params with
  | nil => exact silent_pure _
  | cons param rest ih =>
    exact .bind (silent_intern _ _) fun _ => .bind ih fun _ => silent_pure _

theorem silent_operator (waiting : List BinOp) : Silent (answerOperator waiting token) := by
  unfold answerOperator
  split
  · exact .bind (silent_reduceAll _ _) fun _ => silent_pure _
  · exact .bind (.bind (silent_reduceAll _ _) fun _ => silent_pure _) fun _ => silent_pure _

/-- Only a primary can be a name without a meaning. -/
theorem silent_answer (token : Token) {rule : Rule} (h : ∀ pattern, rule ≠ .primary pattern) :
    Silent (rule.answer token) := by
  cases rule with
  | primary pattern => exact absurd rfl (h pattern)
  | operator waiting => exact silent_operator waiting
  | _ =>
    simp only [answer, answerProgramEnd, answerSequence,
      closeSequence, answerLetName, answerLetParams, answerLetBody, answerConditional,
      answerClauses, answerClauseColon, answerClauseBody, answerIfCondition, answerIfBranch,
      answerElseBranch, closeIf, answerUnary, answerNegation, answerInterpolation,
      answerRecordKey, answerRecordColon, answerRecordValue, answerList, answerParen,
      answerLambdaParams, answerLambdaBody]
    repeat' (first
      | with_reducible exact silent_pure _
      | with_reducible exact silent_get
      | with_reducible exact silent_height
      | with_reducible exact silent_opened
      | with_reducible exact silent_pop
      | with_reducible exact silent_split _
      | with_reducible exact silent_exit
      | with_reducible exact silent_enter _
      | with_reducible exact silent_addWord _
      | with_reducible exact silent_foldNode _
      | with_reducible exact silent_intern _ _
      | with_reducible exact silent_internParams _
      | with_reducible exact silent_pushNode _ _
      | with_reducible exact silent_pushLeaf _ _ _
      | with_reducible exact silent_pushBranch _ _ _
      | with_reducible exact silent_pushConcat _ _
      | with_reducible exact silent_modify fun _ => rfl
      | with_reducible apply Silent.bind
      | with_reducible intro _
      | split)

/-- The errors after an answer. Only a token that is taken can be noted as a name without a
meaning. -/
def Tells (errors after : List SyntaxError) : Answer → Prop
  | .taken _ _ => after = errors ∨ ∃ name location, after = errors ++ [.unknownName name location]
  | _ => after = errors

theorem tells_of_silent {step : Build Answer} (h : Silent step) (b : Builder) :
    Tells b.errors (step.run b).2.errors (step.run b).1 := by
  rw [h b]
  cases (step.run b).1 with
  | taken as rules => exact .inl rfl
  | passed rules => rfl
  | refused error => rfl

theorem silent_primary (pattern : Bool) (h : ∀ name, token.kind ≠ .identifier name) :
    Silent (answerPrimary pattern token) := by
  unfold answerPrimary
  split
  case h_11 name hk => exact absurd hk (h name)
  case h_10 =>
    refine .bind (silent_enter _) fun result => ?_
    cases result <;> exact silent_pure _
  all_goals
    repeat' (first
      | with_reducible exact silent_pure _
      | with_reducible exact silent_height
      | with_reducible exact silent_opened
      | with_reducible exact silent_pushNode _ _
      | with_reducible exact silent_pushLeaf _ _ _
      | with_reducible apply Silent.bind
      | with_reducible intro _)

/-- Nothing, or that a name has no meaning. -/
theorem errors_readName (name : String) (pattern : Bool) (location : Location) (b : Builder) :
    ((readName name pattern location).run b).2.errors = b.errors ∨
      ((readName name pattern location).run b).2.errors =
        b.errors ++ [.unknownName name location] := by
  unfold readName
  split
  · exact .inl rfl
  · rw [run_next (rfl : (get : Build Builder).run b = (b, b))]
    split
    · split <;> exact .inl rfl
    · exact .inl rfl
    · exact .inr rfl

theorem tells_answer {rule : Rule} {b c : Builder} {answer : Answer}
    (h : (rule.answer token).run b = (answer, c)) : Tells b.errors c.errors answer := by
  by_cases hname : ∃ pattern name, rule = .primary pattern ∧ token.kind = .identifier name
  · obtain ⟨pattern, name, rfl, hk⟩ := hname
    change (answerPrimary pattern token).run b = (answer, c) at h
    unfold answerPrimary at h
    rw [hk] at h
    obtain ⟨rfl, rfl⟩ := Prod.ext_iff.1 h.symm
    exact (errors_readName name pattern token.location b).imp id fun herrors => ⟨_, _, herrors⟩
  · have hsilent : Silent (rule.answer token) := by
      by_cases hprimary : ∃ pattern, rule = .primary pattern
      · obtain ⟨pattern, rfl⟩ := hprimary
        exact silent_primary pattern fun name hk => hname ⟨pattern, name, rfl, hk⟩
      · exact silent_answer token fun pattern hrule => hprimary ⟨pattern, hrule⟩
    have htells := tells_of_silent hsilent b
    rwa [h] at htells

end Rule

/-! ## Tokens -/

namespace Parser

variable {lexicon : Lexicon} {limit : Nat} {token : Token} {p q r : Parser} {n : Nat}

/-- Rules that wait while there is no root, above what has been built soundly. -/
structure Waits (p : Parser) : Prop where
  sound : p.builder.Sound
  root : p.root? = none
  stacked : Rule.Stacked p.rules

theorem Passing.waits (h : Passing token n p q) (hp : p.Waits) : q.Waits := by
  induction h with
  | none => exact hp
  | next h _ ih =>
    cases h with
    | intro h =>
      obtain ⟨hsound, hroot, hstacked⟩ := Rule.leaves_answer hp.stacked hp.sound hp.root h
      exact ih ⟨hsound, hroot, hstacked⟩

theorem Passing.errors_eq (h : Passing token n p q) : q.errors = p.errors := by
  induction h with
  | none => rfl
  | next h _ ih =>
    cases h with
    | intro h => exact ih.trans (Rule.tells_answer h)

/-- What has become of a token: it is consumed, and at most noted as a name without a meaning; or
one error that stops parsing has been noted; or the program was complete already. -/
inductive Settles (p : Parser) : TokenClass → Parser → Prop where
  | consumed {as : TokenClass} {r : Parser} (hgoing : r.halted = false)
      (herrors : r.errors = p.errors ∨
        ∃ name location, r.errors = p.errors ++ [.unknownName name location]) : Settles p as r
  | refused {r : Parser} {error : SyntaxError} (hhalted : r.halted = true)
      (hfatal : error.isFatal = true) (herrors : r.errors = p.errors ++ [error]) :
      Settles p .error r
  | emptied {root : NodeId} (hroot : p.root? = some root) (hrules : p.rules = []) :
      Settles p .error { p with halted := true }

theorem Ends.settles {as : TokenClass} (h : Ends token q as r) (hpassing : Passing token n p q)
    (hp : p.Waits) : Settles p as r := by
  have hq := hpassing.waits hp
  cases h with
  | @taken rule rest more b c as h =>
    have hsame : b.errors = p.errors := hpassing.errors_eq
    exact .consumed rfl (hsame ▸ Rule.tells_answer h)
  | @refused rule rest b c error h =>
    obtain ⟨-, -, hstops⟩ := Rule.leaves_answer hq.stacked hq.sound hq.root h
    have hsame : b.errors = p.errors := hpassing.errors_eq
    have herrors : c.errors = b.errors := Rule.tells_answer h
    exact .refused rfl hstops.isFatal (congrArg (· ++ [error]) (herrors.trans hsame))
  | emptied => exact absurd rfl hq.stacked.ne_nil

/-- Offering a token comes to an end. Wherever a parser has come, it leaves a token alone if that is a
comment or if parsing has stopped. Otherwise the token is passed on, no more often than three times
for each rule that waits and five times more, and then it is consumed, refused, or met by no
rule. -/
theorem feed_ends (lexicon : Lexicon) (limit : Nat) (tokens : List Token) (token : Token) :
    let p := (start lexicon limit).feedAll tokens
    (token.kind = .comment ∨ p.halted = true) ∧ (p.feed token).2 = p ∨
      token.kind ≠ .comment ∧ p.halted = false ∧
        (∀ n q, Passing token n p q → n ≤ 3 * p.rules.length + 5) ∧
        ∃ n q as r, Passing token n p q ∧ Ends token q as r ∧ p.feed token = (as, r) ∧
          Settles p as r := by
  intro p
  have hp : Passes lexicon limit p := Passes.start.feedAll tokens
  clear_value p
  by_cases hk : token.kind = .comment
  · exact .inl ⟨.inl hk, feed_comment hk⟩
  · cases hhalted : p.halted with
    | true => exact .inl ⟨.inr rfl, feed_halted hhalted token⟩
    | false =>
      refine .inr ⟨hk, rfl, fun n q h => ?_, ?_⟩
      · have hle := h.add_measure_le
        have := Rule.measure_le p.rules
        have := Rule.weights_le p.rules
        omega
      · have hgoing := hp.going hhalted
        obtain ⟨rules, b, halted⟩ := p
        obtain rfl : halted = false := hhalted
        rw [feed_waiting hk rfl]
        obtain ⟨n, q, hpassing, hends⟩ := offer_ends token rules b
        refine ⟨n, q, _, _, hpassing, hends, rfl, ?_⟩
        obtain ⟨hsound, ⟨hroot, hstacked⟩ | ⟨hnil, root, hroot, -⟩⟩ := hgoing
        · exact hends.settles hpassing ⟨hsound, hroot, hstacked⟩
        · obtain rfl : rules = [] := hnil
          rw [offer]
          exact .emptied hroot rfl

end Parser

end Juxta
