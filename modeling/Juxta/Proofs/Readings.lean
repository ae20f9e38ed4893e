import Juxta.Proofs.Feeding
import Juxta.Proofs.Places

/-!
# Readings

Parsing a list of tokens, one answer at a time, with a record of the tokens that have been taken and
of those with which operands begin. The parser does what it does without the record.

* `Reading`, `Reading.Step` : a parser with the record, and one answer;
* `Reading.Reached` : the readings of some tokens;
* `Reading.Reached.sound` : all places are those of tokens that have been taken, and every operand
  has a token with which it begins;
* `Reading.Reached.first_mem_taken` : that token has been taken when an operator is to come;
* `Reading.Reached.feedAll` : until parsing stops, whatever it comes to is a reading.
-/

namespace Juxta

/-! ## Readings -/

/-- A parser, the tokens to come, those that have been taken, the last one first, and for every rule
that waits the tokens with which its operands begin, that of the last operand first. -/
structure Reading where
  parser : Parser
  ahead : List Token
  taken : List Token
  firsts : List (List Token)

/-- The tokens with which the operands begin, once a token has been offered to a rule: it begins the
operand that the rule waits for. -/
def Rule.firstsBegun (token : Token) (firsts : List Token) : Rule → List Token
  | .operand _ => token :: firsts
  | _ => firsts

/-- The tokens with which the operands of a rule begin that takes the place of another one. Operands
that have become one begin with the first of them. -/
def Rule.firstsKept (firsts : List Token) (rule : Rule) : List Token :=
  firsts.drop (firsts.length - rule.operandCount)

namespace Reading

/-- The reading of some tokens before the first one. -/
def start (lexicon : Lexicon) (limit : Nat) (tokens : List Token) : Reading :=
  ⟨.start lexicon limit, tokens, [], [[]]⟩

/-- One answer of the next rule to the next token. Comments are passed over, and a token that is
refused ends the reading. -/
inductive Step : Reading → Reading → Prop where
  | comment {p : Parser} {token : Token} {ahead taken : List Token} {firsts : List (List Token)}
      (h : token.kind = .comment) :
      Step ⟨p, token :: ahead, taken, firsts⟩ ⟨p, ahead, taken, firsts⟩
  | passed {rule : Rule} {rest more : List Rule} {b c : Builder} {token : Token}
      {ahead taken own : List Token} {outer : List (List Token)} (hkind : token.kind ≠ .comment)
      (h : (rule.answer token).run b = (.passed more, c)) :
      Step ⟨⟨rule :: rest, b, false⟩, token :: ahead, taken, own :: outer⟩
        ⟨⟨more ++ rest, c, false⟩, token :: ahead, taken,
          more.map (Rule.firstsKept (rule.firstsBegun token own)) ++ outer⟩
  | taken {rule : Rule} {rest more : List Rule} {b c : Builder} {as : TokenClass} {token : Token}
      {ahead taken own : List Token} {outer : List (List Token)} (hkind : token.kind ≠ .comment)
      (h : (rule.answer token).run b = (.taken as more, c)) :
      Step ⟨⟨rule :: rest, b, false⟩, token :: ahead, taken, own :: outer⟩
        ⟨⟨more ++ rest, c, false⟩, ahead, token :: taken,
          more.map (Rule.firstsKept (rule.firstsBegun token own)) ++ outer⟩

end Reading

/-- The readings of some tokens. -/
inductive Reading.Reached (lexicon : Lexicon) (limit : Nat) (tokens : List Token) :
    Reading → Prop where
  | start : Reading.Reached lexicon limit tokens (.start lexicon limit tokens)
  | step {r r' : Reading} (h : Reading.Reached lexicon limit tokens r) (hstep : r.Step r') :
      Reading.Reached lexicon limit tokens r'

/-! ## All readings -/

namespace Rule

variable {tokens given own : List Token} {rule : Rule}

/-- A rule remembers a place of some tokens, and there is a first token for every operand. -/
def Begins (tokens : List Token) (rule : Rule) (own : List Token) : Prop :=
  rule.Placed tokens own.length ∧ own.length = rule.operandCount

theorem Begins.cons (h : rule.Begins tokens own) (token : Token) :
    rule.Begins (token :: tokens) own :=
  ⟨⟨fun place hplace => (h.1.start place hplace).cons token, h.1.bounded⟩, h.2⟩

theorem length_firstsBegun (token : Token) (h : own.length = rule.operandCount) :
    (rule.firstsBegun token own).length = rule.operandsBegun := by
  cases rule <;> first | exact h | exact congrArg Nat.succ h

/-- What an answer leaves, with as many first tokens as there are operands. -/
theorem Begins.answered (h : rule.Begins tokens own) {b c : Builder}
    (hstore : b.store.Aligned tokens) {token : Token} {answer : Answer}
    (hrun : (rule.answer token).run b = (answer, c)) :
    answer.Aligned token tokens (rule.firstsBegun token own).length c.store := by
  have hanswer := traces_answer token h.1 b hstore
  rwa [hrun, ← length_firstsBegun token h.2] at hanswer

theorem begins_kept (h : rule.Placed tokens given.length) :
    rule.Begins tokens (rule.firstsKept given) := by
  have hlength : (rule.firstsKept given).length = rule.operandCount := by
    have hle := h.bounded
    unfold firstsKept
    rw [List.length_drop]
    omega
  exact ⟨⟨h.start, Nat.le_of_eq hlength.symm⟩, hlength⟩

theorem firstsKept_eq (h : given.length = rule.operandCount) : rule.firstsKept given = given := by
  unfold firstsKept
  rw [h, Nat.sub_self]
  rfl

theorem begins_all_kept {rules : List Rule} (h : AllPlaced tokens given.length rules) :
    List.Forall₂ (Begins tokens) rules (rules.map (firstsKept given)) := by
  rw [List.forall₂_map_right_iff, List.forall₂_same]
  exact fun rule hrule => begins_kept (h rule hrule)

end Rule

namespace Reading

open Juxta.Parser (answer_of_run Passes)

variable {lexicon : Lexicon} {limit : Nat} {tokens : List Token} {r r' : Reading}

/-- All places are those of tokens that have been taken, and every operand has a token with which it
begins. -/
structure Sound (r : Reading) : Prop where
  store : r.parser.builder.store.Aligned r.taken
  rules : List.Forall₂ (Rule.Begins r.taken) r.parser.rules r.firsts

theorem Step.sound (hstep : r.Step r') (h : r.Sound) : r'.Sound := by
  cases hstep with
  | comment => exact ⟨h.store, h.rules⟩
  | @passed rule rest more b c token ahead taken own outer hkind hrun =>
    obtain ⟨hrule, hrest⟩ := List.forall₂_cons.1 h.rules
    obtain ⟨hstore, hmore⟩ := hrule.answered h.store hrun
    exact ⟨hstore, List.rel_append (Rule.begins_all_kept hmore) hrest⟩
  | @taken rule rest more b c as token ahead taken own outer hkind hrun =>
    obtain ⟨hrule, hrest⟩ := List.forall₂_cons.1 h.rules
    obtain ⟨hstore, hmore⟩ := hrule.answered h.store hrun
    exact ⟨hstore, List.rel_append (Rule.begins_all_kept hmore)
      (hrest.imp fun _ _ hbegins => hbegins.cons token)⟩

/-! ### First tokens -/

/-- An operand has begun and its first token is yet to be taken. -/
def Opens (token : Token) (r : Reading) : Prop :=
  token.kind ≠ .comment ∧ (∃ ahead, r.ahead = token :: ahead) ∧
    ∃ pattern rest,
      r.parser.rules = .unary pattern :: rest ∨ r.parser.rules = .primary pattern :: rest

/-- The tokens with which operands begin have been taken, but for one that is to be taken next. -/
def Begun (r : Reading) : Prop :=
  (∀ own ∈ r.firsts, own ⊆ r.taken) ∨
    ∃ token, r.Opens token ∧ ∀ own ∈ r.firsts, own ⊆ token :: r.taken

/-- Rules that take the place of another one have no other first tokens. -/
theorem forall_firstsKept {tokens given : List Token} {more : List Rule}
    {outer : List (List Token)} (hgiven : given ⊆ tokens) (houter : ∀ own ∈ outer, own ⊆ tokens) :
    ∀ own ∈ more.map (Rule.firstsKept given) ++ outer, own ⊆ tokens := by
  intro own hown
  rcases List.mem_append.1 hown with hown | hown
  · obtain ⟨rule, -, rfl⟩ := List.mem_map.1 hown
    exact List.Subset.trans (List.drop_subset _ _) hgiven
  · exact houter own hown

theorem firstsBegun_subset (rule : Rule) (token : Token) {own tokens : List Token}
    (h : own ⊆ tokens) : rule.firstsBegun token own ⊆ token :: tokens := by
  have hsubset : own ⊆ token :: tokens := List.subset_cons_of_subset token h
  cases rule <;> first
    | exact hsubset
    | exact List.cons_subset_cons token h

/-- A sign may stand before a primary. -/
theorem rules_of_unary {pattern : Bool} {token : Token} {b c : Builder} {more : List Rule}
    (h : (Rule.answer token (.unary pattern)).run b = (.passed more, c)) :
    more = [.primary pattern] := by
  have hrun : (Rule.answerUnary pattern token).run b = (.passed more, c) := h
  unfold Rule.answerUnary at hrun
  split at hrun
  · cases hrun
  · cases hrun
    rfl

theorem Step.begun (hstep : r.Step r') (hsound : r.Sound) (h : r.Begun) : r'.Begun := by
  cases hstep with
  | comment hcomment =>
    refine h.imp id ?_
    rintro ⟨token, ⟨hkind, ⟨_, hahead⟩, _⟩, _⟩
    cases hahead
    exact absurd hcomment hkind
  | @passed rule rest more b c token ahead taken own outer hkind hrun =>
    rcases h with h | ⟨first, ⟨-, ⟨ahead', hahead⟩, pattern, rest', hrules⟩, h⟩
    · obtain ⟨hown, houter⟩ := List.forall_mem_cons.1 h
      cases rule with
      | operand waiting =>
        cases hrun
        refine .inr ⟨token, ⟨hkind, ⟨ahead, rfl⟩, false, _, .inl rfl⟩, ?_⟩
        exact forall_firstsKept (firstsBegun_subset _ token hown)
          fun own hmem => List.subset_cons_of_subset token (houter own hmem)
      | _ => exact .inl (forall_firstsKept hown houter)
    · cases hahead
      obtain ⟨hown, houter⟩ := List.forall_mem_cons.1 h
      rcases hrules with hrules | hrules
      · cases hrules
        obtain rfl := rules_of_unary hrun
        exact .inr ⟨token, ⟨hkind, ⟨ahead, rfl⟩, pattern, rest, .inr rfl⟩,
          forall_firstsKept hown houter⟩
      · cases hrules
        have hpassed : ((Rule.answerPrimary pattern token).run b).1 = .passed more :=
          congrArg Prod.fst hrun
        have htakes : Answer.Takes (token :: taken) 0 (.passed more) := by
          rw [← hpassed]
          exact (Rule.aligns_primary pattern b (hsound.store.cons token)).2
        exact htakes.elim
  | @taken rule rest more b c as token ahead taken own outer hkind hrun =>
    rcases h with h | ⟨first, ⟨-, ⟨ahead', hahead⟩, pattern, rest', hrules⟩, h⟩
    · obtain ⟨hown, houter⟩ := List.forall_mem_cons.1 h
      exact .inl (forall_firstsKept (firstsBegun_subset rule token hown)
        fun own hmem => List.subset_cons_of_subset token (houter own hmem))
    · cases hahead
      obtain ⟨hown, houter⟩ := List.forall_mem_cons.1 h
      have hplain : rule.firstsBegun token own = own := by
        rcases hrules with hrules | hrules <;>
          · cases hrules
            rfl
      rw [hplain]
      exact .inl (forall_firstsKept hown houter)

/-! ### From the first answer on -/

namespace Reached

theorem sound (h : Reached lexicon limit tokens r) : r.Sound := by
  induction h with
  | start => exact ⟨Store.aligned_empty _, .cons ⟨Rule.placed_plain rfl rfl, rfl⟩ .nil⟩
  | step _ hstep ih => exact hstep.sound ih

theorem passes (h : Reached lexicon limit tokens r) : Passes lexicon limit r.parser := by
  induction h with
  | start => exact .start
  | step _ hstep ih =>
    cases hstep with
    | comment => exact ih
    | @passed rule rest more b c token _ _ _ _ _ hrun =>
      have hanswer := ih.answer rfl token
      rwa [answer_of_run hrun] at hanswer
    | @taken rule rest more b c as token _ _ _ _ _ hrun =>
      have hanswer := ih.answer rfl token
      rwa [answer_of_run hrun] at hanswer

theorem begun (h : Reached lexicon limit tokens r) : r.Begun := by
  induction h with
  | start => exact .inl (List.forall_mem_singleton.2 (List.nil_subset _))
  | step hr hstep ih => exact hstep.begun hr.sound ih

/-- The tokens that have been taken and those to come are in order. -/
theorem sublist (h : Reached lexicon limit tokens r) :
    (r.taken.reverse ++ r.ahead).Sublist tokens := by
  induction h with
  | start => exact .refl _
  | step _ hstep ih =>
    cases hstep with
    | comment => exact (List.Sublist.append_left (List.sublist_cons_self _ _) _).trans ih
    | passed => exact ih
    | taken =>
      rw [List.reverse_cons, List.append_assoc]
      exact ih

/-- No token that has been taken ends after the last one. -/
theorem le_stop_last (h : Reached lexicon limit tokens r)
    (hordered : tokens.Pairwise fun a b => a.location.coord.stop.le b.location.coord.stop = true)
    {last : Token} {before : List Token} (htaken : r.taken = last :: before) {token : Token}
    (htoken : token ∈ r.taken) :
    token.location.coord.stop.le last.location.coord.stop = true := by
  have htakens := hordered.sublist ((List.sublist_append_left _ _).trans h.sublist)
  rw [List.pairwise_reverse, htaken] at htakens
  rw [htaken] at htoken
  rcases List.mem_cons.1 htoken with rfl | hbefore
  · exact Position.le_refl _
  · exact (List.pairwise_cons.1 htakens).1 token hbefore

/-- When it is the turn of the operators that wait, all operands have been read. -/
theorem first_mem_taken (h : Reached lexicon limit tokens r) {waiting : List BinOp}
    {rest : List Rule} {b : Builder} (hparser : r.parser = ⟨.operator waiting :: rest, b, false⟩)
    {own : List Token} (hown : own ∈ r.firsts) {first : Token} (hfirst : first ∈ own) :
    first ∈ r.taken := by
  rcases h.begun with hall | ⟨token, ⟨-, -, pattern, rest', hrules⟩, -⟩
  · exact hall own hown hfirst
  · rw [hparser] at hrules
    rcases hrules with hrules | hrules <;> cases hrules

/-! ### What parsing goes through -/

/-- The states in which a token is passed on. -/
theorem passing {n : Nat} {p q : Parser} {token : Token} {ahead taken : List Token}
    {firsts : List (List Token)}
    (h : Reached lexicon limit tokens ⟨p, token :: ahead, taken, firsts⟩)
    (hkind : token.kind ≠ .comment) (hpassing : Parser.Passing token n p q) :
    ∃ firsts', Reached lexicon limit tokens ⟨q, token :: ahead, taken, firsts'⟩ := by
  induction hpassing generalizing firsts with
  | none => exact ⟨firsts, h⟩
  | next hpassed _ ih =>
    cases hpassed with
    | intro hrun =>
      obtain ⟨own, outer, -, -, rfl⟩ := List.forall₂_cons_left_iff.1 h.sound.rules
      exact ih (h.step (.passed hkind hrun))

/-- The states between two tokens. -/
theorem feed {p : Parser} {token : Token} {ahead taken : List Token} {firsts : List (List Token)}
    (h : Reached lexicon limit tokens ⟨p, token :: ahead, taken, firsts⟩)
    (hgoing : (p.feed token).2.halted = false) :
    ∃ taken' firsts', Reached lexicon limit tokens ⟨(p.feed token).2, ahead, taken', firsts'⟩ := by
  by_cases hkind : token.kind = .comment
  · rw [Parser.feed_comment hkind]
    exact ⟨taken, firsts, h.step (.comment hkind)⟩
  · cases hhalted : p.halted with
    | true =>
      rw [Parser.feed_halted hhalted] at hgoing
      cases hgoing.symm.trans hhalted
    | false =>
      rw [Parser.feed_waiting hkind hhalted] at hgoing ⊢
      obtain ⟨rules, b, halted⟩ := p
      obtain rfl : halted = false := hhalted
      obtain ⟨n, q, hpassing, hends⟩ := Parser.offer_ends token rules b
      obtain ⟨firsts', hq⟩ := h.passing hkind hpassing
      generalize (Parser.offer token rules b).1 = as at hends
      generalize (Parser.offer token rules b).2 = p' at hgoing hends
      cases hends with
      | taken hrun =>
        obtain ⟨own, outer, -, -, rfl⟩ := List.forall₂_cons_left_iff.1 hq.sound.rules
        exact ⟨_, _, hq.step (.taken hkind hrun)⟩
      | refused => cases hgoing
      | emptied => cases hgoing

/-- Parsing does not go on after it has stopped. -/
theorem halted_feedAll {p : Parser} (h : p.halted = true) (tokens : List Token) :
    p.feedAll tokens = p := by
  induction tokens with
  | nil => rfl
  | cons token rest ih =>
    have hfed : p.feedAll (token :: rest) = (p.feed token).2.feedAll rest := rfl
    rw [hfed, Parser.feed_halted h, ih]

/-- Until parsing has stopped, whatever it has come to is reached. -/
theorem feedAll {p : Parser} {read ahead taken : List Token} {firsts : List (List Token)}
    (h : Reached lexicon limit tokens ⟨p, read ++ ahead, taken, firsts⟩)
    (hgoing : (p.feedAll read).halted = false) :
    ∃ taken' firsts', Reached lexicon limit tokens ⟨p.feedAll read, ahead, taken', firsts'⟩ := by
  induction read generalizing p taken firsts with
  | nil => exact ⟨taken, firsts, h⟩
  | cons token rest ih =>
    have hnext : (p.feed token).2.halted = false := by
      cases hhalted : (p.feed token).2.halted with
      | false => rfl
      | true =>
        have hfed : p.feedAll (token :: rest) = (p.feed token).2.feedAll rest := rfl
        rw [hfed, halted_feedAll hhalted] at hgoing
        exact hhalted.symm.trans hgoing
    obtain ⟨taken', firsts', hfed⟩ := h.feed hnext
    exact ih hfed hgoing

end Reached

end Reading

end Juxta
