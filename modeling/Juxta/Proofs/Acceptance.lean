import Juxta.Proofs.Grammar.Remaining
import Juxta.Proofs.Parsing

/-!
# Which programs are accepted

A parser that takes tokens one by one and never looks back has a root in the end if and only if the
tokens are a program. Otherwise it stops at the first token with which no program could go on.

* `Token.kinds` : the kinds of tokens that are no comments;
* `Parser.feedAll` : several tokens, one after the other;
* `Parser.Refuses` : the tokens up to an error could go on as a program, but not with the next one;
* `Parser.After` : the states of a parser after some tokens;
* `Parser.offer_after`, `Parser.After.feed` : one more token;
* `Parser.root_iff_isProgram` : the two ways in which parsing ends, unless scopes run away.
-/

namespace Juxta

/-- The kinds of some tokens. Comments do not count. -/
def Token.kinds (tokens : List Token) : List TokenKind :=
  (tokens.map Token.kind).filter (· ≠ .comment)

namespace Token

theorem kinds_append (tokens others : List Token) :
    kinds (tokens ++ others) = kinds tokens ++ kinds others := by
  unfold kinds
  rw [List.map_append, List.filter_append]

theorem kinds_cons {token : Token} (h : token.kind ≠ .comment) (tokens : List Token) :
    kinds (token :: tokens) = token.kind :: kinds tokens := by
  simp [kinds, h]

theorem kinds_comment {token : Token} (h : token.kind = .comment) : kinds [token] = [] := by
  simp [kinds, h]

end Token

namespace Parser

open Rule

/-- Takes some tokens, one after the other. -/
def feedAll (p : Parser) (tokens : List Token) : Parser :=
  tokens.foldl (fun p token => (p.feed token).2) p

/-- Parsing has stopped at the first token after which no continuation is a program. The errors
before that are names without a meaning. -/
def Refuses (p : Parser) (tokens : List Token) : Prop :=
  ∃ before token after names expected, tokens = before ++ token :: after ∧
    token.kind ≠ .comment ∧
    p.errors = names ++ [.unexpected expected token.kind token.location] ∧
    (∀ error ∈ names, error.isFatal = false) ∧
    (∃ more, IsProgram (Token.kinds before ++ more)) ∧
    ∀ more, ¬ IsProgram (Token.kinds before ++ token.kind :: more)

theorem Refuses.append {p : Parser} {tokens : List Token} (h : p.Refuses tokens)
    (others : List Token) : p.Refuses (tokens ++ others) := by
  obtain ⟨before, token, after, names, expected, rfl, hrest⟩ := h
  refine ⟨before, token, after ++ others, names, expected, ?_, hrest⟩
  rw [List.append_assoc]
  rfl

/-- The states of a parser after some tokens. -/
inductive After (tokens : List Token) : Parser → Prop where
  | waiting {rules : List Rule} {b : Builder} (hb : b.Sound) (hroot : b.root = none)
      (hrules : Stacked rules) (hsettled : Settled rules)
      (hopen : .endOfText ∉ Token.kinds tokens)
      (hrest : ∀ more, IsProgram (Token.kinds tokens ++ more) ↔ Derives (remaining rules) more) :
      After tokens ⟨rules, b, false⟩
  | complete {rules : List Rule} {b : Builder} {root : NodeId} {init : List TokenKind}
      (hroot : b.root = some root) (hend : Token.kinds tokens = init ++ [.endOfText])
      (hprogram : IsProgram (Token.kinds tokens)) : After tokens ⟨rules, b, false⟩
  | refused {rules : List Rule} {b : Builder} (hroot : b.root = none)
      (hrefuses : Refuses ⟨rules, b, true⟩ tokens) : After tokens ⟨rules, b, true⟩
  | runaway {rules : List Rule} {b : Builder} {cause : Runaway} {location : Location}
      (hmem : .folding (.runaway cause) location ∈ b.errors) : After tokens ⟨rules, b, true⟩

/-- The rules that wait answer a token until one of them takes or refuses it. -/
theorem offer_after {before : List Token} {token : Token} {rules : List Rule} {b : Builder}
    (hcomment : token.kind ≠ .comment) (hopen : .endOfText ∉ Token.kinds before)
    (hviable : ∃ more, IsProgram (Token.kinds before ++ more)) (hb : b.Sound)
    (hroot : b.root = none) (hrules : Stacked rules) (hsettled : Settled rules)
    (hrest : ∀ more, IsProgram (Token.kinds before ++ token.kind :: more) ↔
      Derives (remaining rules) (token.kind :: more)) :
    After (before ++ [token]) (offer token rules b).2 := by
  have hkinds : Token.kinds (before ++ [token]) = Token.kinds before ++ [token.kind] := by
    rw [Token.kinds_append, Token.kinds_cons hcomment]
    rfl
  fun_induction offer token rules b with
  | case1 b => exact absurd rfl hrules.ne_nil
  | case2 b rule rest as more c h =>
    have hfollows := follows_answer token rule rest hsettled b
    rw [h] at hfollows
    obtain ⟨hmore, hleft⟩ := hfollows
    obtain ⟨hc, ⟨hnone, hstacked, htoken⟩ | ⟨hnil, htoken, root, hset, -⟩⟩ :=
      leaves_answer hrules hb hroot h
    · refine .waiting hc hnone hstacked hmore ?_ fun kinds => ?_
      · rw [hkinds, List.mem_append, List.mem_singleton]
        rintro (hm | hm)
        · exact hopen hm
        · exact htoken hm.symm
      · rw [hkinds, List.append_assoc]
        exact (hrest kinds).trans (hleft kinds)
    · refine .complete hset (hkinds.trans (by rw [htoken])) ?_
      rw [hkinds]
      refine (hrest []).2 ((hleft []).2 ?_)
      rw [hnil]
      exact .nil
  | case3 b rule rest more c h hlt ih =>
    have hfollows := follows_answer token rule rest hsettled b
    rw [h] at hfollows
    obtain ⟨hmore, hleft⟩ := hfollows
    obtain ⟨hc, hnone, hstacked⟩ := leaves_answer hrules hb hroot h
    exact ih hc hnone hstacked hmore fun kinds => (hrest kinds).trans (hleft kinds)
  | case4 b rule rest error c h =>
    have hfollows := follows_answer token rule rest hsettled b
    rw [h] at hfollows
    obtain ⟨hc, hnone, hstops⟩ := leaves_answer hrules hb hroot h
    cases error with
    | unexpected expected found location =>
      obtain ⟨rfl, rfl, hrefused⟩ := hfollows
      refine .refused hnone ⟨before, token, [], c.errors, expected, rfl, hcomment, rfl, hc.errors,
        hviable, fun more hprogram => ?_⟩
      exact hrefused more ((hrest more).1 hprogram)
    | unknownName name location => exact hfollows.elim
    | folding cause location =>
      cases cause with
      | runaway cause => exact .runaway (List.mem_append_right _ (List.mem_singleton_self _))
      | unordered id => exact hstops.elim

theorem after_start (lexicon : Lexicon) (limit : Nat) : After [] (start lexicon limit) :=
  .waiting (sound_start lexicon limit) rfl .program ⟨nofun, trivial⟩ List.not_mem_nil
    fun _ => Iff.rfl

theorem feed_comment {p : Parser} {token : Token} (h : token.kind = .comment) :
    (p.feed token).2 = p := by
  unfold feed
  rw [if_pos h]

theorem feed_halted {p : Parser} (h : p.halted = true) (token : Token) : (p.feed token).2 = p := by
  unfold feed
  rw [h]
  split <;> rfl

theorem feed_waiting {p : Parser} {token : Token} (h : token.kind ≠ .comment)
    (hp : p.halted = false) : p.feed token = offer token p.rules p.builder := by
  unfold feed
  rw [if_neg h, if_neg (by rw [hp]; nofun)]

/-- A comment changes nothing. -/
theorem After.comment {tokens : List Token} {p : Parser} (h : After tokens p) {token : Token}
    (hcomment : token.kind = .comment) : After (tokens ++ [token]) p := by
  have hkinds : Token.kinds (tokens ++ [token]) = Token.kinds tokens := by
    rw [Token.kinds_append, Token.kinds_comment hcomment, List.append_nil]
  cases h with
  | waiting hb hroot hrules hsettled hopen hrest =>
    rw [← hkinds] at hopen hrest
    exact .waiting hb hroot hrules hsettled hopen hrest
  | complete hroot hend hprogram =>
    rw [← hkinds] at hend hprogram
    exact .complete hroot hend hprogram
  | refused hroot hrefuses => exact .refused hroot (hrefuses.append [token])
  | runaway hmem => exact .runaway hmem

/-- One more token, if none follows the end of the text. -/
theorem After.feed {tokens : List Token} {p : Parser} (h : After tokens p) (token : Token)
    (hends : ∀ init rest, Token.kinds (tokens ++ [token]) = init ++ .endOfText :: rest →
      rest = []) : After (tokens ++ [token]) (p.feed token).2 := by
  by_cases hcomment : token.kind = .comment
  · rw [feed_comment hcomment]
    exact h.comment hcomment
  cases h with
  | waiting hb hroot hrules hsettled hopen hrest =>
    rw [feed_waiting hcomment rfl]
    refine offer_after hcomment hopen ⟨_, (hrest _).2 (derives_remaining _)⟩ hb hroot hrules
      hsettled fun more => hrest _
  | @complete rules b root init hroot hend hprogram =>
    have hmore : Token.kinds (tokens ++ [token]) = init ++ .endOfText :: [token.kind] := by
      rw [Token.kinds_append, hend, Token.kinds_cons hcomment, List.append_assoc]
      rfl
    exact absurd (hends _ _ hmore) (List.cons_ne_nil _ _)
  | refused hroot hrefuses =>
    rw [feed_halted rfl]
    exact .refused hroot (hrefuses.append [token])
  | runaway hmem =>
    rw [feed_halted rfl]
    exact .runaway hmem

/-- Some more tokens, if none follows the end of the text. -/
theorem After.feedAll {tokens others : List Token} {p : Parser} (h : After tokens p)
    (hends : ∀ init rest, Token.kinds (tokens ++ others) = init ++ .endOfText :: rest →
      rest = []) : After (tokens ++ others) (p.feedAll others) := by
  induction others generalizing tokens p with
  | nil =>
    rw [List.append_nil]
    exact h
  | cons token others ih =>
    have hsplit : tokens ++ token :: others = tokens ++ [token] ++ others := by
      rw [List.append_assoc]
      rfl
    rw [hsplit] at hends ⊢
    refine ih (h.feed token fun init rest hkinds => ?_) hends
    have hall : Token.kinds (tokens ++ [token] ++ others) =
        init ++ .endOfText :: (rest ++ Token.kinds others) := by
      rw [Token.kinds_append, hkinds, List.append_assoc]
      rfl
    exact (List.append_eq_nil_iff.1 (hends _ _ hall)).1

/-- Only the last of some tokens is the end of the text. -/
theorem eq_nil_of_append_eq {init first rest : List TokenKind} (hinit : .endOfText ∉ init)
    (h : init ++ [.endOfText] = first ++ .endOfText :: rest) : rest = [] := by
  rcases List.eq_nil_or_concat rest with rfl | ⟨front, last, rfl⟩
  · rfl
  · have hlast : init ++ [.endOfText] = (first ++ .endOfText :: front) ++ [last] := by
      rw [h, List.concat_eq_append, List.append_assoc]
      rfl
    rw [List.append_inj_left' hlast rfl] at hinit
    exact absurd (List.mem_append_right _ List.mem_cons_self) hinit

/-- A parser accepts exactly the programs, if scopes do not run away: after tokens of which only the
last one is the end of the text, it has a root if and only if they are a program. Otherwise it has
stopped at the first token after which no continuation is a program. -/
theorem root_iff_isProgram (lexicon : Lexicon) (limit : Nat) {tokens : List Token}
    {init : List TokenKind} (hkinds : Token.kinds tokens = init ++ [.endOfText])
    (hinit : .endOfText ∉ init)
    (hscopes : ∀ cause location,
      .folding (.runaway cause) location ∉ ((start lexicon limit).feedAll tokens).errors) :
    (((start lexicon limit).feedAll tokens).root?.isSome = true ↔
        IsProgram (Token.kinds tokens)) ∧
      (((start lexicon limit).feedAll tokens).root? = none →
        ((start lexicon limit).feedAll tokens).Refuses tokens) := by
  have hafter : After ([] ++ tokens) ((start lexicon limit).feedAll tokens) :=
    (after_start lexicon limit).feedAll fun first rest hsplit =>
      eq_nil_of_append_eq hinit (hkinds.symm.trans hsplit)
  rw [List.nil_append] at hafter
  generalize (start lexicon limit).feedAll tokens = p at hscopes hafter
  cases hafter with
  | waiting hb hroot hrules hsettled hopen hrest =>
    rw [hkinds] at hopen
    exact absurd (List.mem_append_right _ (List.mem_singleton_self _)) hopen
  | complete hroot hend hprogram =>
    unfold root?
    rw [hroot]
    exact ⟨⟨fun _ => hprogram, fun _ => rfl⟩, nofun⟩
  | refused hroot hrefuses =>
    refine ⟨?_, fun _ => hrefuses⟩
    obtain ⟨before, token, after, names, expected, rfl, hcomment, -, -, -, hnone⟩ := hrefuses
    unfold root?
    rw [hroot, Token.kinds_append, Token.kinds_cons hcomment]
    exact ⟨nofun, fun hprogram => absurd hprogram (hnone _)⟩
  | runaway hmem => exact absurd hmem (hscopes _ _)

/-- A definition without a name. -/
def nameless : List Token :=
  [⟨.keyword .letWord, default⟩, ⟨.closeParen, default⟩, ⟨.endOfText, default⟩]

theorem feedAll_nameless (lexicon : Lexicon) (limit : Nat) :
    (start lexicon limit).feedAll nameless = ⟨[.sequence 0 .afterTerm, .programEnd],
      { (start lexicon limit).builder with errors := [.unexpected .name .closeParen default] },
      true⟩ := by
  have hlet : offer ⟨.keyword .letWord, default⟩ [.program] (start lexicon limit).builder =
      (.keyword, ⟨[.letName, .sequence 0 .afterTerm, .programEnd],
        (start lexicon limit).builder, false⟩) :=
    (offer.eq_def ..).trans ((offer.eq_def ..).trans ((offer.eq_def ..).trans rfl))
  have hclose : offer ⟨.closeParen, default⟩ [.letName, .sequence 0 .afterTerm, .programEnd]
      (start lexicon limit).builder = (.error, ⟨[.sequence 0 .afterTerm, .programEnd],
        { (start lexicon limit).builder with errors := [.unexpected .name .closeParen default] },
        true⟩) :=
    (offer.eq_def ..).trans rfl
  unfold nameless feedAll
  rw [List.foldl, feed_waiting (by decide) rfl]
  show List.foldl _ (offer ⟨.keyword .letWord, default⟩ [.program]
    (start lexicon limit).builder).2 _ = _
  rw [hlet, List.foldl, feed_waiting (by decide) rfl]
  dsimp only
  rw [hclose, List.foldl, feed_halted rfl]
  rfl

/-- The parenthesis is where the name should be. -/
theorem refuses_nameless : ((start .bare 8).feedAll nameless).Refuses nameless := by
  have hkinds : Token.kinds nameless = [.keyword .letWord, .closeParen] ++ [.endOfText] := rfl
  have hscopes : ∀ cause location,
      .folding (.runaway cause) location ∉ ((start .bare 8).feedAll nameless).errors := by
    rw [feedAll_nameless]
    intro cause location hm
    cases List.mem_singleton.1 hm
  have hroot : ((start .bare 8).feedAll nameless).root? = none := by
    rw [feedAll_nameless]
    rfl
  exact (root_iff_isProgram .bare 8 hkinds (by decide) hscopes).2 hroot

end Parser

end Juxta
