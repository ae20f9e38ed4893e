import Juxta.Session
import Juxta.Proofs.Grammar.Answer
import Juxta.Proofs.Token.Ahead

/-!
# How parsing ends

* `Rule.Stacked` : the rules that may wait between two tokens;
* `Parser.Reached` : the states of a parser. It waits, or has a root and no rule, or has been halted
  by an error that stops parsing;
* `Parser.Reached.feed` : a token keeps it so, and the end of the text ends it;
* `Session.Reached`, `Session.Reached.drain` : a complete text;
* `Program.Complete`, `Program.Refused` : the two ways in which parsing ends, and
  `Program.complete_or_refused`.
-/

namespace Juxta

/-! ## Tokens -/

/-- The rules that may wait for a token: the whole program, or inner rules above its end. -/
inductive Rule.Stacked : List Rule → Prop where
  | program : Stacked [.program]
  | inner {rules : List Rule} (h : rules.all isInner = true) : Stacked (rules ++ [.programEnd])

namespace Rule

/-- The next of some rules that wait. -/
theorem Stacked.next {rule : Rule} {rest : List Rule} (h : Stacked (rule :: rest)) :
    rule = .program ∧ rest = [] ∨ rule = .programEnd ∧ rest = [] ∨
      rule.isInner = true ∧ ∃ rules, rules.all isInner = true ∧ rest = rules ++ [.programEnd] := by
  generalize hall : rule :: rest = all at h
  cases h with
  | program =>
    cases hall
    exact .inl ⟨rfl, rfl⟩
  | @inner rules hrules =>
    cases rules with
    | nil =>
      cases hall
      exact .inr (.inl ⟨rfl, rfl⟩)
    | cons first others =>
      cases hall
      obtain ⟨hfirst, hothers⟩ := Bool.and_eq_true_iff.1 (List.all_cons.symm.trans hrules)
      exact .inr (.inr ⟨hfirst, others, hothers, rfl⟩)

theorem Stacked.ne_nil {rules : List Rule} (h : Stacked rules) : rules ≠ [] := by
  cases h with
  | program => exact List.cons_ne_nil _ _
  | inner hrules => exact List.append_ne_nil_of_right_ne_nil _ (List.cons_ne_nil _ _)

/-- More rules in front. -/
theorem Stacked.append {more rules : List Rule} (hmore : more.all isInner = true)
    (hrules : rules.all isInner = true) : Stacked (more ++ (rules ++ [.programEnd])) := by
  rw [← List.append_assoc]
  refine .inner ?_
  rw [List.all_append, hmore, hrules]
  rfl

/-- What an answer leaves behind. The builder `b` has a root only if no rule waits any longer. -/
def Leaves (token : Token) (rest : List Rule) (b : Builder) : Answer → Prop
  | .taken _ more =>
    b.root = none ∧ Stacked (more ++ rest) ∧ token.kind ≠ .endOfText ∨
      more ++ rest = [] ∧ token.kind = .endOfText ∧
        ∃ root, b.root = some root ∧ b.store.node? root ≠ none
  | .passed more => b.root = none ∧ Stacked (more ++ rest)
  | .refused error => b.root = none ∧ error.Stops

/-- One rule that is offered a token. -/
theorem leaves_answer {token : Token} {rule : Rule} {rest : List Rule} {b c : Builder}
    {answer : Answer} (hrules : Stacked (rule :: rest)) (hb : b.Sound) (hroot : b.root = none)
    (h : (rule.answer token).run b = (answer, c)) : c.Sound ∧ Leaves token rest c answer := by
  rcases hrules.next with ⟨rfl, rfl⟩ | ⟨rfl, rfl⟩ | ⟨hinner, rules, hrest, rfl⟩
  · obtain ⟨hc, -, hkept, hpassed⟩ := keeps_answer_program token b hb (Nat.le_refl _)
    rw [h] at hc hkept hpassed
    obtain ⟨first, hfirst, rfl⟩ := hpassed
    refine ⟨hc, hkept.trans hroot, ?_⟩
    have hone : [first].all isInner = true := by
      rw [List.all_cons, hfirst]
      rfl
    exact .inner hone
  · obtain ⟨hc, hend⟩ := completes_answerProgramEnd token b hb (Nat.le_refl _)
    change (answerProgramEnd token).run b = (answer, c) at h
    rw [h] at hc hend
    rcases hend with ⟨error, rfl, hstops, hkept⟩ | ⟨as, root, rfl, htoken, hset, hnode⟩
    · exact ⟨hc, hkept.trans hroot, hstops⟩
    · exact ⟨hc, .inr ⟨rfl, htoken, root, hset, hnode⟩⟩
  · obtain ⟨hc, -, hkept, hanswer⟩ := keeps_answer token hinner b hb (Nat.le_refl _)
    rw [h] at hc hkept hanswer
    refine ⟨hc, ?_⟩
    cases answer with
    | taken as more => exact .inl ⟨hkept.trans hroot, .append hanswer.2 hrest, hanswer.1⟩
    | passed more => exact ⟨hkept.trans hroot, .append hanswer hrest⟩
    | refused error => exact ⟨hkept.trans hroot, hanswer⟩

end Rule

namespace Parser

/-- The states between two tokens. -/
inductive Reached : Parser → Prop where
  | waiting {rules : List Rule} {b : Builder} (hb : b.Sound) (hroot : b.root = none)
      (hrules : Rule.Stacked rules) : Reached ⟨rules, b, false⟩
  | complete {b : Builder} {root : NodeId} (hb : b.Sound) (hroot : b.root = some root)
      (hnode : b.store.node? root ≠ none) : Reached ⟨[], b, false⟩
  | refused {rules : List Rule} {b : Builder} {before : List SyntaxError} {error : SyntaxError}
      (hroot : b.root = none) (herrors : b.errors = before ++ [error])
      (hbefore : ∀ other ∈ before, other.isFatal = false) (hstops : error.Stops) :
      Reached ⟨rules, b, true⟩

/-- The rules that wait answer a token until one of them takes or refuses it. The end of the text is
taken by the end of the program or refused. -/
theorem offer_reached {token : Token} {rules : List Rule} {b : Builder}
    (hrules : Rule.Stacked rules) (hb : b.Sound) (hroot : b.root = none) :
    (offer token rules b).2.Reached ∧
      (token.kind = .endOfText → (offer token rules b).2.isDone = true) := by
  fun_induction offer token rules b with
  | case1 b => exact absurd rfl hrules.ne_nil
  | case2 b rule rest as more c h =>
    obtain ⟨hc, ⟨hnone, hmore, htoken⟩ | ⟨hnil, -, root, hset, hnode⟩⟩ :=
      Rule.leaves_answer hrules hb hroot h
    · exact ⟨.waiting hc hnone hmore, fun hend => absurd hend htoken⟩
    · rw [hnil]
      refine ⟨.complete hc hset hnode, fun _ => ?_⟩
      unfold isDone root?
      rw [hset]
      rfl
  | case3 b rule rest more c h hlt ih =>
    obtain ⟨hc, hnone, hmore⟩ := Rule.leaves_answer hrules hb hroot h
    exact ih hmore hc hnone
  | case4 b rule rest error c h =>
    obtain ⟨hc, hnone, hstops⟩ := Rule.leaves_answer hrules hb hroot h
    exact ⟨.refused hnone rfl hc.errors hstops, fun _ => rfl⟩

/-- One more token. -/
theorem Reached.feed {p : Parser} (h : p.Reached) (hdone : p.isDone = false) (token : Token) :
    (p.feed token).2.Reached ∧
      (token.kind = .endOfText → (p.feed token).2.isDone = true) := by
  cases h with
  | complete hb hroot hnode =>
    unfold isDone root? at hdone
    rw [hroot] at hdone
    cases hdone
  | refused hroot herrors hbefore hstops => cases hdone
  | waiting hb hroot hrules =>
    unfold Parser.feed
    split
    · rename_i hcomment
      refine ⟨.waiting hb hroot hrules, fun hend => ?_⟩
      rw [hcomment] at hend
      cases hend
    · exact offer_reached hrules hb hroot

/-- Where there is a root, it is stored and nothing is waited for. -/
theorem Reached.of_root {p : Parser} (h : p.Reached) {root : NodeId} (hr : p.root? = some root) :
    p.rules = [] ∧ p.halted = false ∧ p.store.node? root ≠ none := by
  cases h with
  | waiting hb hroot hrules => cases hroot.symm.trans hr
  | refused hroot => cases hroot.symm.trans hr
  | complete hb hroot hnode =>
    cases hroot.symm.trans hr
    exact ⟨rfl, rfl, hnode⟩

theorem sound_start (lexicon : Lexicon) (limit : Nat) : (start lexicon limit).builder.Sound := by
  refine ⟨Store.grounded_empty, List.forall_mem_nil _, ?_, List.forall_mem_nil _⟩
  intro scope hs word hw
  rw [List.mem_singleton.1 hs] at hw
  obtain ⟨builtin, -, rfl⟩ := List.mem_map.1 hw
  exact trivial

theorem reached_start (lexicon : Lexicon) (limit : Nat) : (start lexicon limit).Reached :=
  .waiting (sound_start lexicon limit) rfl .program

end Parser

/-! ## One rule at a time -/

namespace Parser

variable {token : Token} {rule : Rule} {rest more : List Rule} {b c : Builder}

theorem offer_passed (h : (rule.answer token).run b = (.passed more, c)) :
    offer token (rule :: rest) b = offer token (more ++ rest) c := by
  rw [offer]
  split
  all_goals
    rename_i h'
    cases h.symm.trans h'
  rfl

theorem offer_taken {as : TokenClass} (h : (rule.answer token).run b = (.taken as more, c)) :
    offer token (rule :: rest) b = (as, ⟨more ++ rest, c, false⟩) := by
  rw [offer]
  split
  all_goals
    rename_i h'
    cases h.symm.trans h'
  rfl

theorem offer_refused {error : SyntaxError}
    (h : (rule.answer token).run b = (.refused error, c)) :
    offer token (rule :: rest) b =
      (.error, ⟨rest, { c with errors := c.errors ++ [error] }, true⟩) := by
  rw [offer]
  split
  all_goals
    rename_i h'
    cases h.symm.trans h'
  rfl

end Parser

namespace Session

variable {s t : Session} {step : Step} {scan : Scan}

theorem step_of_isDone (h : s.parser.isDone = true) : s.step = (.done, s) := if_pos h

theorem step_of_token {token : Token} (hdone : s.parser.isDone = false)
    (hnext : s.scan.next = (some (.ok token), scan)) :
    s.step = (.token (s.parser.feed token).1,
      ⟨scan, (s.parser.feed token).2, s.scanErrors, s.version⟩) := by
  unfold Session.step
  rw [if_neg (hdone ▸ nofun), hnext]

theorem step_of_error {error : ScanError} (hdone : s.parser.isDone = false)
    (hnext : s.scan.next = (some (.error error), scan)) :
    s.step = (.token .error, ⟨scan, s.parser, s.scanErrors ++ [error], s.version⟩) := by
  unfold Session.step
  rw [if_neg (hdone ▸ nofun), hnext]

theorem step_of_none (hdone : s.parser.isDone = false) (hnext : s.scan.next = (none, scan)) :
    s.step = (if scan.closed then .done else .needsInput,
      ⟨scan, s.parser, s.scanErrors, s.version⟩) := by
  unfold Session.step
  rw [if_neg (hdone ▸ nofun), hnext]

theorem drain_of_token {as : TokenClass} (h : s.step = (.token as, t)) :
    s.drain = (.token as :: t.drain.1, t.drain.2) := by
  rw [drain]
  split
  · rename_i h'
    cases h.symm.trans h'
    rfl
  · rename_i hno h'
    exact absurd (congrArg Prod.fst (h'.symm.trans h)) (hno _)

theorem drain_of_last (h : s.step = (step, t)) (hno : ∀ as, step ≠ .token as) :
    s.drain = ([step], t) := by
  rw [drain]
  split
  · rename_i h'
    cases h.symm.trans h'
    exact absurd rfl (hno _)
  · rename_i h'
    cases h.symm.trans h'
    rfl

end Session

/-! ## Complete texts -/

namespace Session

/-- A complete text that is read: parsing has ended once the end of the text is given out. -/
structure Reached (s : Session) : Prop where
  parser : s.parser.Reached
  closed : s.scan.closed = true
  ends : s.scan.finished = true → s.parser.isDone = true

theorem Reached.step {s t : Session} {step : Step} (h : s.Reached) (hs : s.step = (step, t)) :
    t.Reached ∧ ((∀ as, step ≠ .token as) → t.parser.isDone = true) := by
  unfold Session.step at hs
  split at hs
  · rename_i hdone
    cases hs
    exact ⟨h, fun _ => hdone⟩
  · rename_i hdone
    have hgoing : s.parser.isDone = false := Bool.eq_false_iff.2 hdone
    have hmore : s.scan.finished ≠ true := fun hend => hdone (h.ends hend)
    split at hs
    · rename_i token scan hnext
      cases hs
      obtain ⟨hclosed, -, hend⟩ := Scan.next_closed h.closed hnext
      obtain ⟨hreached, hlast⟩ := h.parser.feed hgoing token
      refine ⟨⟨hreached, hclosed, fun hf => ?_⟩, fun hno => absurd rfl (hno _)⟩
      rcases hend hf with hf | ⟨last, hlast', hkind⟩
      · exact absurd hf hmore
      · cases hlast'
        exact hlast hkind
    · rename_i error scan hnext
      cases hs
      obtain ⟨hclosed, -, hend⟩ := Scan.next_closed h.closed hnext
      refine ⟨⟨h.parser, hclosed, fun hf => ?_⟩, fun hno => absurd rfl (hno _)⟩
      rcases hend hf with hf | ⟨last, hlast, -⟩
      · exact absurd hf hmore
      · cases hlast
    · rename_i scan hnext
      exact absurd ((Scan.next_closed h.closed hnext).2.1 rfl) hmore

/-- When nothing is left to read, parsing has ended. -/
theorem Reached.drain {s : Session} (h : s.Reached) :
    s.drain.2.parser.Reached ∧ s.drain.2.parser.isDone = true := by
  fun_induction Session.drain s with
  | case1 s as t hs hlt steps u hdrain ih =>
    have hrest := ih (h.step hs).1
    rw [hdrain] at hrest
    exact hrest
  | case2 s last t hno hs =>
    obtain ⟨ht, hdone⟩ := h.step hs
    exact ⟨ht.parser, hdone hno⟩

theorem reached_start (options : ParseOptions) (text : String) :
    (((start options).push text).close).Reached :=
  ⟨Parser.reached_start options.lexicon options.limit, rfl, nofun⟩

end Session

/-! ## Programs -/

namespace Program

/-- A program that has been read to its end. Its only errors are unknown names, and its snapshot is
loaded again as a store with the same nodes under the same ids, the same places and the same tree at
the root. -/
def Complete (p : Program) : Prop :=
  (∀ error ∈ p.syntaxErrors, ∃ name location, error = .unknownName name location) ∧
    ∃ root snapshot store tree, p.root? = some root ∧ p.snapshot? = some snapshot ∧
      snapshot.load = .ok store ∧ snapshot.root = root ∧ store.size = p.store.size ∧
      (∀ id, store.node? id = p.store.node? id) ∧ (∀ id, store.coord? id = p.store.coord? id) ∧
      (∀ node, store.find? node = p.store.find? node) ∧
      p.store.tree? root = some tree ∧ store.tree? root = some tree

/-- A program without a root: one error has stopped parsing, the last one. -/
def Refused (p : Program) : Prop :=
  p.root? = none ∧ ∃ before last, p.syntaxErrors = before ++ [last] ∧ last.isFatal = true ∧
    ∀ error ∈ before, error.isFatal = false

theorem not_complete_of_refused {p : Program} (h : p.Refused) : ¬ p.Complete := by
  rintro ⟨-, root, -, -, -, hroot, -⟩
  rw [h.1] at hroot
  cases hroot

end Program

theorem SyntaxError.eq_unknownName {error : SyntaxError} (h : error.isFatal = false) :
    ∃ name location, error = .unknownName name location := by
  cases error with
  | unknownName name location => exact ⟨name, location, rfl⟩
  | unexpected expected found location => cases h
  | folding cause location => cases h

/-- The program of a complete text either is complete or has been refused, and never both. -/
theorem Program.complete_or_refused (options : ParseOptions) (text : String) :
    (ofText options text).Complete ∧ ¬ (ofText options text).Refused ∨
      (ofText options text).Refused ∧ ¬ (ofText options text).Complete := by
  obtain ⟨hreached, hdone⟩ := (Session.reached_start options text).drain
  unfold ofText Session.program
  generalize (((Session.start options).push text).close).drain.2 = session at hreached hdone
  obtain ⟨scan, parser, scanErrors, version⟩ := session
  cases hreached with
  | waiting hb hroot hrules =>
    unfold Parser.isDone Parser.root? at hdone
    rw [hroot] at hdone
    cases hdone
  | @refused rules b before last hroot herrors hbefore hstops =>
    have hrefused : Refused ⟨b.store, b.root, scanErrors, b.errors, version⟩ :=
      ⟨hroot, before, last, herrors, hstops.isFatal, hbefore⟩
    exact .inr ⟨hrefused, not_complete_of_refused hrefused⟩
  | @complete b root hb hroot hnode =>
    obtain ⟨store, hload, hentries⟩ := hb.grounded.load_snapshot hnode
    obtain ⟨tree, htree⟩ := Store.exists_tree hnode
    have hcomplete : Complete ⟨b.store, b.root, scanErrors, b.errors, version⟩ := by
      refine ⟨fun error hm => SyntaxError.eq_unknownName (hb.errors error hm), root,
        { b.store.snapshot root with version }, store, tree, hroot, ?_, hload, rfl, ?_,
        Store.node?_congr hentries, Store.coord?_congr hentries, Store.find?_congr hentries,
        htree, (Store.tree?_congr hentries root).trans htree⟩
      · unfold snapshot?
        rw [hroot]
        rfl
      · exact congrArg Array.size hentries
    exact .inl ⟨hcomplete, fun hrefused => not_complete_of_refused hrefused hcomplete⟩

end Juxta
