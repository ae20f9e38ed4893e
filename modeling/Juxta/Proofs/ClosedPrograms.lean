import Juxta.Proofs.Grammar.Nesting
import Juxta.Proofs.Acceptance
import Juxta.Proofs.Literals

/-!
# Names that are left in programs

The names that are free in a program have been reported as unknown, or they have been read in the
bodies of their own definitions. So a program without errors is closed unless it does the latter.

* `Parser.Nested`, `Session.ReadsEarly` : rules that fit levels between two tokens, and tokens to
  come that read a name in its own body;
* `Program.leftOver_of_free` : the names that are free in a program;
* `Program.closed_of_no_errors` : programs without errors;
* `SelfNamed`, `Program.free_selfNamed` : a program without errors that is not closed;
* `Identity`, `Program.closed_identity` : a lambda, which is closed.
-/

namespace Juxta

/-! ## Tokens -/

namespace Parser

/-- Parsing has been halted, or the rules that wait fit what has been built. -/
def Nested (early : String → Prop) (p : Parser) : Prop :=
  p.halted = true ∨ Rule.Nested early p.rules p.builder

/-- A name that stands for a definition without parameters whose body is being parsed. -/
def InOwnBody (p : Parser) (name : String) : Prop :=
  (∃ word number, p.builder.env.find? name = some (word, number) ∧ word.kind = .pending) ∧
    p.rules.findSome? (Rule.paramsOf? name) = some []

/-- A token that reads a name in the body of its own definition, one without parameters. -/
def ReadsEarly (p : Parser) (token : Token) (name : String) : Prop :=
  token.kind = .identifier name ∧ (p.feed token).1 = .function ∧ (p.feed token).2.InOwnBody name

variable {early : String → Prop} {token : Token}

/-- One rule that is offered a token. -/
theorem nested_answer {rule : Rule} {rest : List Rule} {b c : Builder} {answer : Answer}
    (hn : Rule.Nested early (rule :: rest) b) (h : (rule.answer token).run b = (answer, c))
    (hearly : ∀ name, token.kind = .identifier name → answer = .taken .function [] →
      InOwnBody ⟨rest, c, false⟩ name → early name) :
    answer.Nests early rest c := by
  obtain ⟨levels, hfits, hb⟩ | ⟨hnil, -⟩ := hn
  · have hleads : Rule.LeadsFrom early b rest (rule.answer token) := by
      refine Rule.leads_answer hfits hb fun pattern hrule name hreads => ?_
      subst hrule
      obtain ⟨d, hrun, henv⟩ :=
        Rule.answerPrimary_pending hreads.token hreads.notWildcard hreads.pending
      obtain ⟨rfl, rfl⟩ := Prod.mk.inj (h.symm.trans hrun)
      refine hearly name hreads.token rfl ⟨henv ▸ hreads.pending, ?_⟩
      exact (hfits.paramsOf?_eq name).trans hreads.params
    unfold Rule.LeadsFrom at hleads
    rwa [h] at hleads
  · exact absurd hnil (List.cons_ne_nil _ _)

theorem offer_nested {rules : List Rule} {b : Builder} (hn : Rule.Nested early rules b)
    (hearly : ∀ name, token.kind = .identifier name → (offer token rules b).1 = .function →
      (offer token rules b).2.InOwnBody name → early name) :
    (offer token rules b).2.Nested early := by
  fun_induction offer token rules b with
  | case1 b => exact .inl rfl
  | case2 b rule rest as more c h =>
    refine .inr (nested_answer hn h fun name hk hclass hown => ?_)
    cases hclass
    exact hearly name hk rfl hown
  | case3 b rule rest more c h hlt ih =>
    refine ih (nested_answer hn h fun name _ hclass => ?_) hearly
    cases hclass
  | case4 b rule rest error c h => exact .inl rfl

/-- One more token. -/
theorem Nested.feed {p : Parser} (hn : p.Nested early)
    (hearly : ∀ name, p.ReadsEarly token name → early name) : (p.feed token).2.Nested early := by
  unfold ReadsEarly Parser.feed at hearly
  unfold Parser.feed
  split
  · exact hn
  · rename_i hcomment
    rw [if_neg hcomment] at hearly
    split
    · exact hn
    · rename_i hgoing
      rw [if_neg hgoing] at hearly
      exact offer_nested (hn.resolve_left hgoing) fun name hk hclass hown =>
        hearly name ⟨hk, hclass, hown⟩

end Parser

/-- A lexicon whose builtin functions are operations on their terms. -/
def Lexicon.Operational (lexicon : Lexicon) : Prop :=
  ∀ builtin ∈ lexicon.builtins, builtin.2.tag.role = .terms

instance (lexicon : Lexicon) : Decidable lexicon.Operational :=
  inferInstanceAs (Decidable (∀ builtin ∈ lexicon.builtins, _))

theorem Lexicon.operational_standard : standard.Operational := by decide

/-- At first every word is a builtin function. -/
theorem Lexicon.Operational.builtin_of_get? {lexicon : Lexicon} (h : lexicon.Operational)
    (limit : Nat) {scope : Environment.Scope}
    (hscope : scope ∈ (Environment.ofLexicon lexicon limit).scopes) {key : String} {word : Word}
    (hword : scope.words.get? key = some word) :
    ∃ tag arity, word.kind = .builtin tag arity ∧ tag.role = .terms := by
  obtain rfl := List.mem_singleton.1 hscope
  refine Fields.of_get? (P := fun word => ∃ tag arity, word.kind = .builtin tag arity ∧
    tag.role = .terms) (fun field hm => ?_) hword
  obtain ⟨builtin, hbuiltin, rfl⟩ := List.mem_map.1 hm
  exact ⟨_, _, rfl, h builtin hbuiltin⟩

theorem Parser.nested_start {lexicon : Lexicon} (h : lexicon.Operational) (limit : Nat)
    (early : String → Prop) : (start lexicon limit).Nested early := by
  refine .inr (.inl ⟨_, .program, .cons ⟨.nil, fun key word hword => ?_,
    fun key word hword hpending => ?_, rfl⟩ .nil rfl⟩)
  · obtain ⟨tag, arity, hkind, hrole⟩ := h.builtin_of_get? limit List.mem_cons_self hword
    rw [hkind]
    exact hrole
  · obtain ⟨tag, arity, hkind, -⟩ := h.builtin_of_get? limit List.mem_cons_self hword
    rw [hkind] at hpending
    cases hpending

/-! ## Complete texts -/

namespace Session

/-- A token that reads a name in the body of its own definition, one without parameters, is still to
come. -/
inductive ReadsEarly (name : String) : Session → Prop where
  | now {s : Session} {token : Token} (hdone : s.parser.isDone = false)
      (hnext : s.scan.next.1 = some (.ok token)) (h : s.parser.ReadsEarly token name) :
      ReadsEarly name s
  | later {s t : Session} {as : TokenClass} (hs : s.step = (.token as, t))
      (h : ReadsEarly name t) : ReadsEarly name s

theorem step_nested {early : String → Prop} {s t : Session} {step : Step}
    (hn : s.parser.Nested early) (hs : s.step = (step, t))
    (hearly : ∀ name, s.ReadsEarly name → early name) : t.parser.Nested early := by
  unfold Session.step at hs
  split at hs
  · cases hs
    exact hn
  · rename_i hdone
    split at hs
    · rename_i token scan hnext
      cases hs
      refine hn.feed fun name h => hearly name (.now (Bool.eq_false_iff.2 hdone) ?_ h)
      rw [hnext]
    · cases hs
      exact hn
    · cases hs
      exact hn

/-- Names that are left are read in the bodies of their own definitions, or unknown. -/
theorem drain_nested {early : String → Prop} {s : Session} (hn : s.parser.Nested early)
    (hearly : ∀ name, s.ReadsEarly name → early name) : s.drain.2.parser.Nested early := by
  fun_induction Session.drain s with
  | case1 s as t hs hlt steps u hdrain ih =>
    have hrest := ih (step_nested hn hs hearly) fun name h => hearly name (.later hs h)
    rw [hdrain] at hrest
    exact hrest
  | case2 s last t hno hs => exact step_nested hn hs hearly

end Session

namespace Program

/-- The names that are free in a program are unknown, or they are read in the bodies of their own
definitions. -/
theorem leftOver_of_free {options : ParseOptions} (hl : options.lexicon.Operational)
    {text : String} {root : NodeId} (hroot : (ofText options text).root? = some root)
    {name : String} (hfree : (ofText options text).store.Free name root) :
    LeftOver (((Session.start options).push text).close).ReadsEarly
      (ofText options text).syntaxErrors name := by
  obtain ⟨hreached, -⟩ := (Session.reached_start options text).drain
  have hnested := Session.drain_nested (s := ((Session.start options).push text).close)
    (Parser.nested_start hl options.limit _) fun _ h => h
  obtain ⟨hrules, hgoing, -⟩ := hreached.of_root hroot
  obtain ⟨levels, hfits, -⟩ | ⟨-, hclosed⟩ := hnested.resolve_left (hgoing ▸ nofun)
  · rw [hrules] at hfits
    cases hfits
  · exact (hclosed root hroot).of_free hfree

/-- A program without syntax errors is complete. -/
theorem exists_root {options : ParseOptions} {text : String}
    (h : (ofText options text).syntaxErrors = []) :
    ∃ root, (ofText options text).root? = some root := by
  obtain ⟨hreached, hdone⟩ := (Session.reached_start options text).drain
  unfold ofText Session.program at h ⊢
  generalize (((Session.start options).push text).close).drain.2 = session at *
  obtain ⟨scan, parser, scanErrors, version⟩ := session
  cases hreached with
  | waiting hb hroot hrules =>
    unfold Parser.isDone Parser.root? at hdone
    rw [hroot] at hdone
    cases hdone
  | refused hroot herrors hbefore hstops =>
    exact absurd (herrors.symm.trans h)
      (List.append_ne_nil_of_right_ne_nil _ (List.cons_ne_nil _ _))
  | complete hb hroot hnode => exact ⟨_, hroot⟩

/-- A program without errors is closed: every name that is left in it is a parameter of a lambda
around it. The only exception are names that are read in the bodies of their own definitions. -/
theorem closed_of_no_errors {options : ParseOptions} (hl : options.lexicon.Operational)
    {text : String} (hclean : (ofText options text).hasErrors = false)
    (hearly : ∀ name, ¬ (((Session.start options).push text).close).ReadsEarly name) :
    ∃ root, (ofText options text).root? = some root ∧
      ∀ name, ¬ (ofText options text).store.Free name root := by
  have hnone : (ofText options text).syntaxErrors = [] := by
    obtain ⟨-, h⟩ := Bool.or_eq_false_iff.1 hclean
    exact List.isEmpty_iff.1 (by simpa using h)
  obtain ⟨root, hroot⟩ := exists_root hnone
  refine ⟨root, hroot, fun name hfree => ?_⟩
  have hleft := leftOver_of_free hl hroot hfree
  rw [hnone] at hleft
  exact hleft.elim (hearly name) fun ⟨_, hm⟩ => List.not_mem_nil hm

end Program

/-! ## Runs on given texts -/

namespace Parser

variable {token : Token} {b : Builder}

/-- What becomes of a token that is offered to some rules, if one of the first `count` that are
asked takes it. -/
def offerWithin (token : Token) : (count : Nat) → List Rule → Builder → Option (TokenClass × Parser)
  | count + 1, rule :: rest, b =>
    match (rule.answer token).run b with
    | (.taken as more, c) => some (as, ⟨more ++ rest, c, false⟩)
    | (.passed more, c) => offerWithin token count (more ++ rest) c
    | (.refused _, _) => none
  | _, _, _ => none

theorem offer_of_within (count : Nat) {rules : List Rule} {result : TokenClass × Parser}
    (h : offerWithin token count rules b = some result) : offer token rules b = result := by
  fun_induction offerWithin token count rules b with
  | case1 count rule rest b as more c hrun =>
    cases h
    exact offer_taken hrun
  | case2 count rule rest b more c hrun ih => exact (offer_passed hrun).trans (ih h)
  | case3 => cases h
  | case4 => cases h

theorem feed_of_within {p : Parser} {kind : TokenKind} {location : Location} (hk : kind ≠ .comment)
    (hp : p.halted = false) (count : Nat) {result : TokenClass × Parser}
    (h : offerWithin ⟨kind, location⟩ count p.rules p.builder = some result) :
    p.feed ⟨kind, location⟩ = result :=
  (feed_waiting hk hp).trans (offer_of_within _ h)

end Parser

namespace Session

variable {s t : Session} {as : TokenClass}

theorem step_of_feed {token : Token} {parser : Parser} (hdone : s.parser.isDone = false)
    (hnext : s.scan.next.1 = some (.ok token)) (hfeed : s.parser.feed token = (as, parser)) :
    s.step = (.token as, { s with scan := s.scan.next.2, parser }) := by
  rw [step_of_token hdone (Prod.ext hnext rfl), hfeed]

theorem drain_of_feed {token : Token} {parser : Parser} (hdone : s.parser.isDone = false)
    (hnext : s.scan.next.1 = some (.ok token)) (hfeed : s.parser.feed token = (as, parser)) :
    s.drain.2 = (⟨s.scan.next.2, parser, s.scanErrors, s.version⟩ : Session).drain.2 := by
  rw [drain_of_token (step_of_feed hdone hnext hfeed)]

theorem drain_of_isDone (h : s.parser.isDone = true) : s.drain.2 = s := by
  rw [drain_of_last (step_of_isDone h) nofun]

/-- Names are read early by tokens of functions only. -/
theorem ReadsEarly.of_step {name : String} (h : s.ReadsEarly name) (hs : s.step = (.token as, t))
    (has : as ≠ .function) : t.ReadsEarly name := by
  cases h with
  | now hdone hnext hreads =>
    cases hs.symm.trans (step_of_feed hdone hnext rfl)
    exact absurd hreads.2.1 has
  | later hs' h =>
    cases hs.symm.trans hs'
    exact h

theorem not_readsEarly_of_isDone (h : s.parser.isDone = true) (name : String) :
    ¬ s.ReadsEarly name := by
  intro hreads
  cases hreads with
  | now hdone => exact nomatch h.symm.trans hdone
  | later hs => cases (step_of_isDone h).symm.trans hs

end Session

/-- Some tokens later, none of them the name of a function: the rest of the text is read as from
there. -/
structure Session.Runs (s t : Session) : Prop where
  drain : s.drain.2 = t.drain.2
  reads : ∀ name, s.ReadsEarly name → t.ReadsEarly name

namespace Session

variable {s t u : Session} {as : TokenClass}

theorem Runs.trans (h : s.Runs t) (k : t.Runs u) : s.Runs u :=
  ⟨h.drain.trans k.drain, fun name hreads => k.reads name (h.reads name hreads)⟩

theorem runs_of_feed {token : Token} {parser : Parser} (hdone : s.parser.isDone = false)
    (hnext : s.scan.next.1 = some (.ok token)) (hfeed : s.parser.feed token = (as, parser))
    (has : as ≠ .function) : s.Runs ⟨s.scan.next.2, parser, s.scanErrors, s.version⟩ :=
  ⟨drain_of_feed hdone hnext hfeed, fun _ hreads =>
    hreads.of_step (step_of_feed hdone hnext hfeed) has⟩

end Session

theorem Build.run_foldNode_of_gives {b : Builder} {id folded : NodeId} {store : Store}
    (h : Fold.Gives b.store (fold b.env id) folded store) :
    (foldNode id).run b = (.ok folded, { b with store }) := by
  unfold Fold.Gives at h
  unfold foldNode
  rw [StateT.run_modifyGet, h]
  rfl

theorem Build.run_intern {b : Builder} {node : Node} {coord : Option Coord} {id : NodeId}
    {store : Store} (h : b.store.intern node coord = (id, store)) :
    (intern node coord).run b = (id, { b with store }) := by
  unfold intern
  rw [StateT.run_modifyGet, h]
  rfl

/-- A sequence whose only term is folded to itself. -/
theorem gives_fold_alone {s : Store} {env : Environment} (id : NodeId) {only : NodeId}
    (hnode : s.node? id = some (.branch .exprs [only]))
    (h : Fold.Gives s (foldSequence env (foldEntered fold env) id.index [only]) [only] s) :
    Fold.Gives s (fold env id) id s := by
  have hbuilt := Fold.gives_rebuild_stored hnode id
  rw [fold_eq]
  unfold foldBy
  rw [Store.isAbsent_of_node? hnode]
  exact (gives_foldSequence hnode (Nat.le_refl _) ⟨nofun, nofun, nofun⟩ (h.bind hbuilt)).bind
    (Fold.gives_pure s _)

/-- The end of a text with one term, whose sequence is folded to itself. -/
theorem Parser.feed_end {s t u : Store} {env : Environment} {only sequence root : NodeId}
    (hsequence : s.intern (.branch .exprs [only]) (s.joinedCoord? [only]) = (sequence, t))
    (hfold : Fold.Gives t (fold env sequence) sequence t)
    (hprog : t.intern (.branch .prog [sequence]) (t.coord? sequence) = (root, u))
    (location : Location) :
    feed ⟨[.operator [], .sequence 0 .afterTerm, .programEnd], ⟨s, env, [only], [], none⟩, false⟩
        ⟨.endOfText, location⟩ =
      (.punctuation, ⟨[], ⟨u, env, [], [], some root⟩, false⟩) := by
  have hclose : ((Rule.sequence 0 .afterTerm).answer ⟨.endOfText, location⟩).run
      ⟨s, env, [only], [], none⟩ = (.passed [], ⟨t, env, [sequence], [], none⟩) := by
    have hintern := Build.run_intern (b := ⟨s, env, [], [], none⟩) hsequence
    have hpush : (Rule.closeSequence 0).run ⟨s, env, [only], [], none⟩ =
        ((), ⟨t, env, [sequence], [], none⟩) :=
      (Build.run_next rfl _).trans ((Build.run_next rfl _).trans (Build.run_next hintern _))
    exact Build.run_next hpush _
  have hend : (Rule.programEnd.answer ⟨.endOfText, location⟩).run
      ⟨t, env, [sequence], [], none⟩ = (.taken .punctuation [], ⟨u, env, [], [], some root⟩) := by
    have hfolded := Build.run_foldNode_of_gives (b := ⟨t, env, [], [], none⟩) hfold
    have hintern := Build.run_intern (b := ⟨t, env, [], [], none⟩) hprog
    refine (Build.run_next rfl _).trans ((Build.run_next hfolded _).trans ?_)
    exact (Build.run_next rfl _).trans (Build.run_next hintern _)
  rw [feed_waiting (by simp) rfl]
  exact (offer_passed (b := ⟨s, env, [only], [], none⟩) rfl).trans
    ((offer_passed hclose).trans (offer_taken hend))

/-- The end of a lambda with one parameter and one term, whose body is folded to itself. -/
theorem Parser.feed_lambdaEnd {s t u v : Store} {env : Environment} {param : String}
    {name only body list lambda : NodeId} (waiting : List NodeId) (rules : List Rule)
    {start : Coord} {location : Location}
    (hbody : s.intern (.branch .exprs [only]) (s.joinedCoord? [only]) = (body, t))
    (hfold : Fold.Gives t (fold env body) body t)
    (hname : t.node? name = some (.leaf .ident param))
    (hlist : t.intern (.branch .list [name]) none = (list, u))
    (hlambda : u.intern (.branch .lambda [list, body]) (some (start.upTo location.coord)) =
      (lambda, v)) :
    feed ⟨.operator [] :: .sequence waiting.length .afterTerm :: .lambdaBody [param] start :: rules,
        ⟨s, env, only :: waiting, [], none⟩, false⟩ ⟨.closeAngle, location⟩ =
      (.punctuation, ⟨rules, ⟨v, env.exit, lambda :: waiting, [], none⟩, false⟩) := by
  have hsplit : (Build.split waiting.length).run ⟨s, env, only :: waiting, [], none⟩ =
      ([only], ⟨s, env, waiting, [], none⟩) := by
    have hcount : (only :: waiting).length - waiting.length = 1 := Nat.add_sub_cancel_left _ 1
    show (((only :: waiting).take ((only :: waiting).length - waiting.length)).reverse,
      (⟨s, env, (only :: waiting).drop ((only :: waiting).length - waiting.length), [], none⟩ :
        Builder)) = _
    rw [hcount]
    rfl
  have hclose : ((Rule.sequence waiting.length .afterTerm).answer ⟨.closeAngle, location⟩).run
      ⟨s, env, only :: waiting, [], none⟩ = (.passed [], ⟨t, env, body :: waiting, [], none⟩) := by
    have hintern := Build.run_intern (b := ⟨s, env, waiting, [], none⟩) hbody
    have hpush : (Rule.closeSequence waiting.length).run ⟨s, env, only :: waiting, [], none⟩ =
        ((), ⟨t, env, body :: waiting, [], none⟩) :=
      (Build.run_next hsplit _).trans ((Build.run_next rfl _).trans (Build.run_next hintern _))
    exact Build.run_next hpush _
  have hend : ((Rule.lambdaBody [param] start).answer ⟨.closeAngle, location⟩).run
      ⟨t, env, body :: waiting, [], none⟩ =
        (.taken .punctuation [], ⟨v, env.exit, lambda :: waiting, [], none⟩) := by
    have hfolded := Build.run_foldNode_of_gives (b := ⟨t, env, waiting, [], none⟩) hfold
    have hexit : Build.exit.run ⟨t, env, waiting, [], none⟩ =
        ((), ⟨t, env.exit, waiting, [], none⟩) := rfl
    have hparams : (Rule.internParams [param]).run ⟨t, env.exit, waiting, [], none⟩ =
        ([name], ⟨t, env.exit, waiting, [], none⟩) :=
      Build.run_next (Build.run_intern (Store.intern_of_node? hname none)) _
    have hrow := Build.run_intern (b := ⟨t, env.exit, waiting, [], none⟩) hlist
    have hpush : (Build.pushNode (.branch .lambda [list, body])
        (some (start.upTo location.coord))).run ⟨u, env.exit, waiting, [], none⟩ =
          ((), ⟨v, env.exit, lambda :: waiting, [], none⟩) :=
      Build.run_next (Build.run_intern (b := ⟨u, env.exit, waiting, [], none⟩) hlambda) _
    refine (Build.run_next rfl _).trans ((Build.run_next hfolded _).trans ?_)
    refine (Build.run_next hexit _).trans ((Build.run_next hparams _).trans ?_)
    exact (Build.run_next hrow _).trans (Build.run_next hpush _)
  rw [feed_waiting (by simp) rfl]
  exact (offer_passed (b := ⟨s, env, only :: waiting, [], none⟩) rfl).trans
    ((offer_passed hclose).trans (offer_taken hend))

/-! ## A definition that reads its own name -/

namespace SelfNamed

theorem fresh_leaf : Store.empty.index[Node.leaf .ident "x"]? = none := by simp [Store.empty]

/-- The name, at the first token that reads it. -/
def leaf (place : Coord) : Store :=
  .push .empty (.leaf .ident "x") (some place) fresh_leaf

/-- A sequence of the name alone. -/
def body (place : Coord) : Store :=
  (leaf place).push (.branch .exprs [⟨1⟩]) (some place)
    (by simp [leaf, Store.empty, Store.push, Node.branch, Node.leaf])

/-- The whole program. -/
def prog (place : Coord) : Store :=
  (body place).push (.branch .prog [⟨2⟩]) (some place)
    (by simp [body, leaf, Store.empty, Store.push, Node.branch, Node.leaf])

theorem intern_leaf (place : Coord) :
    Store.empty.intern (.leaf .ident "x") (some place) = (⟨1⟩, leaf place) :=
  Store.intern_of_fresh _ _

theorem intern_body (place : Coord) :
    (leaf place).intern (.branch .exprs [⟨1⟩]) (some place) = (⟨2⟩, body place) :=
  Store.intern_of_fresh _ _

theorem intern_prog (place : Coord) :
    (body place).intern (.branch .prog [⟨2⟩]) (some place) = (⟨3⟩, prog place) :=
  Store.intern_of_fresh _ _

/-- The scopes before the definition, in its body and after it. -/
def before : Environment := .ofLexicon .standard Runaway.defaultLimit

def inside : Environment := (before.addWord (.pending "x")).push "x" none

def after : Environment := before.addWord ⟨"x", .value ⟨1⟩, 0⟩

/-- Rules that wait in the sequence of the program, before there are nodes. -/
def begun (rules : List Rule) (env : Environment) : Parser :=
  ⟨rules ++ [.sequence 0 .afterTerm, .programEnd], ⟨.empty, env, [], [], none⟩, false⟩

/-- Rules that wait in the sequence of the program, with a node. -/
def holding (rules : List Rule) (top : NodeId × Store) (env : Environment) : Parser :=
  ⟨rules ++ [.sequence 0 .afterTerm, .programEnd], ⟨top.2, env, [top.1], [], none⟩, false⟩

/-- What is left after the end of the program. -/
def complete (top : NodeId × Store) (env : Environment) : Builder :=
  ⟨top.2, env, [], [], some top.1⟩

variable (l : Location) (place : Coord)

open Juxta.Parser (feed_of_within offer_passed offer_taken offer_of_within feed_waiting)

theorem feed_let : (Parser.start .standard Runaway.defaultLimit).feed ⟨.keyword .letWord, l⟩ =
    (.keyword, begun [.letName] before) :=
  feed_of_within (by decide) rfl 4 rfl

theorem feed_name : (begun [.letName] before).feed ⟨.identifier "x", l⟩ =
    (.definition, begun [.letParams "x" []] inside) :=
  feed_of_within (by decide) rfl 1 rfl

theorem feed_equal : (begun [.letParams "x" []] inside).feed ⟨.equal, l⟩ =
    (.punctuation, begun [.sequence 0 .start, .letBody "x" []] inside) :=
  feed_of_within (by decide) rfl 1 rfl

/-- The name is found in its own body. -/
theorem feed_body : (begun [.sequence 0 .start, .letBody "x" []] inside).feed
      ⟨.identifier "x", l⟩ =
    (.function, holding [.operator [], .sequence 0 .afterTerm, .letBody "x" []]
      (⟨1⟩, leaf l.coord) inside) := by
  rw [← intern_leaf]
  exact feed_of_within (by decide) rfl 6 rfl

theorem feed_dot : (holding [.operator [], .sequence 0 .afterTerm, .letBody "x" []]
      (⟨1⟩, leaf place) inside).feed ⟨.dot, l⟩ =
    (.punctuation, holding [.sequence 0 .afterDot, .letBody "x" []] (⟨1⟩, leaf place) inside) :=
  feed_of_within (by decide) rfl 2 rfl

theorem feed_secondDot : (holding [.sequence 0 .afterDot, .letBody "x" []]
      (⟨1⟩, leaf place) inside).feed ⟨.dot, l⟩ =
    (.punctuation, holding [.letBody "x" []] (⟨2⟩, body place) inside) := by
  rw [← intern_body]
  exact feed_of_within (by decide) rfl 1 rfl

/-- The name stands for itself. -/
theorem feed_use : (holding [.letBody "x" []] (⟨2⟩, body place) inside).feed
      ⟨.identifier "x", l⟩ =
    (.value, holding [.operator []] (⟨1⟩, body place) after) := by
  have hfold := Build.run_foldNode_of_gives (b := ⟨body place, inside, [], [], none⟩)
    (gives_fold_alone ⟨2⟩ rfl rfl)
  have hbody : ((Rule.letBody "x" []).answer ⟨.identifier "x", l⟩).run
      ⟨body place, inside, [⟨2⟩], [], none⟩ = (.passed [], ⟨body place, after, [], [], none⟩) :=
    (Build.run_next rfl _).trans ((Build.run_next hfold _).trans rfl)
  rw [feed_waiting (by simp) rfl]
  exact (offer_passed hbody).trans (offer_of_within 6 rfl)

theorem feed_end : (holding [.operator []] (⟨1⟩, body place) after).feed ⟨.endOfText, l⟩ =
    (.punctuation, ⟨[], complete (⟨3⟩, prog place) after, false⟩) := by
  have hfold : Fold.Gives (body place) (fold after ⟨2⟩) ⟨2⟩ (body place) :=
    gives_fold_alone _ rfl rfl
  exact Parser.feed_end (Store.intern_of_node? rfl _) hfold (intern_prog place) l

theorem drain_eq : ∃ scan place,
    (((Session.start .standard).push "let x = x.. x").close).drain.2 =
      ⟨scan, ⟨[], complete (⟨3⟩, prog place) after, false⟩, [], Snapshot.currentVersion⟩ := by
  have hlet := Session.drain_of_feed
    (s := ((Session.start .standard).push "let x = x.. x").close) rfl rfl (feed_let _)
  have hname := hlet.trans (Session.drain_of_feed rfl rfl (feed_name _))
  have hequal := hname.trans (Session.drain_of_feed rfl rfl (feed_equal _))
  have hbody := hequal.trans (Session.drain_of_feed rfl rfl (feed_body _))
  have hdot := hbody.trans (Session.drain_of_feed rfl rfl (feed_dot _ _))
  have hdots := hdot.trans (Session.drain_of_feed rfl rfl (feed_secondDot _ _))
  have huse := hdots.trans (Session.drain_of_feed rfl rfl (feed_use _ _))
  have hend := huse.trans (Session.drain_of_feed rfl rfl (feed_end _ _))
  exact ⟨_, _, hend.trans (Session.drain_of_isDone rfl)⟩

end SelfNamed

/-- A program without errors that is not closed. -/
theorem Program.free_selfNamed :
    (ofText .standard "let x = x.. x").hasErrors = false ∧
      ∃ root, (ofText .standard "let x = x.. x").root? = some root ∧
        (ofText .standard "let x = x.. x").store.Free "x" root := by
  obtain ⟨scan, place, hdrain⟩ := SelfNamed.drain_eq
  unfold ofText
  rw [hdrain]
  refine ⟨rfl, ⟨3⟩, rfl, ?_⟩
  have hleaf : (SelfNamed.prog place).Free "x" ⟨1⟩ := .ident rfl rfl rfl
  have hbody : (SelfNamed.prog place).Free "x" ⟨2⟩ :=
    .child rfl (show Tag.exprs ≠ .lambda by decide) List.mem_cons_self hleaf
  exact .child rfl (show Tag.prog ≠ .lambda by decide) List.mem_cons_self hbody

/-! ## A lambda -/

namespace Identity

open SelfNamed (leaf body intern_leaf intern_body before complete)

/-- The parameters, the lambda, a sequence of it alone, and the whole program. -/
def params (place : Coord) : Store :=
  (body place).push (.branch .list [⟨1⟩]) none
    (by simp [leaf, body, Store.empty, Store.push, Node.branch, Node.leaf])

def lambda (place around : Coord) : Store :=
  (params place).push (.branch .lambda [⟨3⟩, ⟨2⟩]) (some around)
    (by simp [leaf, body, params, Store.empty, Store.push, Node.branch, Node.leaf])

def sequence (place around : Coord) : Store :=
  (lambda place around).push (.branch .exprs [⟨4⟩]) (some around)
    (by simp [leaf, body, params, lambda, Store.empty, Store.push, Node.branch, Node.leaf])

def prog (place around : Coord) : Store :=
  (sequence place around).push (.branch .prog [⟨5⟩]) (some around)
    (by simp [leaf, body, params, lambda, sequence, Store.empty, Store.push, Node.branch,
      Node.leaf])

theorem intern_params (place : Coord) :
    (body place).intern (.branch .list [⟨1⟩]) none = (⟨3⟩, params place) :=
  Store.intern_of_fresh _ _

theorem intern_lambda (place around : Coord) :
    (params place).intern (.branch .lambda [⟨3⟩, ⟨2⟩]) (some around) =
      (⟨4⟩, lambda place around) := Store.intern_of_fresh _ _

theorem intern_sequence (place around : Coord) :
    (lambda place around).intern (.branch .exprs [⟨4⟩]) (some around) =
      (⟨5⟩, sequence place around) := Store.intern_of_fresh _ _

theorem intern_prog (place around : Coord) :
    (sequence place around).intern (.branch .prog [⟨5⟩]) (some around) =
      (⟨6⟩, prog place around) := Store.intern_of_fresh _ _

/-- The scopes in the lambda. -/
def inside : Environment := (before.push "lambda" none).addWord (.value "x" .absent 0)

def begun (rules : List Rule) (env : Environment) : Parser :=
  ⟨rules ++ [.operator [], .sequence 0 .afterTerm, .programEnd], ⟨.empty, env, [], [], none⟩, false⟩

def holding (rules : List Rule) (top : NodeId × Store) (env : Environment) : Parser :=
  ⟨rules ++ [.operator [], .sequence 0 .afterTerm, .programEnd],
    ⟨top.2, env, [top.1], [], none⟩, false⟩

variable (l : Location) (place around start : Coord)

open Juxta.Parser (feed_of_within)

theorem feed_open : (Parser.start .standard Runaway.defaultLimit).feed ⟨.openAngle, l⟩ =
    (.punctuation, begun [.lambdaParams [] l.coord] (before.push "lambda" none)) :=
  feed_of_within (by decide) rfl 7 rfl

theorem feed_param : (begun [.lambdaParams [] start] (before.push "lambda" none)).feed
      ⟨.identifier "x", l⟩ = (.parameter, begun [.lambdaParams ["x"] start] inside) :=
  feed_of_within (by decide) rfl 1 rfl

theorem feed_colon : (begun [.lambdaParams ["x"] start] inside).feed ⟨.colon, l⟩ =
    (.punctuation, begun [.sequence 0 .start, .lambdaBody ["x"] start] inside) :=
  feed_of_within (by decide) rfl 1 rfl

theorem feed_body : (begun [.sequence 0 .start, .lambdaBody ["x"] start] inside).feed
      ⟨.identifier "x", l⟩ =
    (.parameter, holding [.operator [], .sequence 0 .afterTerm, .lambdaBody ["x"] start]
      (⟨1⟩, leaf l.coord) inside) := by
  rw [← intern_leaf]
  exact feed_of_within (by decide) rfl 6 rfl

theorem feed_close : (holding [.operator [], .sequence 0 .afterTerm, .lambdaBody ["x"] start]
      (⟨1⟩, leaf place) inside).feed ⟨.closeAngle, l⟩ =
    (.punctuation, holding [] (⟨4⟩, lambda place (start.upTo l.coord)) before) := by
  have hfold : Fold.Gives (body place) (fold inside ⟨2⟩) ⟨2⟩ (body place) :=
    gives_fold_alone _ rfl rfl
  exact Parser.feed_lambdaEnd [] [.operator [], .sequence 0 .afterTerm, .programEnd]
    (intern_body place) hfold rfl (intern_params place) (intern_lambda place _)

/-- A sequence of one term. -/
theorem gives_sequence {s t : Store} {env : Environment} {id folded : NodeId} {bound : Nat}
    (h : Fold.Gives s (Descent.term ⟨env, bound + 1, foldSequence env (foldEntered fold env) bound,
      foldEntered fold env⟩ .head (fun _ => pure ([], 0)) id) (folded, 0) t) :
    Fold.Gives s (foldSequence env (foldEntered fold env) (bound + 1) [id]) [folded] t := by
  unfold foldSequence
  exact Fold.Gives.bind (a := ([folded], 1)) (h.bind (Fold.gives_pure t _)) (Fold.gives_pure t _)

/-- The name stands for itself in the lambda. -/
theorem gives_name {s : Store} {id : NodeId} (hname : s.node? id = some (.leaf .ident "x"))
    {bound : Nat} (hid : id.index ≤ bound) :
    Fold.Gives s (foldSequence inside (foldEntered fold inside) (bound + 1) [id]) [id] s := by
  refine gives_sequence ?_
  unfold Descent.term
  refine (Fold.gives_get s).bind ?_
  rw [hname]
  dsimp only
  rw [if_neg (Nat.not_le_of_lt (Nat.lt_succ_of_le hid))]
  exact Fold.gives_pure s _

/-- The lambda is folded to itself. -/
theorem gives_lambda {s : Store} (hname : s.node? ⟨1⟩ = some (.leaf .ident "x"))
    (hbody : s.node? ⟨2⟩ = some (.branch .exprs [⟨1⟩]))
    (hlist : s.node? ⟨3⟩ = some (.branch .list [⟨1⟩]))
    (hlambda : s.node? ⟨4⟩ = some (.branch .lambda [⟨3⟩, ⟨2⟩])) :
    Fold.Gives s (foldSequence before (foldEntered fold before) 5 [⟨4⟩]) [⟨4⟩] s := by
  have hparams : s.params ⟨4⟩ = ["x"] :=
    Store.params_eq hlambda hlist (List.Forall₂.cons hname .nil)
  have hfolded : Fold.Gives s (foldEntered fold before "lambda" none (bindParams 0 ["x"] []) ⟨2⟩)
      ⟨2⟩ s := gives_fold_alone _ hbody (gives_name hname (Nat.le_refl 1))
  have hbuilt := Fold.gives_rebuild_stored hlambda ⟨4⟩
  have hdone : ∀ below, Fold.Gives s (Descent.lambda ⟨before, 5, below, foldEntered fold before⟩
      ⟨4⟩ (.branch .lambda [⟨3⟩, ⟨2⟩])) ⟨4⟩ s := by
    intro below
    unfold Descent.lambda
    refine (Fold.gives_get s).bind ?_
    rw [hparams]
    exact hfolded.bind hbuilt
  refine gives_sequence ?_
  unfold Descent.term
  refine (Fold.gives_get s).bind ?_
  rw [hlambda]
  refine (hdone _).bind ?_
  unfold Descent.applyFollowing
  exact (Fold.gives_get s).bind ((Fold.gives_pure s _).bind (Fold.gives_pure s _))

theorem feed_end : (holding [] (⟨4⟩, lambda place around) before).feed ⟨.endOfText, l⟩ =
    (.punctuation, ⟨[], complete (⟨6⟩, prog place around) before, false⟩) :=
  Parser.feed_end (intern_sequence place around)
    (gives_fold_alone _ rfl (gives_lambda rfl rfl rfl rfl)) (intern_prog place around) l

theorem drain_eq : ∃ scan place around,
    (((Session.start .standard).push "<x: x>").close).drain.2 =
        ⟨scan, ⟨[], complete (⟨6⟩, prog place around) before, false⟩, [], Snapshot.currentVersion⟩ ∧
      ∀ name, ¬ (((Session.start .standard).push "<x: x>").close).ReadsEarly name := by
  have hopen := Session.runs_of_feed
    (s := ((Session.start .standard).push "<x: x>").close) rfl rfl (feed_open _) nofun
  have hparam := hopen.trans (Session.runs_of_feed rfl rfl (feed_param _ _) nofun)
  have hcolon := hparam.trans (Session.runs_of_feed rfl rfl (feed_colon _ _) nofun)
  have hbody := hcolon.trans (Session.runs_of_feed rfl rfl (feed_body _ _) nofun)
  have hclose := hbody.trans (Session.runs_of_feed rfl rfl (feed_close _ _ _) nofun)
  have hend := hclose.trans (Session.runs_of_feed rfl rfl (feed_end _ _ _) nofun)
  refine ⟨_, _, _, hend.drain.trans (Session.drain_of_isDone rfl), fun name hreads => ?_⟩
  exact Session.not_readsEarly_of_isDone rfl name (hend.reads name hreads)

end Identity

namespace Program

/-- The program is read to its end, and nothing is wrong with it. -/
theorem ofText_identity : ∃ place around, ofText .standard "<x: x>" =
    ⟨Identity.prog place around, some ⟨6⟩, [], [], Snapshot.currentVersion⟩ := by
  obtain ⟨scan, place, around, hdrain, -⟩ := Identity.drain_eq
  refine ⟨place, around, ?_⟩
  unfold ofText
  rw [hdrain]
  rfl

/-- The name in the body is the parameter. -/
theorem closed_identity :
    Lexicon.standard.Operational ∧ (ofText .standard "<x: x>").hasErrors = false ∧
      (∀ name, ¬ (((Session.start .standard).push "<x: x>").close).ReadsEarly name) ∧
      ∃ root, (ofText .standard "<x: x>").root? = some root ∧
        ∀ name, ¬ (ofText .standard "<x: x>").store.Free name root := by
  obtain ⟨-, -, -, -, hearly⟩ := Identity.drain_eq
  have hclean : (ofText .standard "<x: x>").hasErrors = false := by
    obtain ⟨place, around, hprogram⟩ := ofText_identity
    rw [hprogram]
    rfl
  exact ⟨Lexicon.operational_standard, hclean, hearly,
    @closed_of_no_errors .standard Lexicon.operational_standard _ hclean hearly⟩

end Program

end Juxta
