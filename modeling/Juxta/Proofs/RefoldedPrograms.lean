import Juxta.Proofs.Acceptance
import Juxta.Proofs.FormedPrograms
import Juxta.Proofs.Grammar.Frames
import Juxta.Proofs.Refolding

/-!
# What names stand for has been folded

A definition is folded before its name gets a meaning. So whatever tokens have been read, names
stand for nodes that have been folded, and folding what folding has made of any node leaves it as it
is, unless there is something left to put together.

* `WordKind.Folded`, `Environment.Folded` : names that stand for what has been folded;
* `Build.Folds` : steps that keep it so;
* `Rule.names_answer` : whatever a rule answers to a token, names stand for what has been folded;
* `Parser.Passes` : the states before and after the answers of all rules, those between two tokens
  among them (`Parser.Passes.feedAll`);
* `Parser.Folded`, `Parser.Passes.folded` : in all of them names stand for what has been folded;
* `Parser.fold_again` : folding there what has been folded there;
* `Parser.fold_ne_again` : a lambda that takes the term after it only when it is folded again.
-/

namespace Juxta

/-! ## Names -/

/-- What a name stands for is well-formed and has been folded. -/
structure WordKind.Folded (s : Store) (kind : WordKind) : Prop where
  formed : kind.Formed s
  reduced : kind.Reduced s

/-- What the names of all scopes stand for is well-formed and has been folded. -/
abbrev Environment.Folded (s : Store) (env : Environment) : Prop :=
  env.AllKinds (WordKind.Folded s)

namespace Environment.Folded

variable {s t : Store} {env : Environment}

theorem formed (h : env.Folded s) : env.Formed s := h.imp fun _ hk => hk.formed

theorem reduced (h : env.Folded s) : env.Reduced s := h.imp fun _ hk => hk.reduced

theorem extend (h : env.Folded s) (he : s.Extends t) : env.Folded t :=
  h.imp fun _ hk => ⟨hk.formed.extend he, hk.reduced.extend he⟩

/-- What names stand for is stored. -/
theorem upTo (h : env.Folded s) : env.UpTo s.size := by
  have present : ∀ {id}, s.Present id → id.UpTo s.size := fun ⟨_, hn⟩ =>
    ((s.node?_ne_none_iff _).1 (hn ▸ Option.some_ne_none _)).2
  refine h.imp fun kind hk => ?_
  cases kind with
  | value id =>
    cases habsent : id.isAbsent with
    | true =>
      have hzero : id.index = 0 := eq_of_beq habsent
      show id.index ≤ s.size
      omega
    | false => exact present (hk.formed habsent)
  | pending => trivial
  | function params body scope => exact present hk.formed
  | builtin tag arity => trivial

end Environment.Folded

/-! ## Steps of building -/

namespace Build

variable {α β : Type} {s : Store} {waiting before after : List Known}

/-- A step that changes what waits, and after which names stand for what has been folded if they did
before. -/
def Folds (s : Store) (before after : List Known) (step : Build α) (post : Store → α → Prop) :
    Prop :=
  ∀ b : Builder, s.Extends b.store → b.Formed before → b.env.Folded b.store →
    b.store.Extends (step.run b).2.store ∧ (step.run b).2.Formed after ∧
      (step.run b).2.env.Folded (step.run b).2.store ∧ post (step.run b).2.store (step.run b).1

/-- A step that leaves the scopes alone. -/
theorem Lays.folds {step : Build α} {post : Store → α → Prop} (h : Lays s before after step post)
    (hf : Frames step) : Folds s before after step post := by
  intro b hs hb henv
  obtain ⟨he, hend, hpost⟩ := h b hs hb
  obtain ⟨hsame, -⟩ := hf b
  exact ⟨he, hend, hsame ▸ henv.extend he, hpost⟩

theorem folds_addWord {word : Word} (hw : word.kind.Folded s) :
    Folds s waiting waiting (addWord word) Whatever := by
  intro b hs hb henv
  obtain ⟨he, hend, -⟩ := lays_addWord hw.formed b hs hb
  exact ⟨he, hend, henv.addWord ⟨hw.formed.extend hs, hw.reduced.extend hs⟩, trivial⟩

theorem folds_enter (name : String) : Folds s waiting waiting (enter name) Whatever := by
  intro b hs hb henv
  obtain ⟨he, hend, -⟩ := lays_enter name b hs hb
  refine ⟨he, hend, ?_, trivial⟩
  unfold enter
  rw [StateT.run_modifyGet]
  split
  · rename_i entered hentered
    exact henv.enter hentered
  · exact henv

theorem folds_exit : Folds s waiting waiting exit Whatever := by
  intro b hs hb henv
  obtain ⟨he, hend, -⟩ := lays_exit b hs hb
  exact ⟨he, hend, henv.exit, trivial⟩

/-- Folding fails, or its result is reduced. -/
theorem folds_foldNode {id : NodeId} (hid : s.Present id) :
    Folds s waiting waiting (foldNode id) fun t result =>
      ∀ folded, result = .ok folded → s.Replaces id t folded ∧ t.Reduced folded := by
  intro b hs hb henv
  obtain ⟨he, hend, hpost⟩ := lays_foldNode hid b hs hb
  obtain ⟨-, -, hreduced⟩ :=
    reduces_fold henv.formed henv.reduced (hid.extend hs) b.store (.refl _) hb.store
  exact ⟨he, hend, henv.extend he, fun folded hfolded =>
    ⟨hpost folded hfolded, hreduced folded hfolded⟩⟩

end Build

/-! ## Answers -/

namespace Rule

open Build

variable {s : Store} {token : Token} {rest : List Rule} {waiting : List Known}

/-- A step to an answer, after which names stand for what has been folded. -/
def Names (s : Store) (waiting : List Known) (step : Build Answer) : Prop :=
  ∀ b : Builder, s.Extends b.store → b.Formed waiting → b.env.Folded b.store →
    (step.run b).2.env.Folded (step.run b).2.store

theorem Names.bind {α : Type} {after : List Known} {step : Build α} {next : α → Build Answer}
    {P : Store → α → Prop} (h : Folds s waiting after step P)
    (k : ∀ t a, s.Extends t → P t a → Names t after (next a)) :
    Names s waiting (step >>= next) := by
  intro b hs hb henv
  obtain ⟨he, hmid, hfolded, hP⟩ := h b hs hb henv
  exact k _ (step.run b).1 (hs.trans he) hP (step.run b).2 (.refl _) hmid hfolded

theorem names_of_frames {step : Build Answer} (h : Frames step) : Names s waiting step := by
  intro b _ _ henv
  obtain ⟨hsame, he⟩ := h b
  exact hsame ▸ henv.extend he

theorem names_pure (answer : Answer) : Names s waiting (pure answer) :=
  names_of_frames (frames_pure answer)

theorem names_letName : Names s waiting (answerLetName token) := by
  unfold answerLetName
  split
  · rename_i name _
    refine .bind (folds_addWord ⟨trivial, trivial⟩) fun _ _ _ _ => ?_
    refine .bind (folds_enter name) fun _ result _ _ => ?_
    cases result <;> exact names_pure _
  · exact names_pure _

/-- Parameters stand for themselves. -/
theorem folds_addParam (param : String) (offset : Nat) :
    Folds s waiting waiting (addWord (.value param .absent offset)) Whatever :=
  folds_addWord ⟨nofun, nofun⟩

theorem names_letParams (name : String) (params : List String) :
    Names s waiting (answerLetParams name params token) := by
  unfold answerLetParams
  split
  · exact .bind (folds_addParam _ _) fun _ _ _ _ => names_pure _
  · exact names_of_frames (frames_begins _ _)
  · exact names_pure _

theorem names_letBody (name : String) (params : List String) (only : Known) :
    Names s (only :: waiting) (answerLetBody name params token) := by
  unfold answerLetBody
  refine .bind (lays_pop.folds frames_pop) fun t body _ hbody => ?_
  refine .bind (folds_foldNode (Known.Of.present hbody)) fun u result _ hfolded => ?_
  refine .bind folds_exit fun v _ hv _ => ?_
  cases result with
  | error cause => exact names_pure _
  | ok folded =>
    obtain ⟨hreplaces, hreduced⟩ := hfolded folded rfl
    intro b hs hb henv
    have he := hv.trans hs
    refine henv.define ?_ _ _
    split
    · exact ⟨fun _ => (hreplaces.present.extend he).unwrap hb.store,
        fun _ => (hreduced.extend he).unwrap⟩
    · exact ⟨hreplaces.present.extend he, trivial⟩

theorem names_primary (pattern : Bool) : Names s waiting (answerPrimary pattern token) := by
  by_cases hangle : token.kind = .openAngle
  · unfold answerPrimary
    rw [hangle]
    refine .bind (folds_enter "lambda") fun _ result _ _ => ?_
    cases result <;> exact names_pure _
  · exact names_of_frames (frames_primary pattern hangle)

theorem names_lambdaParams (params : List String) (start : Coord) :
    Names s waiting (answerLambdaParams params start token) := by
  unfold answerLambdaParams
  split
  · exact .bind (folds_addParam _ _) fun _ _ _ _ => names_pure _
  · exact names_of_frames (frames_begins _ _)
  · exact names_pure _

theorem names_lambdaBody (params : List String) (start : Coord) (only : Known) :
    Names s (only :: waiting) (answerLambdaBody params start token) := by
  unfold answerLambdaBody
  split
  · refine .bind (lays_pop.folds frames_pop) fun t body _ hbody => ?_
    refine .bind (folds_foldNode (Known.Of.present hbody)) fun u result _ _ => ?_
    refine .bind folds_exit fun v _ _ _ => ?_
    cases result with
    | error cause => exact names_pure _
    | ok folded =>
      exact names_of_frames (.bind (frames_internParams params) fun _ =>
        .bind (frames_intern _ _) fun _ => .bind (frames_pushNode _ _) fun _ => frames_pure _)
  · exact names_pure _

theorem names_programEnd (only : Known) : Names s (only :: waiting) (answerProgramEnd token) := by
  unfold answerProgramEnd
  split
  · refine .bind (lays_pop.folds frames_pop) fun t sequence _ hsequence => ?_
    refine .bind (folds_foldNode (Known.Of.present hsequence)) fun u result _ _ => ?_
    cases result with
    | error cause => exact names_pure _
    | ok folded =>
      refine names_of_frames (.bind frames_get fun _ => .bind (frames_intern _ _) fun _ =>
        .bind (fun b => ⟨rfl, .refl _⟩) fun _ => frames_pure _)
  · exact names_pure _

/-- Whatever a rule answers, names stand for what has been folded. -/
theorem names_answer (token : Token) {rule : Rule} (h : Waits (rule :: rest) waiting) :
    Names s waiting (rule.answer token) := by
  by_cases hscopes : rule.scopes = false
  · exact names_of_frames (frames_answer token hscopes)
  · cases h with
    | expression => exact absurd rfl hscopes
    | rule own below h hrest =>
      cases rule with
      | programEnd =>
        obtain ⟨only, rfl⟩ := h
        exact names_programEnd only
      | letName => exact names_letName
      | letParams name params => exact names_letParams name params
      | letBody name params =>
        obtain ⟨only, rfl⟩ := h
        exact names_letBody name params only
      | primary pattern => exact names_primary pattern
      | lambdaParams params start => exact names_lambdaParams params start
      | lambdaBody params start =>
        obtain rfl := h
        exact names_lambdaBody params start _
      | _ => exact absurd rfl hscopes

end Rule

/-! ## Tokens -/

/-- Rules that wait for a token, and what has been built so far. -/
structure Rule.Going (rules : List Rule) (b : Builder) : Prop where
  sound : b.Sound
  root : b.root = none
  stacked : Stacked rules
  waits : ∃ waiting, Waits rules waiting ∧ b.Formed waiting

namespace Parser

variable {lexicon : Lexicon} {limit : Nat} {p : Parser}

/-- The state after an answer, where `rest` waited below the rule that gave it. -/
def answered (rest : List Rule) : Answer → Builder → Parser
  | .taken _ more, b => ⟨more ++ rest, b, false⟩
  | .passed more, b => ⟨more ++ rest, b, false⟩
  | .refused error, b => ⟨rest, { b with errors := b.errors ++ [error] }, true⟩

/-- The next rule answers a token. -/
def answer (p : Parser) (token : Token) : Parser :=
  match p.rules with
  | [] => ⟨[], p.builder, true⟩
  | rule :: rest =>
    let (answer, b) := (rule.answer token).run p.builder
    answered rest answer b

theorem answer_of_run {token : Token} {rule : Rule} {rest : List Rule} {b c : Builder}
    {halted : Bool} {result : Answer} (h : (rule.answer token).run b = (result, c)) :
    (⟨rule :: rest, b, halted⟩ : Parser).answer token = answered rest result c := by
  unfold answer
  dsimp only
  rw [h]

/-- The states before and after the answers of all rules, whatever tokens they are offered. -/
inductive Passes (lexicon : Lexicon) (limit : Nat) : Parser → Prop
  | start : Passes lexicon limit (start lexicon limit)
  | answer {p : Parser} (h : Passes lexicon limit p) (hgoing : p.halted = false) (token : Token) :
      Passes lexicon limit (p.answer token)

theorem Passes.offer {token : Token} {rules : List Rule} {b : Builder}
    (h : Passes lexicon limit ⟨rules, b, false⟩) :
    Passes lexicon limit (offer token rules b).2 := by
  have hanswer := h.answer rfl token
  fun_induction Parser.offer token rules b with
  | case1 b => exact hanswer
  | case2 b rule rest as more c hrun => rwa [answer_of_run hrun] at hanswer
  | case3 b rule rest more c hrun hlt ih =>
    rw [answer_of_run hrun] at hanswer
    exact ih hanswer (hanswer.answer rfl token)
  | case4 b rule rest error c hrun => rwa [answer_of_run hrun] at hanswer

theorem Passes.feed (h : Passes lexicon limit p) (token : Token) :
    Passes lexicon limit (p.feed token).2 := by
  unfold Parser.feed
  split
  · exact h
  · split
    · exact h
    · rename_i hgoing
      obtain ⟨rules, b, halted⟩ := p
      obtain rfl : halted = false := Bool.eq_false_iff.2 hgoing
      exact h.offer

/-- The states between two tokens are among them. -/
theorem Passes.feedAll (h : Passes lexicon limit p) (tokens : List Token) :
    Passes lexicon limit (p.feedAll tokens) := by
  induction tokens generalizing p with
  | nil => exact h
  | cons token rest ih => exact ih (h.feed token)

/-- As long as parsing has not stopped, either rules wait and there is no root, or there is a root
and no rule waits. -/
theorem Passes.going (h : Passes lexicon limit p) (hgoing : p.halted = false) :
    p.builder.Sound ∧ (p.root? = none ∧ Rule.Stacked p.rules ∨
      p.rules = [] ∧ ∃ root, p.root? = some root ∧ p.store.node? root ≠ none) := by
  induction h with
  | start => exact ⟨sound_start lexicon limit, .inl ⟨rfl, .program⟩⟩
  | @answer p h hwaiting token ih =>
    obtain ⟨hsound, ⟨hroot, hstacked⟩ | ⟨hnil, -⟩⟩ := ih hwaiting
    · obtain ⟨rules, b, halted⟩ := p
      cases rules with
      | nil => exact absurd rfl hstacked.ne_nil
      | cons rule rest =>
        cases hrun : (rule.answer token).run b with
        | mk result c =>
        obtain ⟨hc, hleaves⟩ := Rule.leaves_answer hstacked hsound hroot hrun
        rw [answer_of_run hrun] at hgoing ⊢
        cases result with
        | taken as more =>
          rcases hleaves with ⟨hnone, hmore, -⟩ | ⟨hnil, -, hset⟩
          · exact ⟨hc, .inl ⟨hnone, hmore⟩⟩
          · exact ⟨hc, .inr ⟨hnil, hset⟩⟩
        | passed more => exact ⟨hc, .inl hleaves⟩
        | refused error => cases hgoing
    · obtain ⟨rules, b, halted⟩ := p
      obtain rfl : rules = [] := hnil
      cases hgoing

/-- All nodes are well-formed, and names stand for what has been folded. Unless parsing has ended,
some rules wait. -/
structure Folded (p : Parser) : Prop where
  grounded : p.store.Grounded
  formed : p.store.Formed
  env : p.builder.env.Folded p.store
  going : p.halted = false → p.rules = [] ∨ Rule.Going p.rules p.builder

/-- One more answer. -/
theorem Folded.answer (h : p.Folded) (hgoing : p.halted = false) (token : Token) :
    (p.answer token).Folded := by
  obtain ⟨rules, b, halted⟩ := p
  rcases h.going hgoing with hnil | hgoing
  · obtain rfl : rules = [] := hnil
    exact ⟨h.grounded, h.formed, h.env, nofun⟩
  · obtain ⟨waiting, hwaits, hb⟩ := hgoing.waits
    cases rules with
    | nil => exact absurd rfl hgoing.stacked.ne_nil
    | cons rule rest =>
      obtain ⟨hstore, hmore⟩ := Rule.builds_answer hwaits b (.refl _) hb
      have hnames := Rule.names_answer token hwaits b (.refl _) hb h.env
      generalize hrun : (rule.answer token).run b = out at hstore hmore hnames
      obtain ⟨result, c⟩ := out
      obtain ⟨hc, hleaves⟩ := Rule.leaves_answer hgoing.stacked hgoing.sound hgoing.root hrun
      rw [answer_of_run hrun]
      cases result with
      | taken as more =>
        refine ⟨hc.grounded, hstore, hnames, fun _ => ?_⟩
        rcases hleaves with ⟨hnone, hstacked, -⟩ | ⟨hnil, -⟩
        · exact .inr ⟨hc, hnone, hstacked, hmore⟩
        · exact .inl hnil
      | passed more =>
        obtain ⟨hnone, hstacked⟩ := hleaves
        exact ⟨hc.grounded, hstore, hnames, fun _ => .inr ⟨hc, hnone, hstacked, hmore⟩⟩
      | refused error => exact ⟨hc.grounded, hstore, hnames, nofun⟩

/-- A lexicon whose builtin functions are operations on as many nodes as they take terms. -/
theorem folded_start (hl : lexicon.Fitting) (ho : lexicon.Operational) (limit : Nat) :
    (start lexicon limit).Folded := by
  obtain ⟨hstore, hwaits⟩ := formed_start hl limit
  refine ⟨Store.grounded_empty, hstore, ?_, fun _ => .inr ?_⟩
  · intro scope hs word hw
    obtain rfl := List.mem_singleton.1 hs
    obtain ⟨builtin, hbuiltin, rfl⟩ := List.mem_map.1 hw
    have hoperands := hl builtin hbuiltin
    refine ⟨hoperands, ho builtin hbuiltin, fun hexprs => ?_, fun hlist => ?_⟩
    · rw [hexprs] at hoperands
      cases hoperands
    · rw [hlist] at hoperands
      cases hoperands
  · exact ⟨sound_start lexicon limit, rfl, .program, hwaits rfl⟩

theorem Passes.folded (hl : lexicon.Fitting) (ho : lexicon.Operational)
    (h : Passes lexicon limit p) : p.Folded := by
  induction h with
  | start => exact folded_start hl ho limit
  | answer _ hgoing token ih => exact ih.answer hgoing token

/-! ## A conditional that is decided for a lambda -/

namespace Decided

open SelfNamed (before)
open Identity (inside)

/-- The nodes of `(if true then <x: x> end 5)` in the order in which they are stored. -/
def nodes : List Node :=
  [⟨.bool, [.flag true]⟩, .branch .exprs [⟨1⟩], .leaf .ident "x", .branch .exprs [⟨3⟩],
    .branch .list [⟨3⟩], .branch .lambda [⟨5⟩, ⟨4⟩], .branch .exprs [⟨6⟩],
    .branch .ifThen [⟨2⟩, ⟨7⟩, .absent], .leaf .num "5", .branch .exprs [⟨8⟩, ⟨9⟩],
    .branch .paren [⟨10⟩]]

/-- The next node. -/
theorem intern_node {s : Store} {count : Nat} (hs : s.nodes = nodes.take count) {node : Node}
    (hnode : nodes[count]? = some node) (coord : Option Coord) :
    ∃ t, s.intern node coord = (⟨count + 1⟩, t) ∧ t.nodes = nodes.take (count + 1) :=
  Store.intern_nth hs (by decide) hnode coord

/-- Rules that wait in the sequence of the program, and nodes that wait. -/
def holding (rules : List Rule) (s : Store) (env : Environment) (waiting : List NodeId) : Parser :=
  ⟨rules ++ [.operator [], .sequence 0 .afterTerm, .programEnd], ⟨s, env, waiting, [], none⟩, false⟩

variable (l : Location) {s t u v : Store} {id only first second list lambda : NodeId}
  (env : Environment) (waiting : List NodeId) (rules : List Rule) (c : Coord)

theorem feed_open : (start .standard Runaway.defaultLimit).feed ⟨.openParen, l⟩ =
    (.punctuation, holding [.sequence 0 .start, .paren l.coord] .empty before []) :=
  feed_of_within (by decide) rfl 7 rfl

theorem feed_if : (holding (.sequence 0 .start :: rules) s env []).feed ⟨.keyword .ifWord, l⟩ =
    (.keyword, holding
      (.sequence 0 .start :: .ifCondition 0 l.coord :: .sequence 0 .afterTerm :: rules) s env []) :=
  feed_of_within (by decide) rfl 3 rfl

theorem feed_true (h : s.intern ⟨.bool, [.flag true]⟩ (some l.coord) = (id, t)) :
    (holding (.sequence 0 .start :: rules) s env waiting).feed ⟨.keyword .trueWord, l⟩ =
      (.keyword, holding (.operator [] :: .sequence 0 .afterTerm :: rules) t env
        (id :: waiting)) := by
  obtain ⟨rfl, rfl⟩ : (s.intern _ _).1 = id ∧ (s.intern _ _).2 = t := Prod.ext_iff.1 h
  exact feed_of_within (by decide) rfl 6 rfl

theorem feed_then (h : s.intern (.branch .exprs [only]) (s.joinedCoord? [only]) = (id, t)) :
    (holding (.operator [] :: .sequence 0 .afterTerm :: .ifCondition 0 c :: rules) s env
        [only]).feed ⟨.keyword .thenWord, l⟩ =
      (.keyword, holding (.sequence 1 .start :: .ifBranch 0 c :: rules) t env [id]) := by
  obtain ⟨rfl, rfl⟩ : (s.intern _ _).1 = id ∧ (s.intern _ _).2 = t := Prod.ext_iff.1 h
  exact feed_of_within (by decide) rfl 3 rfl

theorem feed_openAngle :
    (holding (.sequence 1 .start :: rules) s before waiting).feed ⟨.openAngle, l⟩ =
      (.punctuation, holding (.lambdaParams [] l.coord :: .operator [] :: .sequence 1 .afterTerm ::
        rules) s (before.push "lambda" none) waiting) :=
  feed_of_within (by decide) rfl 6 rfl

theorem feed_param :
    (holding (.lambdaParams [] c :: rules) s (before.push "lambda" none) waiting).feed
        ⟨.identifier "x", l⟩ =
      (.parameter, holding (.lambdaParams ["x"] c :: rules) s inside waiting) :=
  feed_of_within (by decide) rfl 1 rfl

theorem feed_colon :
    (holding (.lambdaParams ["x"] c :: rules) s env [id]).feed ⟨.colon, l⟩ =
      (.punctuation, holding (.sequence 1 .start :: .lambdaBody ["x"] c :: rules) s env [id]) :=
  feed_of_within (by decide) rfl 1 rfl

theorem feed_name (h : s.intern (.leaf .ident "x") (some l.coord) = (id, t)) :
    (holding (.sequence 1 .start :: rules) s inside waiting).feed ⟨.identifier "x", l⟩ =
      (.parameter, holding (.operator [] :: .sequence 1 .afterTerm :: rules) t inside
        (id :: waiting)) := by
  obtain ⟨rfl, rfl⟩ : (s.intern _ _).1 = id ∧ (s.intern _ _).2 = t := Prod.ext_iff.1 h
  exact feed_of_within (by decide) rfl 6 rfl

theorem feed_closeAngle
    (hbody : s.intern (.branch .exprs [only]) (s.joinedCoord? [only]) = (id, t))
    (hfold : Fold.Gives t (fold inside id) id t) (hname : t.node? only = some (.leaf .ident "x"))
    (hlist : t.intern (.branch .list [only]) none = (list, u))
    (hlambda : u.intern (.branch .lambda [list, id]) (some (c.upTo l.coord)) = (lambda, v)) :
    (holding (.operator [] :: .sequence 1 .afterTerm :: .lambdaBody ["x"] c :: rules) s inside
        [only, first]).feed ⟨.closeAngle, l⟩ =
      (.punctuation, holding rules v before [lambda, first]) :=
  feed_lambdaEnd [first] _ hbody hfold hname hlist hlambda

theorem feed_end
    (hbranch : s.intern (.branch .exprs [second]) (s.joinedCoord? [second]) = (only, t))
    (h : t.intern (.branch .ifThen [first, only, .absent]) (some (c.upTo l.coord)) = (id, u)) :
    (holding (.operator [] :: .sequence 1 .afterTerm :: .ifBranch 0 c :: rules) s env
        [second, first]).feed ⟨.keyword .endWord, l⟩ = (.keyword, holding rules u env [id]) := by
  obtain ⟨rfl, rfl⟩ : (s.intern _ _).1 = only ∧ (s.intern _ _).2 = t := Prod.ext_iff.1 hbranch
  obtain ⟨rfl, rfl⟩ : (Store.intern _ _ _).1 = id ∧ (Store.intern _ _ _).2 = u := Prod.ext_iff.1 h
  exact feed_of_within (by decide) rfl 3 rfl

theorem feed_number (h : s.intern (.leaf .num "5") (some l.coord) = (id, t)) :
    (holding (.sequence 0 .afterTerm :: rules) s env waiting).feed ⟨.number "5", l⟩ =
      (.number, holding (.operator [] :: .sequence 0 .afterTerm :: rules) t env
        (id :: waiting)) := by
  obtain ⟨rfl, rfl⟩ : (s.intern _ _).1 = id ∧ (s.intern _ _).2 = t := Prod.ext_iff.1 h
  exact feed_of_within (by decide) rfl 6 rfl

theorem feed_close
    (hrow : s.intern (.branch .exprs [first, second]) (s.joinedCoord? [first, second]) = (only, t))
    (h : t.intern (.branch .paren [only]) (some (c.upTo l.coord)) = (id, u)) :
    (holding [.operator [], .sequence 0 .afterTerm, .paren c] s env [second, first]).feed
        ⟨.closeParen, l⟩ = (.punctuation, holding [] u env [id]) := by
  obtain ⟨rfl, rfl⟩ : (s.intern _ _).1 = only ∧ (s.intern _ _).2 = t := Prod.ext_iff.1 hrow
  obtain ⟨rfl, rfl⟩ : (Store.intern _ _ _).1 = id ∧ (Store.intern _ _ _).2 = u := Prod.ext_iff.1 h
  exact feed_of_within (by decide) rfl 3 rfl

/-- The tokens of `(if true then <x: x> end 5)`. -/
def tokens : List Token :=
  [.openParen, .keyword .ifWord, .keyword .trueWord, .keyword .thenWord, .openAngle,
    .identifier "x", .colon, .identifier "x", .closeAngle, .keyword .endWord, .number "5",
    .closeParen].map fun kind => ⟨kind, default⟩

/-- The parser after these tokens. -/
def parser : Parser := (start .standard Runaway.defaultLimit).feedAll tokens

theorem parser_eq : ∃ s, s.nodes = nodes ∧ parser = holding [] s before [⟨11⟩] := by
  have hempty : Store.empty.nodes = nodes.take 0 := rfl
  obtain ⟨s1, h1, hs⟩ := intern_node hempty rfl _
  obtain ⟨s2, h2, hs⟩ := intern_node hs rfl _
  obtain ⟨s3, h3, hs⟩ := intern_node hs rfl _
  obtain ⟨s4, h4, hs⟩ := intern_node hs rfl _
  have hname : s4.node? ⟨3⟩ = some (.leaf .ident "x") := Store.node?_of_nodes hs 2
  have hbody : s4.node? ⟨4⟩ = some (.branch .exprs [⟨3⟩]) := Store.node?_of_nodes hs 3
  have hfold : Fold.Gives s4 (fold inside ⟨4⟩) ⟨4⟩ s4 :=
    gives_fold_alone _ hbody (Identity.gives_name hname (Nat.le_refl 3))
  obtain ⟨s5, h5, hs⟩ := intern_node hs rfl _
  obtain ⟨s6, h6, hs⟩ := intern_node hs rfl _
  obtain ⟨s7, h7, hs⟩ := intern_node hs rfl _
  obtain ⟨s8, h8, hs⟩ := intern_node hs rfl _
  obtain ⟨s9, h9, hs⟩ := intern_node hs rfl _
  obtain ⟨s10, h10, hs⟩ := intern_node hs rfl _
  obtain ⟨s11, h11, hs⟩ := intern_node hs rfl _
  refine ⟨s11, hs, ?_⟩
  unfold parser tokens feedAll
  simp only [List.map_cons, List.map_nil, List.foldl_cons, List.foldl_nil]
  rw [feed_open, feed_if, feed_true _ _ _ _ h1, feed_then _ _ _ _ h2, feed_openAngle, feed_param,
    feed_colon, feed_name _ _ _ h3, feed_closeAngle _ _ _ h4 hfold hname h5 h6,
    feed_end _ _ _ _ h7 h8, feed_number _ _ _ _ h9, feed_close _ _ _ h10 h11]

/-! ### Folding -/

/-- A store that has these nodes. -/
def Stored (s : Store) : Prop := ∀ i node, nodes[i]? = some node → s.node? ⟨i + 1⟩ = some node

/-- Nodes beneath the first nine are among them. -/
theorem Stored.mem (h : Stored s) (hg : s.Grounded) (hid : id.index ≤ 9) {node : Node}
    (hb : s.Beneath id only) (hn : s.node? only = some node) : node ∈ nodes.take 9 := by
  have hle : only.index ≤ 9 := by
    clear hn
    induction hb with
    | root => exact hid
    | child _ hn hm ih => exact Nat.le_of_lt (Nat.lt_of_lt_of_le (hg _ _ hn _ hm) ih)
    | absent => exact Nat.zero_le 9
  obtain ⟨hpos, -⟩ := (s.node?_ne_none_iff only).1 (hn ▸ Option.some_ne_none node)
  obtain ⟨i, hi⟩ : ∃ i, only = ⟨i + 1⟩ := ⟨only.index - 1, by rw [Nat.sub_add_cancel hpos]⟩
  subst hi
  have hlt : i < nodes.length := Nat.lt_of_lt_of_le hle (by decide)
  have hnode := h i nodes[i] (List.getElem?_eq_getElem hlt)
  rw [← Option.some.inj (hnode.symm.trans hn)]
  exact List.mem_take_iff_getElem.2 ⟨i, Nat.lt_min.2 ⟨hle, hlt⟩, rfl⟩

theorem Stored.name_of_free (h : Stored s) (hg : s.Grounded) {name : String} (hf : s.Free name id)
    (hid : id.index ≤ 9) : name = "x" := by
  induction hf with
  | ident hn ht htext =>
    have hmem := h.mem hg hid .root hn
    have hall : ∀ node ∈ nodes.take 9, node.tag = .ident → node.text? = some "x" := by decide
    exact Option.some.inj (htext.symm.trans (hall _ hmem ht))
  | child hn _ hm _ ih => exact ih (Nat.le_of_lt (Nat.lt_of_lt_of_le (hg _ _ hn _ hm) hid))
  | body hn ht _ _ ih =>
    have hmem := h.mem hg hid .root hn
    have hall : ∀ node ∈ nodes.take 9, node.tag = .lambda → (node.child 1).index ≤ 9 := by decide
    exact ih (hall _ hmem ht)

theorem Stored.quiet (h : Stored s) (hg : s.Grounded) (hid : id.index ≤ 9) :
    s.Quiet before id where
  apart row node hrow hn ht := by
    have hshort : ∀ node ∈ nodes.take 9, node.tag = .exprs ∨ node.tag = .list →
        node.children.length ≤ 1 := by decide
    have := hshort node (h.mem hg hid hrow hn) ht
    match hc : node.children with
    | [] => exact .nil
    | [only] => exact List.pairwise_singleton _ _
    | _ :: _ :: _ =>
      rw [hc] at this
      exact absurd this (by simp)
  names name hfree := by
    rw [h.name_of_free hg hfree hid]
    rintro ⟨word, number, hfind, -⟩
    have hnone : before.find? "x" = none := rfl
    cases hnone.symm.trans hfind
  fields field node hb hn ht := by
    have hnone : ∀ node ∈ nodes.take 9, node.tag ≠ .binding := by decide
    exact absurd ht (hnone node (h.mem hg hid hb hn))
  patterns clause node hb hn ht := by
    have hnone : ∀ node ∈ nodes.take 9, node.tag ≠ .clause := by decide
    exact absurd ht (hnone node (h.mem hg hid hb hn))

theorem Stored.reduced_body (h : Stored s) : s.Reduced ⟨4⟩ :=
  .row (h 3 _ rfl) (.inl rfl) (List.forall_mem_singleton.2 (.name (h 2 _ rfl)))

theorem Stored.reduced_lambda (h : Stored s) : s.Reduced ⟨6⟩ := .lambda (h 5 _ rfl) h.reduced_body

theorem Stored.nested_lambda (h : Stored s) : s.NestedWithin before.room ⟨6⟩ := by
  have hname : s.NestedWithin 378 ⟨3⟩ := .other (by rw [Store.tag?_of_node? (h 2 _ rfl)]; nofun)
    fun node child hn hm => by
      cases (h 2 _ rfl).symm.trans hn
      cases hm
  have hbody : s.NestedWithin 378 ⟨4⟩ := .other (by rw [Store.tag?_of_node? (h 3 _ rfl)]; nofun)
    fun node child hn hm => by
      cases (h 3 _ rfl).symm.trans hn
      cases List.mem_singleton.1 hm
      exact hname
  exact .lambda (h 5 _ rfl) rfl hbody

theorem Stored.settled_condition (h : Stored s) (hg : s.Grounded) :
    s.Settled before before.room ⟨2⟩ := by
  have hflag : s.Reduced ⟨1⟩ := .scalar (h 0 _ rfl) rfl
  have hnested : s.NestedWithin before.room ⟨1⟩ :=
    .other (by rw [Store.tag?_of_node? (h 0 _ rfl)]; nofun) fun node child hn hm => by
      cases (h 0 _ rfl).symm.trans hn
      cases hm
  refine ⟨.row (h 1 _ rfl) (.inl rfl) (List.forall_mem_singleton.2 hflag),
    h.quiet hg (by decide), .other (by rw [Store.tag?_of_node? (h 1 _ rfl)]; nofun) ?_⟩
  intro node child hn hm
  cases (h 1 _ rfl).symm.trans hn
  cases List.mem_singleton.1 hm
  exact hnested

theorem Stored.settled_lambda (h : Stored s) (hg : s.Grounded) :
    s.Settled before before.room ⟨6⟩ := ⟨h.reduced_lambda, h.quiet hg (by decide), h.nested_lambda⟩

theorem Stored.settled_branch (h : Stored s) (hg : s.Grounded) :
    s.Settled before before.room ⟨7⟩ := by
  refine ⟨.row (h 6 _ rfl) (.inl rfl) (List.forall_mem_singleton.2 h.reduced_lambda),
    h.quiet hg (by decide), .other (by rw [Store.tag?_of_node? (h 6 _ rfl)]; nofun) ?_⟩
  intro node child hn hm
  cases (h 6 _ rfl).symm.trans hn
  cases List.mem_singleton.1 hm
  exact h.nested_lambda

/-- How the terms of a sequence are folded in the scopes of the program. -/
def descent (bound : Nat) : Descent :=
  ⟨before, bound + 1, foldSequence before (foldEntered fold before) bound, foldEntered fold before⟩

theorem leaves_descent (hg : s.Grounded) (bound : Nat) : (descent bound).Leaves s before.room :=
  Juxta.leaves_descent hg (leavesInside_foldEntered hg before) bound

/-- The condition is decided, and its branch is the lambda. -/
theorem gives_conditional (h : Stored s) (hg : s.Grounded) {bound : Nat} (hbound : 8 ≤ bound) :
    Fold.Gives s ((descent bound).single ⟨8⟩ (.branch .ifThen [⟨2⟩, ⟨7⟩, .absent])) ⟨6⟩ s := by
  have hd := leaves_descent hg bound
  have hbelow : ∀ id : NodeId, id.index < 8 → (descent bound).Below id := fun id hid =>
    Nat.succ_lt_succ (Nat.lt_of_lt_of_le hid hbound)
  have hcondition : s.unwrap ⟨2⟩ = ⟨1⟩ := by
    unfold Store.unwrap
    rw [h 1 _ rfl]
    rfl
  have htruth : s.literalTruth? ⟨1⟩ = some true := by
    unfold Store.literalTruth?
    rw [h 0 _ rfl]
    rfl
  have hbranch : s.unwrap ⟨7⟩ = ⟨6⟩ := by
    unfold Store.unwrap
    rw [h 6 _ rfl]
    rfl
  have hfolded := Descent.leaves_child hd (h.settled_condition hg) (hbelow ⟨2⟩ (by decide))
  have htaken : Fold.Gives s ((descent bound).child (if true then ⟨7⟩ else .absent)) ⟨7⟩ s :=
    Descent.leaves_child hd (h.settled_branch hg) (hbelow ⟨7⟩ (by decide))
  have hconditional := Descent.gives_conditional hfolded (hcondition ▸ htruth) rfl htaken ⟨8⟩
  rwa [hbranch] at hconditional

/-- The conditional is folded to the lambda. -/
theorem gives_choice (h : Stored s) (hg : s.Grounded) : Fold.Gives s (fold before ⟨8⟩) ⟨6⟩ s := by
  rw [fold_eq]
  exact (gives_foldSequence (h 7 _ rfl) (Nat.le_refl 8) ⟨nofun, nofun, nofun⟩
    (gives_conditional h hg (Nat.le_refl 8))).bind (Fold.gives_pure s _)

/-- The number by itself. -/
theorem gives_number (h : Stored s) (stand : Stand) {bound : Nat} (hbound : 9 ≤ bound) :
    Fold.Gives s ((descent bound).terms [⟨9⟩] stand 1 0) ([⟨9⟩], 1) s := by
  have hsingle : Fold.Gives s ((descent bound).single ⟨9⟩ (.leaf .num "5")) ⟨9⟩ s :=
    Fold.gives_pure s _
  exact (Descent.gives_term_single (h 8 _ rfl) (Nat.lt_succ_of_le hbound) ⟨nofun, nofun, nofun⟩
    hsingle).bind (Fold.gives_pure s _)

/-- The lambda that is left of the conditional does not take the number. -/
theorem gives_row (h : Stored s) (hg : s.Grounded)
    (hrow : s.intern (.branch .exprs [⟨6⟩, ⟨9⟩]) (s.coord? ⟨10⟩) = (id, t)) :
    Fold.Gives s (fold before ⟨10⟩) id t := by
  have hchoice : Fold.Gives s ((descent 9).term .head
      (fun count => (descent 9).terms [⟨9⟩] .argument count 0) ⟨8⟩) (⟨6⟩, 0) s :=
    Descent.gives_term_single (h 7 _ rfl) (show 8 < 10 by decide) ⟨nofun, nofun, nofun⟩
      (gives_conditional h hg (Nat.le_succ 8))
  have hbelow : Fold.Gives s ((descent 10).below [⟨8⟩, ⟨9⟩]) [⟨6⟩, ⟨9⟩] s := by
    refine Fold.Gives.bind (a := ([⟨6⟩, ⟨9⟩], 2)) ?_ (Fold.gives_pure s _)
    exact hchoice.bind ((gives_number h .head (Nat.le_refl 9)).bind (Fold.gives_pure s _))
  have hbuilt : Fold.Gives s (Fold.rebuild ⟨10⟩ .exprs [⟨6⟩, ⟨9⟩]) id t := by
    have hrebuilt := Fold.gives_rebuild s ⟨10⟩ .exprs [⟨6⟩, ⟨9⟩]
    rwa [hrow] at hrebuilt
  rw [fold_eq]
  exact (gives_foldSequence (h 9 _ rfl) (Nat.le_refl 10) ⟨nofun, nofun, nofun⟩
    (hbelow.bind hbuilt)).bind (Fold.gives_pure t _)

theorem Stored.params (h : Stored s) : s.params ⟨6⟩ = ["x"] :=
  Store.params_eq (h 5 _ rfl) (h 4 _ rfl) (List.Forall₂.cons (h 2 _ rfl) .nil)

/-- The body of the lambda, where the parameter stands for the number. -/
theorem gives_applied (h : Stored s)
    (hbody : s.intern (.branch .exprs [⟨9⟩]) (s.coord? ⟨4⟩) = (id, t)) :
    Fold.Gives s ((descent 11).inside "lambda" none (bindParams 0 ["x"] [⟨9⟩]) ⟨4⟩) id t := by
  have hbuilt : Fold.Gives s (Fold.rebuild ⟨4⟩ .exprs [⟨9⟩]) id t := by
    have hrebuilt := Fold.gives_rebuild s ⟨4⟩ .exprs [⟨9⟩]
    rwa [hbody] at hrebuilt
  have hnumber : s.tag? ⟨9⟩ = some .num := Store.tag?_of_node? (h 8 _ rfl)
  show Fold.Gives s (fold (before.entered "lambda" none (bindParams 0 ["x"] [⟨9⟩])) ⟨4⟩) id t
  rw [fold_eq]
  refine (gives_foldSequence (h 3 _ rfl) (Nat.le_refl 4) ⟨nofun, nofun, nofun⟩
    (Fold.Gives.bind (a := [⟨9⟩]) ?_ hbuilt)).bind (Fold.gives_pure t _)
  refine Identity.gives_sequence ?_
  unfold Descent.term
  refine (Fold.gives_get s).bind ?_
  rw [h 2 _ rfl]
  show Fold.Gives s (do
    if (← get).tag? ⟨9⟩ = some .lambda then Descent.applyFollowing _ .head _ ⟨9⟩
    else return (⟨9⟩, 0)) _ s
  refine (Fold.gives_get s).bind ?_
  rw [hnumber]
  exact Fold.gives_pure s _

/-- At the head of a sequence the lambda takes the number. -/
theorem gives_row_again (h : Stored s) (hg : s.Grounded)
    (hrow : s.node? ⟨12⟩ = some (.branch .exprs [⟨6⟩, ⟨9⟩]))
    (hbody : s.intern (.branch .exprs [⟨9⟩]) (s.coord? ⟨4⟩) = (id, t)) :
    Fold.Gives s (fold before ⟨12⟩) id t := by
  have hstored : t.node? id = some (.branch .exprs [⟨9⟩]) := by
    have hnode := s.node?_intern (.branch .exprs [⟨9⟩]) (s.coord? ⟨4⟩)
    rwa [hbody] at hnode
  have hunwrap : t.unwrap id = ⟨9⟩ := by
    unfold Store.unwrap
    rw [hstored]
    rfl
  have hexpand : Fold.Gives s ((descent 11).expand "lambda" none ["x"] ⟨4⟩ [⟨9⟩]) ⟨9⟩ t := by
    unfold Descent.expand
    refine (gives_applied h hbody).bind ((Fold.gives_get t).bind ?_)
    rw [hunwrap]
    exact Fold.gives_pure t _
  have hlambda := Descent.leaves_body (leaves_descent hg 11) (h.settled_lambda hg) (h 5 _ rfl)
    h.reduced_body
  have happly : Fold.Gives s ((descent 11).applyFollowing .head
      (fun count => (descent 11).terms [⟨9⟩] .argument count 0) ⟨6⟩) (⟨9⟩, 1) t := by
    have hlambdaBody : s.body ⟨6⟩ = ⟨4⟩ := by
      unfold Store.body
      rw [h 5 _ rfl]
      rfl
    unfold Descent.applyFollowing
    rw [if_neg (by decide)]
    refine (Fold.gives_get s).bind ?_
    rw [h.params]
    refine (gives_number h .argument (Nat.le_add_right 9 2)).bind ((Fold.gives_get s).bind ?_)
    rw [hlambdaBody]
    exact hexpand.bind (Fold.gives_pure t _)
  have hterm : Fold.Gives s ((descent 11).term .head
      (fun count => (descent 11).terms [⟨9⟩] .argument count 0) ⟨6⟩) (⟨9⟩, 1) t := by
    unfold Descent.term
    refine (Fold.gives_get s).bind ?_
    rw [h 5 _ rfl]
    exact hlambda.bind happly
  have hbelow : Fold.Gives s ((descent 12).below [⟨6⟩, ⟨9⟩]) [⟨9⟩] t := by
    refine Fold.Gives.bind (a := ([⟨9⟩], 2)) ?_ (Fold.gives_pure t _)
    exact hterm.bind ((Fold.gives_pure t _).bind (Fold.gives_pure t _))
  rw [fold_eq]
  exact (gives_foldSequence hrow (Nat.le_refl 12) ⟨nofun, nofun, nofun⟩
    (hbelow.bind (Fold.gives_rebuild_stored hstored _))).bind (Fold.gives_pure t _)

theorem passes_decided : Passes .standard Runaway.defaultLimit parser := Passes.start.feedAll tokens

theorem folded_decided : parser.Folded :=
  passes_decided.folded Lexicon.fitting_standard Lexicon.operational_standard

theorem stored_decided :
    parser.store.nodes = nodes ∧ Stored parser.store ∧ parser.builder.env = before := by
  obtain ⟨s, hs, hparser⟩ := parser_eq
  rw [hparser]
  exact ⟨hs, fun i node hnode => (Store.node?_of_nodes hs i).trans hnode, rfl⟩

end Decided

/-! ## Folding again -/

/-- Wherever a parser has come to, and whatever nodes it stores next, what folding makes of a node
is left as it is when it is folded again in the same scopes, unless there is something left to put
together in it. -/
theorem fold_again (hl : lexicon.Fitting) (ho : lexicon.Operational)
    (hp : Passes lexicon limit p) {s t : Store} (he : p.store.Extends s) (hg : s.Grounded)
    (hf : s.Formed) {id folded : NodeId} (h : Fold.Gives s (fold p.builder.env id) folded t)
    (hquiet : t.Quiet p.builder.env folded)
    (hnested : t.NestedWithin p.builder.env.room folded) :
    Fold.Gives t (fold p.builder.env folded) folded t := by
  have henv : p.builder.env.Folded s := (hp.folded hl ho).env.extend he
  exact fold_fold hg hf henv.upTo henv.formed henv.reduced h hquiet hnested

open Decided

/-- The conditional is folded to the lambda, and the lambda to itself. -/
theorem fold_again_decided :
    Passes .standard Runaway.defaultLimit parser ∧
      Fold.Gives parser.store (fold parser.builder.env ⟨8⟩) ⟨6⟩ parser.store ∧
      parser.store.Quiet parser.builder.env ⟨6⟩ ∧
      parser.store.NestedWithin parser.builder.env.room ⟨6⟩ ∧
      Fold.Gives parser.store (fold parser.builder.env ⟨6⟩) ⟨6⟩ parser.store := by
  obtain ⟨-, hstored, henv⟩ := stored_decided
  have hg := folded_decided.grounded
  have hchoice : Fold.Gives parser.store (fold parser.builder.env ⟨8⟩) ⟨6⟩ parser.store :=
    henv ▸ gives_choice hstored hg
  have hquiet : parser.store.Quiet parser.builder.env ⟨6⟩ := henv ▸ hstored.quiet hg (by decide)
  have hnested : parser.store.NestedWithin parser.builder.env.room ⟨6⟩ :=
    henv ▸ hstored.nested_lambda
  exact ⟨passes_decided, hchoice, hquiet, hnested,
    fold_again Lexicon.fitting_standard Lexicon.operational_standard passes_decided (.refl _) hg
      folded_decided.formed hchoice hquiet hnested⟩

/-- What the sequence of the conditional and the number is folded to is folded to something else
again. -/
theorem fold_ne_again :
    Passes .standard Runaway.defaultLimit parser ∧
      ∃ s t, Fold.Gives parser.store (fold parser.builder.env ⟨10⟩) ⟨12⟩ s ∧
        Fold.Gives s (fold parser.builder.env ⟨12⟩) ⟨13⟩ t := by
  obtain ⟨hnodes, hstored, henv⟩ := stored_decided
  have hg := folded_decided.grounded
  have hfresh : Node.branch .exprs [⟨6⟩, ⟨9⟩] ∉ nodes := by decide
  obtain ⟨s, hrow, hs⟩ := Store.intern_next hnodes hfresh (parser.store.coord? ⟨10⟩)
  have hfresh' : Node.branch .exprs [⟨9⟩] ∉ nodes ++ [.branch .exprs [⟨6⟩, ⟨9⟩]] := by decide
  obtain ⟨t, hbody, -⟩ := Store.intern_next hs hfresh' (s.coord? ⟨4⟩)
  have hextends : parser.store.Extends s := by
    have hinterned := parser.store.extends_intern (.branch .exprs [⟨6⟩, ⟨9⟩])
      (parser.store.coord? ⟨10⟩)
    rwa [hrow] at hinterned
  have hs' : s.Grounded := by
    have hknows : ∀ child ∈ (Node.branch .exprs [⟨6⟩, ⟨9⟩]).children, parser.store.Knows child := by
      intro child hm
      have hle : child.index ≤ nodes.length := by
        revert child
        decide
      rw [← hnodes] at hle
      simpa [Store.nodes, Store.Knows, Store.size] using hle
    have hinterned : (parser.store.intern (.branch .exprs [⟨6⟩, ⟨9⟩])
        (parser.store.coord? ⟨10⟩)).2.Grounded := hg.intern hknows
    rwa [hrow] at hinterned
  have hagain : Stored s := fun i node hnode => hextends.node?_of_some (hstored i node hnode)
  exact ⟨passes_decided, s, t, henv ▸ gives_row hstored hg hrow,
    henv ▸ gives_row_again hagain hs' (Store.node?_of_nodes hs 11) hbody⟩

end Parser

end Juxta
