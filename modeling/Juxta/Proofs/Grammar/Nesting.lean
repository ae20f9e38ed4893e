import Juxta.Proofs.Grammar.Steps

/-!
# What rules do to levels

Rules that wait fit the levels of a builder, and they still do after the next of them has answered a
token. A body is folded where its level ends, so that its names are parameters of levels around it.
The one exception is a name that is read in the body of its own definition: it stands for nothing
yet, and nothing takes its place later if the definition has no parameters.

* `Rule.Nested` : rules that fit what has been built;
* `Rule.Leads`, `Rule.LeadsFrom` : steps to an answer after which the rules fit; one lemma
  `leads_…` for every rule;
* `Rule.ReadsEarly` : names that are read in the bodies of their own definitions;
* `Rule.leads_answer` : all rules.
-/

namespace Juxta

open Level (height NamesIn)

/-- Rules that fit what has been built. If none is left then the root has no names but those that
are left over. -/
def Rule.Nested (early : String → Prop) (rules : List Rule) (b : Builder) : Prop :=
  (∃ levels, Fits rules levels ∧ b.Backed early levels) ∨
    rules = [] ∧ ∀ root, b.root = some root → b.store.Scoped (LeftOver early b.errors) root

/-- An answer after which the rules that wait fit what has been built. -/
def Answer.Nests (early : String → Prop) (rest : List Rule) (b : Builder) : Answer → Prop
  | .taken _ more | .passed more => Rule.Nested early (more ++ rest) b
  | .refused _ => True

namespace Rule

open Build

variable {early : String → Prop} {l : Layout} {s : Store} {token : Token} {rest : List Rule}
  {cells below : List Cell}

/-- A step from a builder to an answer after which the rules fit. -/
def LeadsFrom (early : String → Prop) (b : Builder) (rest : List Rule) (step : Build Answer) :
    Prop := (step.run b).1.Nests early rest (step.run b).2

/-- A step from cells that wait to an answer after which the rules fit. -/
def Leads (early : String → Prop) (l : Layout) (s : Store) (cells : List Cell) (rest : List Rule)
    (step : Build Answer) : Prop :=
  ∀ b : Builder, s.Extends b.store → l.Holds early cells b → LeadsFrom early b rest step

/-- One step with its result. -/
theorem LeadsFrom.bind {α : Type} {b c : Builder} {step : Build α} {a : α}
    {next : α → Build Answer} (h : step.run b = (a, c)) (k : LeadsFrom early c rest (next a)) :
    LeadsFrom early b rest (step >>= next) := by
  unfold LeadsFrom
  rw [run_next h]
  exact k

theorem Leads.bind {α : Type} {after : List Cell} {step : Build α} {next : α → Build Answer}
    {P : Store → α → Prop} (h : Turns early l s cells after step P)
    (k : ∀ t a, s.Extends t → P t a → Leads early l t after rest (next a)) :
    Leads early l s cells rest (step >>= next) := by
  intro b hs hb
  obtain ⟨hmid, he, hP⟩ := h b hs hb
  exact k _ (step.run b).1 (hs.trans he) hP (step.run b).2 (.refl _) hmid

theorem leads_taken {as : TokenClass} {more : List Rule}
    (h : Fits (more ++ rest) (l.levels cells)) :
    Leads early l s cells rest (pure (.taken as more)) :=
  fun _ _ hb => .inl ⟨_, h, hb.builder⟩

theorem leads_passed {more : List Rule} (h : Fits (more ++ rest) (l.levels cells)) :
    Leads early l s cells rest (pure (.passed more)) :=
  fun _ _ hb => .inl ⟨_, h, hb.builder⟩

theorem leads_refused (error : SyntaxError) :
    Leads early l s cells rest (pure (.refused error)) := fun _ _ _ => trivial

/-- A rule with its cells. -/
theorem fits_holds {rule : Rule} (own below : List Cell)
    (h : rule.Holds (height (l.levels below)) own)
    (hrest : Fits rest (l.levels (rule.leaves :: below))) :
    Fits (rule :: rest) (l.levels (own ++ below)) := .holds h hrest

theorem fits_sequence (hrest : Fits rest (l.levels (.term :: below))) (stage : SequenceStage)
    (count : Nat) : Fits (.sequence (height (l.levels below)) stage :: rest)
      (l.levels (List.replicate count .term ++ below)) :=
  .holds ⟨rfl, count, rfl⟩ hrest

/-- A sequence that begins. -/
theorem turns_opened : Turns early l s cells cells opened
    fun _ rule => rule = .sequence (height (l.levels cells)) .start :=
  .bind turns_height fun _ _ _ hbase => .pure fun _ _ => hbase ▸ rfl

/-- A token after which a sequence begins. -/
theorem leads_opened {as : TokenClass} {others : List Rule}
    (h : Fits (others ++ rest) (l.levels (.term :: cells))) :
    Leads early l s cells rest (do return .taken as ((← opened) :: others)) :=
  .bind turns_opened fun _ _ _ hrule => hrule ▸ leads_taken (fits_sequence h .start 0)

/-- Terms in order. -/
theorem scoped_of_terms {names : String → Prop} {ids : List NodeId} {count : Nat}
    (h : List.Forall₂ (fun id cell => Cell.Suits s names id cell) ids
      (List.replicate count .term).reverse) : ∀ id ∈ ids, s.Scoped names id := by
  rw [List.reverse_replicate] at h
  induction count generalizing ids with
  | zero =>
    cases h
    exact List.forall_mem_nil _
  | succ count ih =>
    cases h with
    | cons hid hrest => exact List.forall_mem_cons.2 ⟨hid, ih hrest⟩

/-- A token that makes one node of the terms above a height. -/
theorem leads_closed {tag : Tag} (hr : tag.role = .terms)
    (hrest : Fits rest (l.levels (.term :: below))) (count : Nat) (coord : Option Coord)
    (as : TokenClass) :
    Leads early l s (List.replicate count .term ++ below) rest (do
      pushBranch tag (← split (height (l.levels below))) coord
      return .taken as []) :=
  .bind (turns_split _ below) fun _ _ _ hids =>
    .bind (turns_pushTerms hr (scoped_of_terms hids) coord) fun _ _ _ _ => leads_taken hrest

/-! ## Sequences and definitions -/

theorem turns_closeSequence (count : Nat) :
    Turns early l s (List.replicate count .term ++ below) (.term :: below)
      (closeSequence (height (l.levels below))) Whatever :=
  .bind (turns_split _ below) fun _ _ _ hids => turns_pushTerms rfl (scoped_of_terms hids) none

theorem leads_sequence (hrest : Fits rest (l.levels (.term :: below))) (count : Nat)
    (stage : SequenceStage) :
    Leads early l s (List.replicate count .term ++ below) rest
      (answerSequence (height (l.levels below)) stage token) := by
  unfold answerSequence
  split
  · split
    · exact leads_taken (fits_sequence hrest .afterDot count)
    · exact .bind (turns_closeSequence count) fun _ _ _ _ => leads_taken hrest
  · split
    · exact .bind (turns_closeSequence count) fun _ _ _ _ => leads_passed hrest
    · exact leads_passed (.expression (fits_sequence hrest .afterTerm (count + 1))
        (fits_sequence hrest .afterTerm count))

/-! ## Cases and conditionals -/

theorem leads_conditional (hrest : Fits rest (l.levels (.term :: cells))) :
    Leads early l s cells rest (answerConditional token) := by
  unfold answerConditional
  split
  · refine .bind turns_height fun _ _ _ hbase => hbase ▸ leads_opened ?_
    exact fits_holds [.term] cells ⟨rfl, 0, rfl⟩ hrest
  · refine .bind turns_height fun _ _ _ hbase => hbase ▸ leads_opened ?_
    exact fits_holds [.term] cells ⟨rfl, rfl⟩ hrest
  · exact leads_passed (fits_holds [] cells rfl hrest)

theorem fits_clauses (hrest : Fits rest (l.levels (.term :: below))) (start : Coord)
    (count : Nat) : Fits (.clauses (height (l.levels below)) start :: rest)
      (l.levels ((List.replicate count .clause ++ [.term]) ++ below)) :=
  .holds ⟨rfl, count, rfl⟩ hrest

/-- A scrutinee and clauses in order. -/
theorem case_of_clauses {names : String → Prop} {ids : List NodeId} {count : Nat}
    (h : List.Forall₂ (fun id cell => Cell.Suits s names id cell) ids
      (List.replicate count Cell.clause ++ [Cell.term]).reverse) :
    ∃ scrutinee clauses, ids = scrutinee :: clauses ∧ s.Scoped names scrutinee ∧
      (∀ clause ∈ clauses, s.Scoped names clause) ∧
      ∀ clause ∈ clauses, s.tag? clause = some .clause := by
  rw [List.reverse_append, List.reverse_replicate] at h
  obtain ⟨scrutinee, clauses, hscrutinee, hclauses, rfl⟩ := List.forall₂_cons_right_iff.1 h
  refine ⟨scrutinee, clauses, rfl, hscrutinee, ?_⟩
  clear h hscrutinee
  induction count generalizing clauses with
  | zero =>
    cases hclauses
    exact ⟨List.forall_mem_nil _, List.forall_mem_nil _⟩
  | succ count ih =>
    cases hclauses with
    | cons hclause hrest =>
      obtain ⟨hscoped, htags⟩ := ih _ hrest
      exact ⟨List.forall_mem_cons.2 ⟨hclause.1, hscoped⟩,
        List.forall_mem_cons.2 ⟨hclause.2, htags⟩⟩

theorem leads_clauses (hrest : Fits rest (l.levels (.term :: below))) (count : Nat)
    (start : Coord) :
    Leads early l s ((List.replicate count .clause ++ [.term]) ++ below) rest
      (answerClauses (height (l.levels below)) start token) := by
  unfold answerClauses
  split
  · refine leads_taken (fits_holds [] _ rfl (fits_holds [.term] _ rfl ?_))
    exact fits_clauses hrest start (count + 1)
  · refine .bind (turns_split _ below) fun t ids _ hids => ?_
    obtain ⟨scrutinee, clauses, rfl, hscrutinee, hclauses, htags⟩ := case_of_clauses hids
    refine .bind (turns_pushBranch .term fun u id hu hn => ?_) fun _ _ _ _ =>
      leads_taken hrest
    exact .case hn (hscrutinee.extend hu) (fun clause hm => (hclauses clause hm).extend hu)
      fun clause hm => hu.tag?_of_some (htags clause hm)
  · exact leads_refused _

theorem leads_clauseColon (hrest : Fits rest (l.levels (.clause :: below))) :
    Leads early l s (.term :: below) rest (answerClauseColon token) := by
  unfold answerClauseColon
  split
  · exact leads_opened (fits_holds [.term, .term] below rfl hrest)
  · exact leads_refused _

theorem leads_clauseBody (hrest : Fits rest (l.levels (.clause :: below))) :
    Leads early l s (.term :: .term :: below) rest answerClauseBody := by
  unfold answerClauseBody
  refine .bind turns_pop fun t body _ hbody => .bind turns_pop fun u pattern hu hpattern => ?_
  refine .bind (turns_pushBranch .clause fun v id hv hn => ⟨?_, ?_⟩) fun _ _ _ _ =>
    leads_passed hrest
  · exact .clause hn (Store.Scoped.extend hpattern hv) (Store.Scoped.extend hbody (hu.trans hv))
  · unfold Store.tag?
    rw [hn]
    rfl

/-- A condition with one branch or with two. -/
theorem leads_closeIf (hrest : Fits rest (l.levels (.term :: below))) (start : Coord)
    {count : Nat} (hcount : count = 2 ∨ count = 3) :
    Leads early l s (List.replicate count .term ++ below) rest
      (closeIf (height (l.levels below)) start token) := by
  unfold closeIf
  refine .bind (turns_split _ below) fun t parts _ hparts => ?_
  have hscoped := scoped_of_terms hparts
  have hlength : parts.length = count := by
    rw [hparts.length_eq, List.length_reverse, List.length_replicate]
  have pushed : ∀ condition yes no, t.Scoped (l.names early) condition →
      t.Scoped (l.names early) yes → (no.isAbsent = false → t.Scoped (l.names early) no) →
      Turns early l t below (.term :: below)
        (pushBranch .ifThen [condition, yes, no] (some (start.upTo token.location.coord)))
        Whatever :=
    fun condition yes no hc hy hno => turns_pushBranch .term fun u id hu hn =>
      .choice hn (hc.extend hu) (fun _ => hy.extend hu) fun hp => (hno hp).extend hu
  rcases hcount with rfl | rfl
  · obtain ⟨condition, yes, rfl⟩ := List.length_eq_two.1 hlength
    obtain ⟨hcondition, hyes⟩ := List.forall_mem_cons.1 hscoped
    exact .bind (pushed condition yes .absent hcondition (List.forall_mem_singleton.1 hyes) nofun)
      fun _ _ _ _ => leads_taken hrest
  · obtain ⟨condition, yes, no, rfl⟩ := List.length_eq_three.1 hlength
    obtain ⟨hcondition, hbranches⟩ := List.forall_mem_cons.1 hscoped
    obtain ⟨hyes, hno⟩ := List.forall_mem_cons.1 hbranches
    exact .bind (pushed condition yes no hcondition hyes fun _ => List.forall_mem_singleton.1 hno)
      fun _ _ _ _ => leads_taken hrest

theorem leads_ifCondition (hrest : Fits rest (l.levels (.term :: below))) (start : Coord) :
    Leads early l s ([.term] ++ below) rest
      (answerIfCondition (height (l.levels below)) start token) := by
  unfold answerIfCondition
  split
  · exact leads_opened (fits_holds [.term, .term] below ⟨rfl, rfl⟩ hrest)
  · exact leads_refused _

theorem leads_ifBranch (hrest : Fits rest (l.levels (.term :: below))) (start : Coord) :
    Leads early l s ([.term, .term] ++ below) rest
      (answerIfBranch (height (l.levels below)) start token) := by
  unfold answerIfBranch
  split
  · exact leads_opened (fits_holds [.term, .term, .term] below ⟨rfl, rfl⟩ hrest)
  · exact leads_closeIf hrest start (.inl rfl)
  · exact leads_refused _

theorem leads_elseBranch (hrest : Fits rest (l.levels (.term :: below))) (start : Coord) :
    Leads early l s ([.term, .term, .term] ++ below) rest
      (answerElseBranch (height (l.levels below)) start token) := by
  unfold answerElseBranch
  split
  · exact leads_closeIf hrest start (.inr rfl)
  · exact leads_refused _

/-! ## Operations -/

theorem role_binOp (op : BinOp) : op.tag.role = .terms := by cases op <;> rfl

theorem turns_reduce (op : BinOp) :
    Turns early l s (.term :: .term :: below) (.term :: below) (reduce op) Whatever := by
  unfold reduce
  refine .bind turns_pop fun t right _ hright => .bind turns_pop fun u left hu hleft => ?_
  refine .bind turns_get fun v _ hv _ => ?_
  have hboth : ∀ operand ∈ [left, right], v.Scoped (l.names early) operand :=
    List.forall_mem_cons.2 ⟨Store.Scoped.extend hleft hv,
      List.forall_mem_singleton.2 (Store.Scoped.extend hright (hu.trans hv))⟩
  split
  · exact turns_pushConcat hboth _
  · exact turns_pushTerms (role_binOp op) hboth _

/-- The operands of some operators: one more than there are operators. -/
abbrev operands (waiting : List BinOp) : List Cell := List.replicate (waiting.length + 1) .term

/-- Operators are reduced with their operands. None is left if all of them bind tight enough. -/
theorem holds_reduceAll (least : Nat) (waiting : List BinOp) {b : Builder}
    (hb : l.Holds early (operands waiting ++ below) b) :
    l.Holds early (operands ((reduceAll least waiting).run b).1 ++ below)
        ((reduceAll least waiting).run b).2 ∧
      b.store.Extends ((reduceAll least waiting).run b).2.store ∧
      (least = 0 → ((reduceAll least waiting).run b).1 = []) := by
  induction waiting generalizing b with
  | nil => exact ⟨hb, .refl _, fun _ => rfl⟩
  | cons op waiting ih =>
    unfold reduceAll
    split
    · rename_i hlt
      exact ⟨hb, .refl _, fun hzero => absurd (hzero ▸ hlt) (Nat.not_lt_zero _)⟩
    · obtain ⟨hmid, he, -⟩ := turns_reduce op b (.refl _) hb
      obtain ⟨hend, he', hzero⟩ := ih hmid
      exact ⟨hend, he.trans he', hzero⟩

theorem fits_operand (hrest : Fits rest (l.levels (.term :: below))) (waiting : List BinOp) :
    Fits (.operand waiting :: rest) (l.levels (List.replicate waiting.length .term ++ below)) :=
  .holds rfl hrest

theorem fits_operator (hrest : Fits rest (l.levels (.term :: below))) (waiting : List BinOp) :
    Fits (.operator waiting :: rest) (l.levels (operands waiting ++ below)) :=
  .holds rfl hrest

theorem leads_operator (hrest : Fits rest (l.levels (.term :: below))) (waiting : List BinOp) :
    Leads early l s (operands waiting ++ below) rest (answerOperator waiting token) := by
  intro b hs hb
  unfold answerOperator
  split
  · rename_i op _
    obtain ⟨hend, -, -⟩ := holds_reduceAll op.precedence waiting hb
    exact .inl ⟨_, fits_operand hrest (op :: _), hend.builder⟩
  · obtain ⟨hend, -, hnone⟩ := holds_reduceAll 0 waiting hb
    rw [hnone rfl] at hend
    exact .inl ⟨_, hrest, hend.builder⟩

theorem leads_operand (hrest : Fits rest (l.levels (.term :: below))) (waiting : List BinOp) :
    Leads early l s (List.replicate waiting.length .term ++ below) rest
      ((Rule.operand waiting).answer token) :=
  leads_passed (fits_holds [] _ rfl (fits_operator hrest waiting))

theorem leads_unary (hrest : Fits rest (l.levels (.term :: cells))) (pattern : Bool) :
    Leads early l s cells rest (answerUnary pattern token) := by
  unfold answerUnary
  split
  · exact leads_taken (fits_holds [] cells rfl (fits_holds [.term] cells rfl hrest))
  · exact leads_passed (fits_holds [] cells rfl hrest)

theorem leads_negation (hrest : Fits rest (l.levels (.term :: below))) (start : Coord) :
    Leads early l s (.term :: below) rest (answerNegation start) := by
  unfold answerNegation
  refine .bind turns_pop fun t operand _ hoperand => .bind turns_get fun u _ hu _ => ?_
  refine .bind (turns_pushTerms rfl (List.forall_mem_singleton.2 ?_) _) fun _ _ _ _ =>
    leads_passed hrest
  exact Store.Scoped.extend hoperand hu

/-! ## Primaries -/

theorem leads_interpolation (hrest : Fits rest (l.levels (.term :: below))) (count : Nat)
    (start : Coord) :
    Leads early l s (List.replicate count .term ++ below) rest
      (answerInterpolation (height (l.levels below)) start token) := by
  unfold answerInterpolation
  split
  · refine .bind (turns_pushScalar .term rfl rfl nofun) fun _ _ _ _ => leads_opened ?_
    exact fits_holds (List.replicate (count + 2) .term) below ⟨rfl, count + 2, rfl⟩ hrest
  · refine .bind (turns_pushScalar .term rfl rfl nofun) fun _ _ _ _ => ?_
    refine .bind (turns_split (List.replicate (count + 1) .term) below) fun _ _ _ hids => ?_
    exact .bind (turns_pushConcat (scoped_of_terms hids) _) fun _ _ _ _ => leads_taken hrest
  · exact leads_refused _

theorem leads_recordKey (hrest : Fits rest (l.levels (.term :: below))) (count : Nat)
    (start : Coord) :
    Leads early l s (List.replicate count .term ++ below) rest
      (answerRecordKey (height (l.levels below)) start token) := by
  have hcolon : Fits (.recordColon (height (l.levels below)) start :: rest)
      (l.levels ((.key :: List.replicate count .term) ++ below)) :=
    .holds ⟨rfl, count, rfl⟩ hrest
  unfold answerRecordKey
  split
  · exact leads_closed rfl hrest count _ _
  · exact .bind (turns_pushScalar .key rfl rfl nofun) fun _ _ _ _ => leads_taken hcolon
  · exact .bind (turns_pushScalar .key rfl rfl nofun) fun _ _ _ _ => leads_taken hcolon
  · exact leads_refused _

theorem leads_recordColon (hrest : Fits rest (l.levels (.term :: below))) (count : Nat)
    (start : Coord) :
    Leads early l s ((.key :: List.replicate count .term) ++ below) rest
      (answerRecordColon (height (l.levels below)) start token) := by
  unfold answerRecordColon
  split
  · exact leads_opened (fits_holds (.term :: .key :: List.replicate count .term) below
      ⟨rfl, count, rfl⟩ hrest)
  · exact leads_refused _

theorem leads_recordValue (hrest : Fits rest (l.levels (.term :: below))) (count : Nat)
    (start : Coord) :
    Leads early l s ((.term :: .key :: List.replicate count .term) ++ below) rest
      (answerRecordValue (height (l.levels below)) start token) := by
  have hkey : Fits (.recordKey (height (l.levels below)) start :: rest)
      (l.levels (List.replicate (count + 1) .term ++ below)) :=
    .holds ⟨rfl, count + 1, rfl⟩ hrest
  unfold answerRecordValue
  refine .bind turns_pop fun t value _ hvalue => .bind turns_pop fun u key hu hkey' => ?_
  refine .bind (turns_pushBranch .term fun v id hv hn => ?_) fun _ _ _ _ => ?_
  · exact .binding hn (Store.Scoped.extend hkey' hv) (Store.Scoped.extend hvalue (hu.trans hv))
  · split
    · exact leads_taken hkey
    · exact leads_passed hkey

theorem leads_list (hrest : Fits rest (l.levels (.term :: below))) (count : Nat) (pattern : Bool)
    (start : Coord) :
    Leads early l s (List.replicate count .term ++ below) rest
      (answerList (height (l.levels below)) pattern start token) := by
  have hlist : ∀ count, Fits (.list (height (l.levels below)) pattern start :: rest)
      (l.levels (List.replicate count .term ++ below)) :=
    fun count => .holds ⟨rfl, count, rfl⟩ hrest
  unfold answerList
  split
  · exact leads_closed rfl hrest count _ _
  · exact leads_taken (hlist count)
  · refine leads_passed ?_
    cases pattern with
    | true => exact fits_holds [] _ rfl (hlist (count + 1))
    | false => exact .expression (hlist (count + 1)) (hlist count)

theorem leads_paren (hrest : Fits rest (l.levels (.term :: below))) (start : Coord) :
    Leads early l s (.term :: below) rest (answerParen start token) := by
  unfold answerParen
  split
  · refine .bind turns_pop fun t inner _ hinner => ?_
    refine .bind (turns_pushBranch .term fun u id hu hn => ?_) fun _ _ _ _ => leads_taken hrest
    exact .paren hn (Store.Scoped.extend hinner hu)
  · exact leads_refused _

/-! ## Scopes -/

/-- A scope is opened, or there are too many of them. -/
theorem run_enter (name : String) (b : Builder) :
    (∃ cause, (Build.enter name).run b = (.error cause, b)) ∨
      (Build.enter name).run b = (.ok (), { b with env := b.env.push name none }) := by
  unfold Build.enter
  rw [StateT.run_modifyGet]
  unfold Environment.enter
  by_cases hfull : b.env.limit ≤ b.env.depth
  · rw [if_pos hfull]
    exact .inl ⟨_, rfl⟩
  · rw [if_neg hfull]
    exact .inr rfl

section

variable {level : Level} {outer : List Level} {b : Builder}

/-- The layout of a builder. -/
theorem LeadsFrom.of_leads {step : Build Answer} (hb : b.Backed early (level :: outer))
    (h : Leads early ⟨level.name?, level.params, outer, b.env, b.errors⟩ b.store level.cells rest
      step) : LeadsFrom early b rest step := h b (.refl _) ⟨rfl, rfl, hb⟩

theorem leads_letName (hrest : Fits rest (level :: outer)) (hb : b.Backed early (level :: outer)) :
    LeadsFrom early b rest (answerLetName token) := by
  unfold answerLetName
  split
  · rename_i name _
    refine .bind (a := ()) (c := { b with env := b.env.addWord (.pending name) }) rfl ?_
    have hbegun := Juxta.Backed.begin hb name
    rcases run_enter name { b with env := b.env.addWord (.pending name) } with ⟨cause, h⟩ | h
    · exact .bind h trivial
    · exact .bind h (.inl ⟨_, .letParams hrest, hbegun.enter name⟩)
  · exact trivial

theorem leads_letParams (hrest : Fits rest (level :: outer)) (name : String)
    (params : List String) (hb : b.Backed early (⟨some name, params, []⟩ :: level :: outer)) :
    LeadsFrom early b rest (answerLetParams name params token) := by
  unfold answerLetParams
  split
  · rename_i param _
    exact .inl ⟨_, .letParams hrest, Juxta.Backed.addParam hb param params.length⟩
  · exact .of_leads hb (leads_opened (.letBody hrest))
  · exact trivial

theorem leads_lambdaParams
    (hrest : Fits rest ({ level with cells := .term :: level.cells } :: outer))
    (params : List String) (start : Coord)
    (hb : b.Backed early (⟨none, params, []⟩ :: level :: outer)) :
    LeadsFrom early b rest (answerLambdaParams params start token) := by
  unfold answerLambdaParams
  split
  · rename_i param _
    exact .inl ⟨_, .lambdaParams hrest, Juxta.Backed.addParam hb param params.length⟩
  · exact .of_leads hb (leads_opened (.lambdaBody hrest))
  · exact trivial

/-- What waits alone in a level is folded. -/
theorem exists_folded (hb : l.Holds early [.term] b) :
    ∃ body c, pop.run b = (body, c) ∧
      ((∃ cause d, (foldNode body).run c = (.error cause, d)) ∨
        ∃ folded store, (foldNode body).run c = (.ok folded, { c with store }) ∧
          store.Scoped (NamesIn (LeftOver early l.errors) (l.levels [])) folded ∧
          l.Holds early [] { c with store }) := by
  obtain ⟨hpopped, -, hbody⟩ := turns_pop b (.refl _) hb
  refine ⟨_, _, rfl, ?_⟩
  rcases run_foldNode hpopped hbody with hfailed | ⟨folded, store, hrun, he, hfolded⟩
  · exact .inl hfailed
  · exact .inr ⟨folded, store, hrun, hfolded, hpopped.env, hpopped.errors,
      hpopped.backed.mono he fun _ => id⟩

/-- The body of a level is folded, and its scope is left. -/
theorem exists_body {name? : Option String} {params : List String}
    (hb : b.Backed early (⟨name?, params, [.term]⟩ :: level :: outer)) :
    ∃ body c, pop.run b = (body, c) ∧
      ((∃ cause d, (foldNode body).run c = (.error cause, d)) ∨
        ∃ folded store, (foldNode body).run c = (.ok folded, { c with store }) ∧
          store.Scoped (NamesIn (LeftOver early b.errors) (⟨name?, params, []⟩ :: level :: outer))
            folded ∧
          c.errors = b.errors ∧ c.env = b.env ∧
          Juxta.Backed store (LeftOver early b.errors) name? (level :: outer) b.env.exit.scopes
            c.nodes) := by
  obtain ⟨body, c, hpop, hfold⟩ := exists_folded
    (l := ⟨name?, params, level :: outer, b.env, b.errors⟩) ⟨rfl, rfl, hb⟩
  refine ⟨body, c, hpop, hfold.imp_right fun ⟨folded, store, hrun, hfolded, hleft⟩ => ?_⟩
  exact ⟨folded, store, hrun, hfolded, hleft.errors, hleft.env, hleft.backed.exit⟩

theorem leads_letBody (hrest : Fits rest (level :: outer)) (name : String) (params : List String)
    (hb : b.Backed early (⟨some name, params, [.term]⟩ :: level :: outer)) :
    LeadsFrom early b rest (answerLetBody name params token) := by
  unfold answerLetBody
  obtain ⟨body, c, hpop, ⟨cause, d, hfold⟩ |
    ⟨folded, store, hfold, hfolded, herrors, henv, hleft⟩⟩ := exists_body hb
  · exact .bind hpop (.bind hfold trivial)
  · refine .bind hpop (.bind hfold (.inl ⟨_, hrest, ?_⟩))
    show Juxta.Backed store (LeftOver early c.errors) none _ (c.env.exit.define _ name _).scopes _
    rw [herrors, henv]
    refine hleft.define ?_ ?_
    · split
      · rename_i hempty
        refine ⟨fun ha => absurd (hfolded.unwrap.isAbsent.symm.trans ha) nofun, fun _ => ?_⟩
        refine hfolded.unwrap.mono fun other hother => ?_
        refine ((Level.namesIn_cons ..).1 hother).resolve_left fun hin => ?_
        unfold Level.names at hin
        rw [if_pos hempty] at hin
        cases hin
      · refine ⟨rfl, hfolded.mono fun other hother => ?_⟩
        rcases (Level.namesIn_cons ..).1 hother with hin | hin
        · exact .inr (Level.names_subset _ _ _ hin)
        · exact .inl hin
    · split <;> nofun

theorem turns_internParams (params : List String) :
    Turns early l s cells cells (internParams params) fun t ids => t.Idents ids params := by
  induction params generalizing s with
  | nil => exact .pure fun _ _ => List.Forall₂.nil
  | cons param rest ih =>
    refine .bind (turns_intern _ _) fun t id _ hid => .bind ih fun u ids hu hids => ?_
    exact .pure fun v hv => List.Forall₂.cons ((hu.trans hv).node?_of_some hid) (hids.extend hv)

theorem leads_lambdaBody (hrest : Fits rest ({ level with cells := .term :: level.cells } :: outer))
    (params : List String) (start : Coord)
    (hb : b.Backed early (⟨none, params, [.term]⟩ :: level :: outer)) :
    LeadsFrom early b rest (answerLambdaBody params start token) := by
  unfold answerLambdaBody
  split
  · obtain ⟨body, c, hpop, ⟨cause, d, hfold⟩ |
      ⟨folded, store, hfold, hfolded, herrors, henv, hleft⟩⟩ := exists_body hb
    · exact .bind hpop (.bind hfold trivial)
    · refine .bind hpop (.bind hfold (.bind (a := ()) rfl ?_))
      have hleft' : Builder.Backed early (level :: outer)
          { c with store, env := c.env.exit } := by
        show Juxta.Backed store (LeftOver early c.errors) none _ c.env.exit.scopes _
        rw [herrors, henv]
        exact hleft
      refine .of_leads hleft' ?_
      refine .bind (turns_internParams params) fun t ids ht hids => ?_
      refine .bind (turns_intern _ _) fun u list hu hlist => ?_
      refine .bind (turns_pushNode .term fun v id hv hn => ?_) fun _ _ _ _ => leads_taken hrest
      refine .lambda hn ?_
      rw [Store.params_eq hn (hv.node?_of_some hlist) (hids.extend (hu.trans hv))]
      refine (hfolded.extend (ht.trans (hu.trans hv))).mono fun name hname => ?_
      rcases (Level.namesIn_cons ..).1 hname with hin | hin
      · exact .inr (Level.names_subset _ _ _ hin)
      · exact .inl (.inl (herrors ▸ hin))
  · exact trivial

/-! ## Names -/

/-- Whether a name is a wildcard. -/
abbrev IsWildcard (pattern : Bool) (name : String) : Prop := (pattern && name == "_") = true

/-- Names that are read in the body of their own definition, one without parameters. -/
structure ReadsEarly (token : Token) (pattern : Bool) (levels : List Level) (env : Environment)
    (name : String) : Prop where
  token : token.kind = .identifier name
  notWildcard : ¬ IsWildcard pattern name
  pending : ∃ word number, env.find? name = some (word, number) ∧ word.kind = .pending
  params : Level.paramsOf? name levels = some []

/-- A leaf for a name that may be used. -/
theorem turns_pushIdent {name : String} (hname : l.names early name) (coord : Coord) :
    Turns early l s cells (.term :: cells) (pushLeaf .ident name coord) Whatever :=
  turns_pushNode .term fun _ _ _ hn => .ident hn hname

/-- A name that has a word. -/
theorem turns_readName {name : String} {word : Word} {number : Nat} {pattern : Bool}
    (hw : ¬ IsWildcard pattern name) (hf : l.env.find? name = some (word, number))
    (hvalue : ∀ id, word.kind = .value id → id.isAbsent = false → s.Scoped (l.names early) id)
    (hname : (∀ id, word.kind = .value id → id.isAbsent = true) → l.names early name)
    (location : Location) :
    Turns early l s cells (.term :: cells) (readName name pattern location) Whatever := by
  have left : ∀ (t : Store) (as : TokenClass), (∀ id, word.kind = .value id → id.isAbsent = true) →
      Turns early l t cells (.term :: cells) (do
        pushLeaf .ident name location.coord
        return as) Whatever := fun t as hno =>
    .bind (turns_pushIdent (hname hno) _) fun _ _ _ _ => .pure fun _ _ => trivial
  unfold readName
  rw [if_neg hw]
  refine .bind turns_get fun t c ht henv => ?_
  rw [henv, hf]
  obtain ⟨_, kind, offset⟩ := word
  cases kind with
  | value id =>
    have hpresent : id.isPresent = !id.isAbsent := rfl
    dsimp only
    rw [hpresent]
    cases habsent : id.isAbsent with
    | false =>
      have hpush : Turns early l t cells (.term :: cells) (push id) Whatever :=
        turns_push ((hvalue id rfl habsent).extend ht)
      exact .bind hpush fun _ _ _ _ => .pure fun _ _ => trivial
    | true =>
      refine left t _ fun other hother => ?_
      cases hother
      exact habsent
  | pending => exact left t _ nofun
  | function params body scope => exact left t _ nofun
  | builtin tag arity => exact left t _ nofun

/-- A name that has no word is reported. -/
theorem leads_unknownName
    (hrest : Fits rest ({ level with cells := .term :: level.cells } :: outer)) {name : String}
    (hb : b.Backed early (level :: outer)) {pattern : Bool} (hw : ¬ IsWildcard pattern name)
    (hf : b.env.find? name = none) (location : Location) :
    LeadsFrom early b rest (do return .taken (← readName name pattern location) []) := by
  have hreported : Builder.Backed early (level :: outer)
      { b with errors := b.errors ++ [.unknownName name location] } :=
    Backed.mono hb (.refl _) fun _ => Or.imp_right fun ⟨location, hm⟩ =>
      ⟨location, List.mem_append_left _ hm⟩
  unfold readName
  rw [if_neg hw, bind_assoc]
  refine .bind (a := b) (c := b) rfl ?_
  rw [hf]
  dsimp only
  rw [bind_assoc]
  refine .bind (a := ()) rfl (.of_leads hreported ?_)
  rw [bind_assoc]
  refine .bind (turns_pushIdent ?_ _) fun _ _ _ _ => leads_taken hrest
  exact .inl (.inl (.inr ⟨location, List.mem_append_right _ List.mem_cons_self⟩))

/-- What may be read for a name. -/
theorem leads_readName
    (hrest : Fits rest ({ level with cells := .term :: level.cells } :: outer)) {name : String}
    (hb : b.Backed early (level :: outer)) {pattern : Bool}
    (hearly : ¬ IsWildcard pattern name →
      (∃ word number, b.env.find? name = some (word, number) ∧ word.kind = .pending) →
        Level.paramsOf? name (level :: outer) = some [] → early name)
    (location : Location) :
    LeadsFrom early b rest (do return .taken (← readName name pattern location) []) := by
  by_cases hw : IsWildcard pattern name
  · unfold readName
    rw [if_pos hw, bind_assoc]
    exact .of_leads hb (.bind (turns_pushScalar .term rfl rfl nofun) fun _ _ _ _ =>
      leads_taken hrest)
  cases hf : b.env.find? name with
  | none => exact leads_unknownName hrest hb hw hf location
  | some found =>
    obtain ⟨word, number⟩ := found
    have hword := Environment.of_search (Backed.scoped hb) hf
    have shown : word.kind ≠ .pending → Environment.Shown b.env.scopes name :=
      fun hk => ⟨word, number, hf, fun hp => absurd hp hk⟩
    refine .of_leads hb (.bind (turns_readName hw hf (fun id hk ha => ?_) (fun hno => ?_) _)
      fun _ _ _ _ => leads_taken hrest)
    · rw [hk] at hword
      exact (hword.2 ha).mono fun _ => .inl
    · cases hk : word.kind with
      | value id =>
        rw [hk] at hword
        exact .inl (hword.1 (hno id hk))
      | pending =>
        obtain ⟨params, hparams, hin⟩ := (Backed.pending hb hf hk).resolve_left nofun
        cases params with
        | nil => exact .inl (.inl (.inl (hearly hw ⟨word, number, hf, hk⟩ hparams)))
        | cons param rest => exact .inl (hin (List.cons_ne_nil _ _))
      | function params body scope => exact .inr (shown (hk ▸ nofun))
      | builtin tag arity => exact .inr (shown (hk ▸ nofun))

/-- The class of a name that stands for a definition whose body is being parsed. -/
theorem answerPrimary_pending {name : String} {pattern : Bool} (hk : token.kind = .identifier name)
    (hw : ¬ IsWildcard pattern name)
    (hp : ∃ word number, b.env.find? name = some (word, number) ∧ word.kind = .pending) :
    ∃ c, (answerPrimary pattern token).run b = (.taken .function [], c) ∧ c.env = b.env := by
  obtain ⟨⟨_, kind, offset⟩, number, hf, rfl⟩ := hp
  have hread : ∃ c, (readName name pattern token.location).run b = (.function, c) ∧
      c.env = b.env := by
    unfold readName
    rw [if_neg hw, run_next (show (get : Build Builder).run b = (b, b) from rfl), hf]
    exact ⟨_, rfl, rfl⟩
  obtain ⟨c, hrun, henv⟩ := hread
  unfold answerPrimary
  rw [hk]
  exact ⟨c, run_next hrun _, henv⟩

theorem leads_primary (hrest : Fits rest ({ level with cells := .term :: level.cells } :: outer))
    (pattern : Bool) (hb : b.Backed early (level :: outer))
    (hearly : ∀ name, ReadsEarly token pattern (level :: outer) b.env name → early name) :
    LeadsFrom early b rest (answerPrimary pattern token) := by
  have node : ∀ {node : Node} {coord : Option Coord} {as : TokenClass},
      node.tag.role = .scalar → node.children = [] → LeadsFrom early b rest (do
        pushNode node coord
        return .taken as []) := fun hr hc =>
    .of_leads hb (.bind (turns_pushScalar .term hr hc nofun) fun _ _ _ _ => leads_taken hrest)
  unfold answerPrimary
  dsimp only
  split
  · exact node rfl rfl
  · exact node rfl rfl
  · refine .of_leads hb (.bind turns_height fun _ _ _ hbase => ?_)
    refine .bind (turns_pushScalar .term rfl rfl nofun) fun _ _ _ _ => hbase ▸ leads_opened ?_
    exact fits_holds (List.replicate 2 .term) level.cells ⟨rfl, 2, rfl⟩ hrest
  · exact node rfl rfl
  · exact node rfl rfl
  · exact node rfl rfl
  · refine .of_leads hb (.bind turns_height fun _ _ _ hbase => hbase ▸ leads_taken ?_)
    exact fits_holds [] level.cells ⟨rfl, 0, rfl⟩ hrest
  · refine .of_leads hb (.bind turns_height fun _ _ _ hbase => hbase ▸ leads_taken ?_)
    exact fits_holds [] level.cells ⟨rfl, 0, rfl⟩ hrest
  · exact .of_leads hb (leads_opened (fits_holds [.term] level.cells rfl hrest))
  · rcases run_enter "lambda" b with ⟨cause, h⟩ | h
    · exact .bind h trivial
    · exact .bind h (.inl ⟨_, .lambdaParams hrest, Backed.enter hb "lambda"⟩)
  · rename_i name hk
    exact leads_readName hrest hb
      (fun hw hpending hparams => hearly name ⟨hk, hw, hpending, hparams⟩) token.location
  · exact trivial

/-! ## Programs -/

theorem leads_program (hb : b.Backed early [⟨none, [], []⟩]) :
    LeadsFrom early b [] (Rule.program.answer token) :=
  .of_leads hb (.bind turns_opened fun _ _ _ hrule => hrule ▸
    leads_passed (fits_sequence .programEnd .start 0))

/-- The names that are left in the root are left over. -/
theorem leads_root (sequence : NodeId) {folded : NodeId}
    (hfolded : s.Scoped (NamesIn (LeftOver early l.errors) [⟨none, [], []⟩]) folded) :
    Leads early l s cells [] (do
      let root ← intern (.branch .prog [folded]) ((← get).store.coord? sequence)
      modify fun b => { b with root := some root }
      return .taken .punctuation []) := by
  refine .bind turns_get fun t _ ht _ => .bind (turns_intern _ _) fun u root hu hroot => ?_
  refine fun b hb hheld => .inr ⟨rfl, fun found heq => ?_⟩
  cases heq
  refine .terms (hb.node?_of_some hroot) rfl (List.forall_mem_singleton.2 ?_)
  refine (hfolded.extend (ht.trans (hu.trans hb))).mono fun name hname => ?_
  exact hheld.errors.symm ▸ hname.resolve_right nofun

/-- The end of the program. -/
theorem leads_programEnd (hb : b.Backed early [⟨none, [], [.term]⟩]) :
    LeadsFrom early b [] (answerProgramEnd token) := by
  unfold answerProgramEnd
  split
  · obtain ⟨sequence, c, hpop, ⟨cause, d, hfold⟩ | ⟨folded, store, hfold, hfolded, hleft⟩⟩ :=
      exists_folded (l := ⟨none, [], [], b.env, b.errors⟩) ⟨rfl, rfl, hb⟩
    · exact .bind hpop (.bind hfold trivial)
    · exact .bind hpop (.bind hfold (leads_root sequence hfolded _ (.refl _) hleft))
  · exact trivial

theorem leads_expression
    (hone : Fits rest ({ level with cells := .term :: level.cells } :: outer))
    (hnone : Fits rest (level :: outer)) (hb : b.Backed early (level :: outer)) :
    LeadsFrom early b rest (Rule.expression.answer token) := by
  show Answer.Nests early rest b (if _ then _ else _)
  split
  · exact .inl ⟨_, .letName hnone, hb⟩
  · exact .inl ⟨_, .holds (rfl : [] = []) hone, hb⟩

/-! ## All rules -/

/-- The rules that have to do with one level only, apart from those that read names. -/
theorem leads_holds {rule : Rule} {own : List Cell}
    (h : rule.Holds (height (l.levels below)) own) (hreads : ∀ pattern, rule ≠ .primary pattern)
    (hrest : Fits rest (l.levels (rule.leaves :: below))) :
    Leads early l s (own ++ below) rest (rule.answer token) := by
  cases rule with
  | sequence base stage =>
    obtain ⟨rfl, count, rfl⟩ := h
    exact leads_sequence hrest count stage
  | conditional =>
    obtain rfl := h
    exact leads_conditional hrest
  | clauses base start =>
    obtain ⟨rfl, count, rfl⟩ := h
    exact leads_clauses hrest count start
  | clauseColon =>
    obtain rfl := h
    exact leads_clauseColon hrest
  | clauseBody =>
    obtain rfl := h
    exact leads_clauseBody hrest
  | ifCondition base start =>
    obtain ⟨rfl, rfl⟩ := h
    exact leads_ifCondition hrest start
  | ifBranch base start =>
    obtain ⟨rfl, rfl⟩ := h
    exact leads_ifBranch hrest start
  | elseBranch base start =>
    obtain ⟨rfl, rfl⟩ := h
    exact leads_elseBranch hrest start
  | operand waiting =>
    obtain rfl := h
    exact leads_operand hrest waiting
  | operator waiting =>
    obtain rfl := h
    exact leads_operator hrest waiting
  | unary pattern =>
    obtain rfl := h
    exact leads_unary hrest pattern
  | negation start =>
    obtain rfl := h
    exact leads_negation hrest start
  | primary pattern => exact absurd rfl (hreads pattern)
  | interpolation base start =>
    obtain ⟨rfl, count, rfl⟩ := h
    exact leads_interpolation hrest count start
  | recordKey base start =>
    obtain ⟨rfl, count, rfl⟩ := h
    exact leads_recordKey hrest count start
  | recordColon base start =>
    obtain ⟨rfl, count, rfl⟩ := h
    exact leads_recordColon hrest count start
  | recordValue base start =>
    obtain ⟨rfl, count, rfl⟩ := h
    exact leads_recordValue hrest count start
  | list base pattern start =>
    obtain ⟨rfl, count, rfl⟩ := h
    exact leads_list hrest count pattern start
  | paren start =>
    obtain rfl := h
    exact leads_paren hrest start
  | _ => exact h.elim

/-- Rules that fit still fit after the next of them has answered a token, if names that are read too
early are among those that are left over. -/
theorem leads_answer {rule : Rule} {levels : List Level} (hfits : Fits (rule :: rest) levels)
    (hb : b.Backed early levels)
    (hearly : ∀ pattern, rule = .primary pattern →
      ∀ name, ReadsEarly token pattern levels b.env name → early name) :
    LeadsFrom early b rest (rule.answer token) := by
  cases hfits with
  | program => exact leads_program hb
  | programEnd => exact leads_programEnd hb
  | expression hone hnone => exact leads_expression hone hnone hb
  | letName hrest => exact leads_letName hrest hb
  | letParams hrest => exact leads_letParams hrest _ _ hb
  | letBody hrest => exact leads_letBody hrest _ _ hb
  | lambdaParams hrest => exact leads_lambdaParams hrest _ _ hb
  | lambdaBody hrest => exact leads_lambdaBody hrest _ _ hb
  | holds h hrest =>
    by_cases hreads : ∃ pattern, rule = .primary pattern
    · obtain ⟨pattern, rfl⟩ := hreads
      obtain rfl := h
      exact leads_primary hrest pattern hb (hearly pattern rfl)
    · exact .of_leads hb (leads_holds h (not_exists.1 hreads) hrest)

end

end Rule

end Juxta
