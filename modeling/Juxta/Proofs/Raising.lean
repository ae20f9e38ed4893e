import Juxta.Proofs.ClosedPrograms
import Juxta.Proofs.Grammar.Prolonged
import Juxta.Proofs.Scheduling
import Juxta.Proofs.Walk.Prolonged

/-!
# Raising the limit

How many scopes may be nested is asked in two places: when a definition is expanded while a program
is parsed, and when a function is called while it is evaluated. Elsewhere the limit is not looked
at, so that a higher one changes nothing unless the lower one has been reached.

* `Evaluator.raise`, `Evaluator.prolongs_walk` : evaluation with more room;
* `compileWithin_raise` : what becomes of a snapshot;
* `limit_raised` : programs from text, and compilation.
-/

namespace Juxta

/-- A call that there is room for has the same scope when there is more room. -/
theorem Scope.call_add {parent caller scope : Scope} {name : String}
    {words : List (String × Value)} {limit : Nat}
    (h : Scope.call parent caller name words limit = .ok scope) (more : Nat) :
    Scope.call parent caller name words (limit + more) = .ok scope := by
  unfold Scope.call at h ⊢
  dsimp only at h ⊢
  split at h
  · cases h
  · rename_i hroom
    cases h
    rw [if_neg (by omega)]

namespace Evaluator

/-- The evaluator that may nest `more` calls more. -/
def raise (more : Nat) (e : Evaluator) : Evaluator := { e with limit := e.limit + more }

variable (more : Nat) (e : Evaluator)

theorem prolongs_call (site : NodeId) (closure : Closure) (arguments : List Value)
    (context : Context) : ((e.raise more).call site closure arguments context).Prolongs
      (e.call site closure arguments context) := by
  unfold call
  dsimp only
  split
  · exact .refl _
  · cases hscope : Scope.call closure.scope context.scope "lambda" (closure.params.zip
        ((closure.applied ++ arguments).take closure.params.length)) e.limit with
    | error cause => exact .runaway _ cause _
    | ok scope =>
      have hraised := Scope.call_add hscope more
      unfold raise
      dsimp only
      rw [hraised]
      exact .refl _

theorem prolongs_surplus (site : NodeId) (arguments : List Value) (context : Context)
    (found : List Diagnostic) (value : Value) :
    ((e.raise more).surplus site arguments context found value).Prolongs
      (e.surplus site arguments context found value) := by
  unfold surplus
  split
  · split
    · exact .refl _
    · exact .after found (e.prolongs_call more site _ arguments context)
  · exact .refl _

theorem prolongs_apply (site : NodeId) (context : Context) (found : List Diagnostic)
    (function arguments : Value) :
    ((e.raise more).apply site context found function arguments).Prolongs
      (e.apply site context found function arguments) := by
  unfold apply
  split
  · exact .after found (e.prolongs_call more site _ _ context)
  · exact .refl _

theorem prolongs_advance (i : Iteration) (items : List Value) :
    ((e.raise more).advance i items).Prolongs (e.advance i items) := by
  cases items with
  | nil => exact .refl _
  | cons item rest => exact .capture _ (e.prolongs_call more _ _ _ _)

theorem prolongs_each (site : NodeId) (tag : Tag) (context : Context) (found : List Diagnostic)
    (values : List Value) : ((e.raise more).each site tag context found values).Prolongs
      (e.each site tag context found values) := by
  unfold each
  dsimp only
  split
  · split
    · exact e.prolongs_advance more _ _
    · exact .refl _
  · exact .refl _

theorem selectFrom_raise (scope : Scope) (target : NodeId) (clauses : List NodeId)
    (table : PatternTable) :
    (e.raise more).selectFrom scope target clauses table =
      e.selectFrom scope target clauses table := by
  induction clauses generalizing table with
  | nil => rfl
  | cons id rest ih =>
    unfold selectFrom
    simp only [ih]
    rfl

theorem select?_raise (clauses : List NodeId) (value : Value) (scope : Scope) :
    (e.raise more).select? clauses value scope = e.select? clauses value scope :=
  e.selectFrom_raise more scope _ clauses _

/-- Evaluation with more room does what evaluation does, unless that runs away. -/
theorem prolongs_walk : (e.raise more).walk.Prolongs e.walk where
  store := rfl
  absent := rfl
  enter _ _ _ := .refl _
  resume frame found values := by
    cases frame with
    | operands site tag context => exact .refl _
    | last => exact .refl _
    | application site context => exact e.prolongs_apply more site context found _ _
    | surplus site arguments context => exact e.prolongs_surplus more site arguments context found _
    | iteration site tag context => exact e.prolongs_each more site tag context found values
    | item i item rest => exact e.prolongs_advance more _ rest
    | scrutinee site clauses context =>
      unfold walk resume
      dsimp only
      rw [select?_raise]
      exact .refl _
    | condition yes no context => exact .refl _
    | connective tag right context => exact .refl _
    | truth => exact .refl _

end Evaluator

/-! ## Snapshots -/

/-- Compilation has ended because too many calls were nested. -/
def CompileResult.RanAway (result : CompileResult) : Prop :=
  ∃ cause place, result = .failed (.runaway cause place)

/-- What evaluation leaves behind depends on the outcome of its walk only. -/
theorem Config.evaluate_congr {config config' : Config} {steps : Nat} {store : Store}
    {root : NodeId} {data : Json}
    (h : (Evaluator.walk ⟨store, .ofJson data, config'.recursionLimit,
        config'.caseFallthrough⟩).run config'.scheduling steps root .global =
      (Evaluator.walk ⟨store, .ofJson data, config.recursionLimit,
        config.caseFallthrough⟩).run config.scheduling steps root .global) :
    config'.evaluate steps store root data = config.evaluate steps store root data := by
  unfold evaluate
  dsimp only
  rw [h]

theorem Config.evaluate_raise (config : Config) (more steps : Nat) (store : Store) (root : NodeId)
    (data : Json) : (config.evaluate steps store root data).RanAway ∨
      { config with recursionLimit := config.recursionLimit + more }.evaluate steps store root
        data = config.evaluate steps store root data := by
  rcases (Evaluator.prolongs_walk more ⟨store, .ofJson data, config.recursionLimit,
    config.caseFallthrough⟩).run config.scheduling steps root .global with haway | hsame
  · obtain ⟨cause, place, hrun⟩ := haway.exists_eq
    refine .inl ⟨cause, place, ?_⟩
    unfold evaluate
    dsimp only
    rw [hrun]
  · exact .inr (evaluate_congr hsame)

theorem compileWithin_raise {config : Config} {steps : Nat} {snapshot : Snapshot} {data : Json}
    (h : ¬ (compileWithin steps config snapshot data).RanAway) (more : Nat) :
    compileWithin steps { config with recursionLimit := config.recursionLimit + more } snapshot
      data = compileWithin steps config snapshot data := by
  have hload : { config with recursionLimit := config.recursionLimit + more }.load snapshot =
      config.load snapshot := rfl
  unfold compileWithin at h ⊢
  rw [hload]
  dsimp only
  split
  · rfl
  · rename_i store hstore
    rw [hstore] at h
    dsimp only at h
    split
    · rename_i found _ hchecked
      rw [hchecked] at h
      dsimp only at h
      split
      · rename_i hclean
        rw [if_pos hclean] at h
        exact (config.evaluate_raise more steps store snapshot.root data).resolve_left h
      · rfl
    · rfl
    · rfl

/-- A higher limit to the number of nested scopes changes nothing, unless the lower one has been
reached. The program that is read from a text has the same nodes under the same ids, the same
places, the same root and the same errors. A snapshot has the same diagnostics and the same value,
or the same error, within the same steps. -/
theorem limit_raised {limit limit' : Nat} (h : limit ≤ limit') :
    (∀ (lexicon : Lexicon) (version text : String),
      (∀ cause location, .folding (.runaway cause) location ∉
        (Program.ofText ⟨lexicon, limit, version⟩ text).syntaxErrors) →
      Program.ofText ⟨lexicon, limit', version⟩ text =
        Program.ofText ⟨lexicon, limit, version⟩ text) ∧
    ∀ (config : Config) (steps : Nat) (snapshot : Snapshot) (data : Json),
      (∀ cause place, compileWithin steps { config with recursionLimit := limit } snapshot data ≠
        .failed (.runaway cause place)) →
      compileWithin steps { config with recursionLimit := limit' } snapshot data =
        compileWithin steps { config with recursionLimit := limit } snapshot data := by
  obtain ⟨more, rfl⟩ := Nat.exists_eq_add_of_le h
  refine ⟨fun lexicon version text hclean => Program.ofText_raise hclean more, ?_⟩
  intro config steps snapshot data hclean
  have hnot : ¬ (compileWithin steps { config with recursionLimit := limit } snapshot
      data).RanAway := fun ⟨cause, place, haway⟩ => hclean cause place haway
  exact compileWithin_raise hnot more

/-- A lambda is read, and a list is evaluated, as with the limit that is used unless another one is
given. -/
theorem limit_raised_identity : Runaway.defaultLimit ≤ 1000 ∧
    (∃ place around, Program.ofText ⟨.standard, 1000, Snapshot.currentVersion⟩ "<x: x>" =
      ⟨Identity.prog place around, some ⟨6⟩, [], [], Snapshot.currentVersion⟩) ∧
    compileWithin 20 { Config.standard with recursionLimit := 1000 } (Store.nulls.snapshot ⟨2⟩)
      .null = .compiled ⟨[], some (.arr [.null, .null])⟩ := by
  have hle : Runaway.defaultLimit ≤ 1000 := by decide
  obtain ⟨place, around, hprogram⟩ := Program.ofText_identity
  have hvalue := compileWithin_nulls .queued
  refine ⟨hle, ⟨place, around, ?_⟩, ?_⟩
  · refine ((limit_raised hle).1 .standard Snapshot.currentVersion "<x: x>" ?_).trans hprogram
    intro cause location hm
    exact absurd (hprogram ▸ hm) List.not_mem_nil
  · refine ((limit_raised hle).2 .standard 20 _ .null ?_).trans hvalue
    intro cause place haway
    cases hvalue.symm.trans haway

end Juxta
