import Juxta.Proofs.InPlace
import Juxta.Proofs.ScopeChains

/-!
# Folding in chained scopes

Folding in place opens and closes scopes all the time. Here it is watched while it does: whenever
the scopes have changed they must be chained again, and a new scope must be chained to the innermost
one or to the one that holds the function whose body is folded. An alarm is raised otherwise. As it
turns out, none is.

* `Environment.OpensAtHome` : where a new scope is chained to;
* `InPlace.check`, `InPlace.watchedWithin`, `InPlace.watchedFold` : folding in place that is watched;
* `InPlace.mirrors_watchedWithin` : a watched step in a scope of its own;
* `InPlace.mirrors_watchedFold` : folding in chained scopes raises no alarm.
-/

namespace Juxta

namespace Environment

variable {env : Environment} {limit : Nat} {name : String} {parent : Option Nat} {words : List Word}
  {body : NodeId}

/-- A new scope is chained to the innermost one, or to the one that holds a function with the body
that is to be folded. -/
def OpensAtHome (env : Environment) (name : String) (parent : Option Nat) (body : NodeId) : Prop :=
  ∀ number ∈ parent, ∃ found ∈ env.find? name,
    found.1.kind.expansion? = some (body, number) ∧ found.2 = number

instance (env : Environment) (name : String) (parent : Option Nat) (body : NodeId) :
    Decidable (env.OpensAtHome name parent body) := inferInstanceAs (Decidable (∀ _ ∈ _, _))

theorem WordKind.home?_of_expansion? {kind : WordKind} {body : NodeId} {scope : Nat}
    (h : kind.expansion? = some (body, scope)) : kind.home? = some scope := by
  cases kind with
  | function params body' scope' =>
    cases h
    rfl
  | _ => cases h

/-- In chained scopes a function is held by the scope in which it was defined. -/
theorem Opens.atHome (h : env.Opens name parent words body) (hc : env.Chained limit) :
    env.OpensAtHome name parent body := by
  intro number hnumber
  obtain ⟨⟨word, holder⟩, hfind, hexpansion⟩ := h.2 number hnumber
  have hhome := (hc.home_eq hfind).2 number (WordKind.home?_of_expansion? hexpansion)
  exact ⟨_, hfind, hexpansion, hhome.symm⟩

/-- The scope that a new one is chained to is open. -/
theorem OpensAtHome.lt_depth (h : env.OpensAtHome name parent body) (hc : env.Chained limit) :
    ∀ number ∈ parent, number < env.depth := by
  intro number hnumber
  obtain ⟨⟨word, holder⟩, hfind, -, rfl⟩ := h number hnumber
  exact (hc.home_eq hfind).1

theorem Chained.entered (hc : env.Chained limit) (hroom : env.depth < env.limit)
    (h : env.Opens name parent words body) : (env.entered name parent words).Chained limit :=
  (hc.push hroom name ((h.atHome hc).lt_depth hc)).addWords h.1

end Environment

namespace InPlace

variable {α : Type}

/-! ## Watched steps -/

/-- Raises an alarm unless something holds. -/
def require (alarm : FoldError) (right : Environment → Prop) [DecidablePred right] :
    InPlace Unit := do
  if right (← get).env then return () else throw alarm

/-- Raises an alarm unless the scopes are chained. -/
abbrev check (alarm : FoldError) (limit : Nat) : InPlace Unit := require alarm (·.Chained limit)

/-- Adds words, and looks at the scopes after each. -/
def watchedWords (alarm : FoldError) (limit : Nat) : List Word → InPlace Unit
  | [] => return ()
  | word :: rest => do
    addWords [word]
    check alarm limit
    watchedWords alarm limit rest

/-- Carries out a step in a new scope, as `within` does, and looks at the scopes before and after
each change. -/
def watchedWithin (alarm : FoldError) (limit : Nat) (name : String) (parent : Option Nat)
    (words : List Word) (body : NodeId) (step : InPlace α) : InPlace α := do
  require alarm (·.OpensAtHome name parent body)
  enter name parent
  check alarm limit
  watchedWords alarm limit words
  let result ← ExceptT.lift step.run
  exit
  check alarm limit
  MonadExcept.ofExcept result

/-- Folds a node by itself, as `foldWithin` does, in scopes that are watched. -/
def watchedFoldWithin (alarm : FoldError) (limit : Nat) : (levels : Nat) → NodeId → InPlace NodeId
  | 0, id => return id
  | levels + 1, id => do
    let inside name parent words body :=
      watchedWithin alarm limit name parent words body (watchedFoldWithin alarm limit levels body)
    if id.isAbsent then return id
    return (← foldSequence inside (id.index + 1) [id]).headD id

/-- Folds a node by itself, as `fold` does, in scopes that are watched. -/
def watchedFold (alarm : FoldError) (id : NodeId) : InPlace NodeId := do
  let env := (← get).env
  watchedFoldWithin alarm env.limit (env.room + 1) id

/-! ## No alarm is raised -/

variable {env : Environment} {limit : Nat} {alarm : FoldError}

/-- A step that succeeds, and what comes after it. -/
theorem run_after {β : Type} {step : InPlace α} {a : α} {v w : Workplace}
    (h : step.run.run v = (.ok a, w)) (next : α → InPlace β) :
    (step >>= next).run.run v = (next a).run.run w := by
  rw [run_bind, h]

theorem run_require {right : Environment → Prop} [DecidablePred right] {w : Workplace}
    (h : right w.env) : (require alarm right).run.run w = (.ok (), w) := by
  show (if right w.env then return () else throw alarm : InPlace Unit).run.run w = _
  rw [if_pos h]
  rfl

theorem run_watchedWords (hc : env.Chained limit) {words : List Word}
    (hw : ∀ word ∈ words, word.kind.home? = none) (s : Store) :
    (watchedWords alarm limit words).run.run ⟨s, env⟩ = (.ok (), ⟨s, env.addWords words⟩) := by
  induction words generalizing env with
  | nil => rfl
  | cons word rest ih =>
    obtain ⟨hfirst, hrest⟩ := List.forall_mem_cons.1 hw
    have hadded : (env.addWords [word]).Chained limit :=
      hc.addWords (List.forall_mem_singleton.2 hfirst)
    have hadd : (addWords [word]).run.run ⟨s, env⟩ = (.ok (), ⟨s, env.addWords [word]⟩) := rfl
    unfold watchedWords
    rw [run_after hadd, run_after (run_require hadded)]
    exact ih hadded hrest

/-- Without room for a scope, watching makes no difference. -/
theorem run_watchedWithin_of_error (hc : env.Chained limit) {name : String} {parent : Option Nat}
    {words : List Word} {body : NodeId} (hopens : env.Opens name parent words body)
    {cause : Runaway} (h : env.enter name parent = .error cause) (x : InPlace α) (s : Store) :
    (watchedWithin alarm limit name parent words body x).run.run ⟨s, env⟩ =
      (.error (.runaway cause), ⟨s, env⟩) := by
  unfold watchedWithin
  rw [run_after (run_require (hopens.atHome hc)), run_bind, run_enter_of_error h]

/-- Nor does it in a scope of its own, if the step closes all scopes that it opens. -/
theorem run_watchedWithin_of_ok (hc : env.Chained limit) {name : String} {parent : Option Nat}
    {words : List Word} {body : NodeId} (hopens : env.Opens name parent words body)
    {next : Environment} (h : env.enter name parent = .ok next) {x : InPlace α} {s : Store}
    (hx : (x.run.run ⟨s, next.addWords words⟩).2.env = next.addWords words) :
    (watchedWithin alarm limit name parent words body x).run.run ⟨s, env⟩ =
      (within name parent words x).run.run ⟨s, env⟩ := by
  have hnext : next.Chained limit := hc.enter h ((hopens.atHome hc).lt_depth hc)
  have hwords : (next.addWords words).Chained limit := hnext.addWords hopens.1
  have hlift : (ExceptT.lift x.run : InPlace (Except FoldError α)).run.run ⟨s, next.addWords words⟩
      = (.ok (x.run.run ⟨s, next.addWords words⟩).1, (x.run.run ⟨s, next.addWords words⟩).2) := rfl
  rw [run_within_of_ok h]
  unfold watchedWithin
  rw [run_after (run_require (hopens.atHome hc)), run_after (run_enter_of_ok h s),
    run_after (run_require hnext), run_after (run_watchedWords hnext hopens.1 s), run_after hlift]
  generalize x.run.run ⟨s, next.addWords words⟩ = out at hx
  obtain ⟨result, t, env'⟩ := out
  obtain rfl : env' = next.addWords words := hx
  have hexit : exit.run.run ⟨t, next.addWords words⟩ =
      (.ok (), ⟨t, (next.addWords words).exit⟩) := rfl
  rw [run_after hexit, run_after (run_require hwords.exit)]
  cases result <;> rfl

/-- A watched step in a scope of its own. -/
theorem mirrors_watchedWithin (hc : env.Chained limit) {name : String} {parent : Option Nat}
    {words : List Word} {body : NodeId} (hopens : env.Opens name parent words body)
    {x : InPlace NodeId} {inside : Environment → NodeId → Fold NodeId}
    (h : env.depth < env.limit → Mirrors (env.entered name parent words) x
      (inside (env.entered name parent words) body)) :
    Mirrors env (watchedWithin alarm limit name parent words body x)
      (foldEntered inside env name parent words body) := by
  intro s
  have hmirrors := mirrors_within hc.isOpen h s
  by_cases hfull : env.limit ≤ env.depth
  · have henter : env.enter name parent = .error ⟨env.limit, name⟩ := if_pos hfull
    rwa [run_watchedWithin_of_error hc hopens henter, ← run_within_of_error henter words x]
  · have henter : env.enter name parent = .ok (env.push name parent) := if_neg hfull
    have hx := congrArg (fun out => out.2.env) (h (Nat.lt_of_not_le hfull) s).1
    rwa [run_watchedWithin_of_ok hc hopens henter hx]

/-! ## Nodes -/

/-- Watched folding, whatever the alarm is. The induction is on the levels; in each scope that is
entered the scopes are chained again. -/
theorem mirrors_watchedFoldWithin (hc : env.Chained limit) {levels : Nat}
    (hlevels : env.room < levels) (id : NodeId) :
    Mirrors env (watchedFoldWithin alarm limit levels id) (Juxta.fold env id) := by
  induction levels generalizing env id with
  | zero => exact absurd hlevels (Nat.not_lt_zero _)
  | succ levels ih =>
    have hinside : ∀ name parent words body, env.Opens name parent words body →
        Mirrors env
          (watchedWithin alarm limit name parent words body
            (watchedFoldWithin alarm limit levels body))
          (foldEntered Juxta.fold env name parent words body) := by
      intro name parent words body hopens
      refine mirrors_watchedWithin hc hopens fun hroom => ih (hc.entered hroom hopens) ?_ body
      rw [Environment.entered, Environment.room_addWords_push]
      unfold Environment.room at hlevels ⊢
      omega
    rw [fold_eq]
    unfold watchedFoldWithin foldBy
    split
    · exact .pure id
    · exact .bind (mirrors_foldSequence hinside _ _) fun _ => .pure _

/-- Folding in chained scopes raises no alarm. -/
theorem mirrors_watchedFold (hc : env.Chained limit) (id : NodeId) :
    Mirrors env (watchedFold alarm id) (Juxta.fold env id) := by
  refine .lookup fun _ => ?_
  dsimp only
  rw [hc.limit_eq]
  exact mirrors_watchedFoldWithin hc (Nat.lt_succ_self _) id

end InPlace

end Juxta
