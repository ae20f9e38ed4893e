import Juxta.Proofs.Scopes

/-!
# Folding with more room

An environment with a higher limit means the same by every name. Folding in it does what folding
below the old limit does, step by step, until the old limit is reached and that folding fails. In
the same way nodes that come before some number are folded as if they came before a greater one.

* `Environment.raise` : more scopes may be entered; the operations on scopes commute with it;
* `Fold.Prolongs` : a step that does what another one does, unless that one fails in some way;
* `Descent.Prolongs` : the same of how terms reach other sequences;
* `Descent.prolongs_term`, `Descent.prolongs_terms`, `prolongs_fold` : terms, sequences and nodes;
* `prolongs_bound` : sequences of nodes before some number.
-/

namespace Juxta

namespace Environment

/-- The environment in which `more` scopes more may be entered. -/
def raise (more : Nat) (env : Environment) : Environment := { env with limit := env.limit + more }

variable (more : Nat) (env : Environment)

@[simp] theorem scopes_raise : (env.raise more).scopes = env.scopes := rfl

@[simp] theorem depth_raise : (env.raise more).depth = env.depth := rfl

@[simp] theorem top_raise : (env.raise more).top = env.top := rfl

@[simp] theorem find?_raise (name : String) : (env.raise more).find? name = env.find? name := rfl

theorem push_raise (name : String) (parent : Option Nat) :
    (env.raise more).push name parent = (env.push name parent).raise more := rfl

theorem addWord_raise (word : Word) :
    (env.raise more).addWord word = (env.addWord word).raise more := rfl

theorem addWords_raise (words : List Word) :
    (env.raise more).addWords words = (env.addWords words).raise more := by
  induction words generalizing env with
  | nil => rfl
  | cons word rest ih => exact ih (env.addWord word)

theorem exit_raise : (env.raise more).exit = env.exit.raise more := by
  obtain ⟨scopes, limit⟩ := env
  match scopes with
  | [] => rfl
  | [_] => rfl
  | _ :: _ :: _ => rfl

theorem define_raise (number : Nat) (name : String) (kind : WordKind) :
    (env.raise more).define number name kind = (env.define number name kind).raise more := by
  unfold define
  rw [depth_raise]
  split
  · rfl
  · rfl

/-- A scope that may be entered may be entered below a higher limit. -/
theorem enter_raise {next : Environment} {name : String} {parent : Option Nat}
    (h : env.enter name parent = .ok next) :
    (env.raise more).enter name parent = .ok (next.raise more) := by
  unfold enter at h ⊢
  split at h
  · cases h
  · rename_i hroom
    cases h
    have hmore : ¬ env.limit + more ≤ env.depth := by omega
    rw [depth_raise]
    exact if_neg hmore

end Environment

/-! ## Steps -/

namespace Fold

variable {α β : Type} {ways : FoldError → Prop}

/-- A step that does what another one does, unless that one fails in some way. -/
def Prolongs (ways : FoldError → Prop) (g f : Fold α) : Prop :=
  ∀ s, (∃ error t, ways error ∧ f.run.run s = (.error error, t)) ∨ g.run.run s = f.run.run s

theorem Prolongs.refl (f : Fold α) : f.Prolongs ways f := fun _ => .inr rfl

/-- What has failed may be prolonged by anything. -/
theorem prolongs_failed (g : Fold α) {error : FoldError} (h : ways error) :
    g.Prolongs ways (throw error) := fun s => .inl ⟨error, s, h, rfl⟩

/-- Nothing comes after a failure. -/
theorem prolongs_throw (error : FoldError) (next' next : α → Fold β) :
    Prolongs ways (throw error >>= next') (throw error >>= next) := fun _ => .inr rfl

theorem prolongs_failed_bind (g : Fold β) {error : FoldError} (h : ways error)
    (next : α → Fold β) : g.Prolongs ways (throw error >>= next) :=
  fun s => .inl ⟨error, s, h, rfl⟩

theorem Prolongs.bind {g f : Fold α} {next' next : α → Fold β} (h : g.Prolongs ways f)
    (k : ∀ a, (next' a).Prolongs ways (next a)) : (g >>= next').Prolongs ways (f >>= next) := by
  intro s
  rw [run_bind, run_bind]
  rcases h s with ⟨error, t, hfails, hrun⟩ | hsame
  · rw [hrun]
    exact .inl ⟨error, t, hfails, rfl⟩
  · rw [hsame]
    generalize f.run.run s = out
    obtain ⟨result, t⟩ := out
    cases result with
    | ok a => exact k a t
    | error error => exact .inr rfl

/-- The same step first. -/
theorem Prolongs.after {next' next : α → Fold β} (f : Fold α)
    (k : ∀ a, (next' a).Prolongs ways (next a)) : (f >>= next').Prolongs ways (f >>= next) :=
  (refl f).bind k

/-- Another step first, and then the same. -/
theorem Prolongs.andThen {g f : Fold α} (h : g.Prolongs ways f) (next : α → Fold β) :
    (g >>= next).Prolongs ways (f >>= next) := h.bind fun _ => refl _

end Fold

/-! ## Terms -/

namespace Descent

open Fold (Prolongs)

/-- Names mean the same, and what is reached from terms is prolonged. -/
structure Prolongs (ways : FoldError → Prop) (d' d : Descent) : Prop where
  names : ∀ name, d'.env.find? name = d.env.find? name
  bound : d'.bound = d.bound ∨ d.bound ≤ d'.bound ∧ ∀ id, ways (.unordered id)
  below : ∀ ids, (d'.below ids).Prolongs ways (d.below ids)
  inside : ∀ name parent words body,
    (d'.inside name parent words body).Prolongs ways (d.inside name parent words body)

variable {ways : FoldError → Prop} {d' d : Descent} {stand : Stand}
  {take' take : Nat → Fold (List NodeId × Nat)}

theorem prolongs_child (h : d'.Prolongs ways d) (id : NodeId) :
    (d'.child id).Prolongs ways (d.child id) := by
  unfold child
  split
  · exact .refl _
  · exact (h.below [id]).andThen _

theorem prolongs_children (h : d'.Prolongs ways d) (ids : List NodeId) :
    (d'.children ids).Prolongs ways (d.children ids) := by
  induction ids with
  | nil => exact .refl _
  | cons id rest ih => exact (prolongs_child h id).bind fun folded => ih.andThen _

theorem prolongs_expand (h : d'.Prolongs ways d) (name : String) (parent : Option Nat)
    (params : List String) (body : NodeId) (arguments : List NodeId) :
    (d'.expand name parent params body arguments).Prolongs ways
      (d.expand name parent params body arguments) :=
  (h.inside name parent _ body).andThen _

theorem prolongs_applyFollowing (h : d'.Prolongs ways d)
    (htake : ∀ count, (take' count).Prolongs ways (take count)) (lambda : NodeId) :
    (d'.applyFollowing stand take' lambda).Prolongs ways (d.applyFollowing stand take lambda) := by
  unfold applyFollowing
  split
  · exact .refl _
  · refine .after _ fun s => (htake _).bind fun taken => ?_
    obtain ⟨arguments, count⟩ := taken
    dsimp only
    split
    · exact .refl _
    · exact .after _ fun t => (prolongs_expand h _ _ _ _ _).andThen _

theorem prolongs_ident (h : d'.Prolongs ways d)
    (htake : ∀ count, (take' count).Prolongs ways (take count)) (id : NodeId) (node : Node) :
    (d'.ident stand take' id node).Prolongs ways (d.ident stand take id node) := by
  unfold ident
  dsimp only
  rw [h.names]
  split
  · split
    · exact .refl _
    · refine .after _ fun s => ?_
      split
      · exact prolongs_applyFollowing h htake _
      · exact .refl _
  · exact (htake _).bind fun taken => (prolongs_expand h _ _ _ _ _).andThen _
  · exact (htake _).andThen _
  · exact .refl _

theorem prolongs_lambda (h : d'.Prolongs ways d) (id : NodeId) (node : Node) :
    (d'.lambda id node).Prolongs ways (d.lambda id node) :=
  .after _ fun _ => (h.inside _ _ _ _).andThen _

theorem prolongs_paren (h : d'.Prolongs ways d)
    (htake : ∀ count, (take' count).Prolongs ways (take count)) (id : NodeId) (node : Node) :
    (d'.paren stand take' id node).Prolongs ways (d.paren stand take id node) := by
  unfold paren
  dsimp only
  refine .after _ fun s => (h.below _).bind fun folded => .after _ fun t => ?_
  split
  · split
    · exact prolongs_applyFollowing h htake _
    all_goals exact .refl _
  · exact .refl _

theorem prolongs_conditional (h : d'.Prolongs ways d) (id : NodeId) (node : Node) :
    (d'.conditional id node).Prolongs ways (d.conditional id node) := by
  unfold conditional
  refine (prolongs_child h _).bind fun condition => .after _ fun s => ?_
  dsimp only
  split
  · rename_i truth _
    generalize (if truth = true then node.child 1 else node.child 2) = branch
    split
    · exact .refl _
    · exact (prolongs_child h _).andThen _
  · exact (prolongs_child h _).bind fun yes => (prolongs_child h _).andThen _

theorem prolongs_patterns (h : d'.Prolongs ways d) (clauses : List NodeId) :
    (d'.patterns clauses).Prolongs ways (d.patterns clauses) := by
  induction clauses with
  | nil => exact .refl _
  | cons id rest ih =>
    unfold patterns
    refine .after _ fun s => ?_
    split
    · exact ih
    · exact (prolongs_child h _).bind fun folded => .after _ fun t => ih.andThen _

theorem prolongs_bodies (h : d'.Prolongs ways d) (clauses : List Clause) :
    (d'.bodies clauses).Prolongs ways (d.bodies clauses) := by
  induction clauses with
  | nil => exact .refl _
  | cons clause rest ih =>
    exact (prolongs_child h _).bind fun body => .after _ fun rebuilt => ih.andThen _

theorem prolongs_select (h : d'.Prolongs ways d) (id : NodeId) (node : Node) :
    (d'.select id node).Prolongs ways (d.select id node) := by
  unfold select
  refine (prolongs_child h _).bind fun scrutinee => .after _ fun s => ?_
  refine (prolongs_patterns h _).bind fun clauses => .after _ fun t => ?_
  dsimp only
  split
  · exact (prolongs_child h _).andThen _
  · exact (prolongs_bodies h _).andThen _

theorem prolongs_single (h : d'.Prolongs ways d) (id : NodeId) (node : Node) :
    (d'.single id node).Prolongs ways (d.single id node) := by
  unfold single
  split
  case h_6 | h_7 => exact (h.below _).andThen _
  case h_8 => exact (prolongs_child h _).andThen _
  case h_9 => exact prolongs_conditional h id node
  case h_10 => exact prolongs_select h id node
  case h_11 => exact (prolongs_children h _).andThen _
  all_goals exact .refl _

theorem prolongs_term (h : d'.Prolongs ways d)
    (htake : ∀ count, (take' count).Prolongs ways (take count)) (id : NodeId) :
    (d'.term stand take' id).Prolongs ways (d.term stand take id) := by
  unfold term
  refine .after _ fun s => ?_
  split
  · exact .refl _
  · dsimp only
    by_cases hbefore : d.bound ≤ id.index
    · rw [if_pos hbefore]
      rcases h.bound with hbound | ⟨-, hways⟩
      · rw [hbound, if_pos hbefore]
        exact Fold.prolongs_throw _ _ _
      · exact Fold.prolongs_failed_bind _ (hways id) _
    · have hbefore' : ¬ d'.bound ≤ id.index := by
        rcases h.bound with hbound | ⟨hbound, -⟩ <;> omega
      rw [if_neg hbefore, if_neg hbefore']
      split
      · exact prolongs_ident h htake id _
      · exact (prolongs_lambda h id _).bind (prolongs_applyFollowing h htake)
      · exact prolongs_paren h htake id _
      · exact (prolongs_single h id _).andThen _

/-- No node comes before the number zero. -/
theorem prolongs_term_zero (hbound : d.bound = 0) (hways : ∀ id, ways (.unordered id))
    (id : NodeId) : (d'.term stand take' id).Prolongs ways (d.term stand take id) := by
  unfold term
  refine .after _ fun s => ?_
  split
  · exact .refl _
  · dsimp only
    rw [hbound, if_pos (Nat.zero_le _)]
    exact Fold.prolongs_failed_bind _ (hways id) _

/-- Terms in a row are prolonged if each of them is. -/
theorem prolongs_terms
    (h : ∀ stand take' take, (∀ count, (take' count).Prolongs ways (take count)) →
      ∀ id, (d'.term stand take' id).Prolongs ways (d.term stand take id))
    (ids : List NodeId) (stand : Stand) (count skip : Nat) :
    (d'.terms ids stand count skip).Prolongs ways (d.terms ids stand count skip) := by
  induction ids generalizing stand count skip with
  | nil => exact .refl _
  | cons id rest ih =>
    cases skip with
    | succ skip => exact ih stand count skip
    | zero =>
      cases count with
      | zero => exact .refl _
      | succ count =>
        refine (h stand _ _ (fun count => ih .argument count 0) id).bind fun term => ?_
        obtain ⟨folded, taken⟩ := term
        exact (ih stand count taken).andThen _

end Descent

/-! ## Nodes -/

variable {env : Environment}

/-- Nodes that come before some number come before every greater one. -/
theorem prolongs_bound {ways : FoldError → Prop} (hways : ∀ id, ways (.unordered id))
    (inside : String → Option Nat → List Word → NodeId → Fold NodeId) (bound more : Nat)
    (ids : List NodeId) : (foldSequence env inside (bound + more) ids).Prolongs ways
      (foldSequence env inside bound ids) := by
  induction bound generalizing ids with
  | zero =>
    cases more with
    | zero => exact .refl _
    | succ more =>
      unfold foldSequence
      exact (Descent.prolongs_terms (fun _ _ _ _ => Descent.prolongs_term_zero rfl hways)
        ids .head ids.length 0).andThen _
  | succ bound ih =>
    rw [Nat.add_right_comm]
    unfold foldSequence
    have hd : Descent.Prolongs ways
        ⟨env, bound + more + 1, foldSequence env inside (bound + more), inside⟩
        ⟨env, bound + 1, foldSequence env inside bound, inside⟩ :=
      ⟨fun _ => rfl, .inr ⟨Nat.succ_le_succ (Nat.le_add_right _ _), hways⟩, ih,
        fun _ _ _ _ => .refl _⟩
    exact (Descent.prolongs_terms (fun _ _ _ => Descent.prolongs_term hd)
      ids .head ids.length 0).andThen _

theorem prolongs_foldSequence (more : Nat)
    {inside' inside : String → Option Nat → List Word → NodeId → Fold NodeId}
    (h : ∀ name parent words body, (inside' name parent words body).Prolongs FoldError.IsRunaway
      (inside name parent words body))
    (bound : Nat) (ids : List NodeId) :
    (foldSequence (env.raise more) inside' bound ids).Prolongs FoldError.IsRunaway
      (foldSequence env inside bound ids) := by
  induction bound generalizing ids with
  | zero =>
    unfold foldSequence
    have hd : Descent.Prolongs FoldError.IsRunaway
        ⟨env.raise more, 0, fun _ => return [], inside'⟩
        ⟨env, 0, fun _ => return [], inside⟩ := ⟨fun _ => rfl, .inl rfl, fun _ => .refl _, h⟩
    exact (Descent.prolongs_terms (fun _ _ _ => Descent.prolongs_term hd)
      ids .head ids.length 0).andThen _
  | succ bound ih =>
    unfold foldSequence
    have hd : Descent.Prolongs FoldError.IsRunaway
        ⟨env.raise more, bound + 1, foldSequence (env.raise more) inside' bound, inside'⟩
        ⟨env, bound + 1, foldSequence env inside bound, inside⟩ := ⟨fun _ => rfl, .inl rfl, ih, h⟩
    exact (Descent.prolongs_terms (fun _ _ _ => Descent.prolongs_term hd)
      ids .head ids.length 0).andThen _

theorem prolongs_foldBy (more : Nat) {inside' inside : Environment → NodeId → Fold NodeId}
    (h : ∀ name parent next, env.enter name parent = .ok next → ∀ words body,
      (inside' ((next.addWords words).raise more) body).Prolongs FoldError.IsRunaway
        (inside (next.addWords words) body))
    (id : NodeId) :
    (foldBy inside' (env.raise more) id).Prolongs FoldError.IsRunaway (foldBy inside env id) := by
  have hentered : ∀ name parent words body,
      (foldEntered inside' (env.raise more) name parent words body).Prolongs FoldError.IsRunaway
        (foldEntered inside env name parent words body) := by
    intro name parent words body
    unfold foldEntered
    cases hnext : env.enter name parent with
    | error cause => exact Fold.prolongs_failed _ trivial
    | ok next =>
      rw [env.enter_raise more hnext]
      dsimp only
      rw [Environment.addWords_raise]
      exact h name parent next hnext words body
  unfold foldBy
  split
  · exact .refl _
  · exact (prolongs_foldSequence more hentered _ _).andThen _

theorem Environment.room_of_enter {next : Environment} {name : String} {parent : Option Nat}
    (h : env.enter name parent = .ok next) (words : List Word) :
    (next.addWords words).room < env.room := by
  unfold enter at h
  split at h
  · cases h
  · cases h
    rw [room_addWords_push]
    unfold room
    omega

/-- Folding with more room does what folding does, unless that runs away. -/
theorem prolongs_fold (more : Nat) (env : Environment) (id : NodeId) :
    (fold (env.raise more) id).Prolongs FoldError.IsRunaway (fold env id) := by
  -- every scope that is entered takes from the room
  induction hroom : env.room using Nat.strongRecOn generalizing env id with
  | ind room ih =>
    rw [fold_eq (env.raise more), fold_eq env]
    refine prolongs_foldBy more (fun name parent next hnext words body => ?_) id
    exact ih _ (hroom ▸ Environment.room_of_enter hnext words) _ body rfl

end Juxta
