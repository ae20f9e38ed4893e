import Juxta.Proofs.Folding

/-!
# Folding only interns

Folding changes a store by interning alone, and what it interns has no place of its own: either none
or that of a node that is stored already. So whatever such interning keeps, folding keeps.

* `Store.Settles` : a condition on stores that such interning keeps;
* `Fold.Maintains` : a step that keeps a condition, whether it fails or not;
* `Descent.Maintaining`, `Descent.maintains_terms` : the terms of a sequence;
* `maintains_fold` : folding keeps every condition that interning keeps.
-/

namespace Juxta

/-- A condition that is kept when a node is interned without a place or in the place of another
node. -/
def Store.Settles (P : Store → Prop) : Prop :=
  ∀ (s : Store) (node : Node) (coord : Option Coord), P s →
    (∀ place ∈ coord, ∃ origin, s.coord? origin = some place) → P (s.intern node coord).2

/-! ## Steps -/

namespace Fold

variable {α β : Type} {P : Store → Prop}

/-- A step that keeps a condition on the store, whether it fails or not. -/
def Maintains (P : Store → Prop) (step : Fold α) : Prop :=
  ∀ s : Store, P s → P (step.run.run s).2

theorem maintains_pure (a : α) : Maintains P (pure a) := fun _ hs => hs

theorem maintains_throw (error : FoldError) : Maintains P (throw error : Fold α) := fun _ hs => hs

/-- What would come after a failure makes no difference. -/
theorem maintains_throw_bind (error : FoldError) (next : β → Fold α) :
    Maintains P (throw error >>= next) := fun _ hs => hs

theorem maintains_get : Maintains P get := fun _ hs => hs

theorem Maintains.bind {step : Fold α} {next : α → Fold β} (h : Maintains P step)
    (k : ∀ a, Maintains P (next a)) : Maintains P (step >>= next) := by
  intro s hs
  have hstep := h s hs
  rw [run_bind]
  generalize step.run.run s = out at hstep
  obtain ⟨result, t⟩ := out
  cases result with
  | ok a => exact k a t hstep
  | error error => exact hstep

variable (hP : Store.Settles P)

include hP

/-- A node without a place. -/
theorem maintains_intern (node : Node) : Maintains P (intern node none) :=
  fun s hs => hP s node none hs nofun

theorem maintains_rebuild (origin : NodeId) (tag : Tag) (children : List NodeId) :
    Maintains P (rebuild origin tag children) :=
  fun s hs => hP s _ _ hs fun _ hplace => ⟨origin, hplace⟩

theorem maintains_idents (names : List String) : Maintains P (idents names) := by
  induction names with
  | nil => exact maintains_pure []
  | cons name rest ih =>
    exact .bind (maintains_intern hP _) fun _ => .bind ih fun _ => maintains_pure _

theorem maintains_residual (unbound : List String) (body : NodeId) :
    Maintains P (residual unbound body) := by
  unfold residual
  split
  · exact maintains_pure body
  · refine .bind (maintains_idents hP unbound) fun _ => ?_
    refine .bind (maintains_intern hP _) fun _ => .bind maintains_get fun _ => ?_
    split
    · exact .bind (maintains_pure _) fun _ => maintains_intern hP _
    · exact .bind (maintains_intern hP _) fun _ => maintains_intern hP _

theorem maintains_operation (origin : NodeId) (tag : Tag) (operands : List NodeId) :
    Maintains P (operation origin tag operands) := by
  refine .bind maintains_get fun _ => ?_
  split
  · exact maintains_intern hP _
  · exact maintains_rebuild hP _ _ _

theorem maintains_builtin (origin : NodeId) (tag : Tag) (arity : Nat) (arguments : List NodeId) :
    Maintains P (builtin origin tag arity arguments) :=
  .bind (maintains_idents hP _) fun _ => .bind (maintains_operation hP _ _ _) fun _ =>
    maintains_residual hP _ _

end Fold

/-! ## Terms -/

namespace Descent

open Fold

variable {P : Store → Prop} {d : Descent} {stand : Stand} {take : Nat → Fold (List NodeId × Nat)}

/-- A condition that is kept where the terms of a sequence lead. -/
structure Maintaining (P : Store → Prop) (d : Descent) : Prop where
  settles : Store.Settles P
  below : ∀ ids, Maintains P (d.below ids)
  inside : ∀ name parent words body, Maintains P (d.inside name parent words body)

/-- The terms that follow keep the condition. -/
abbrev MaintainsTaking (P : Store → Prop) (take : Nat → Fold (List NodeId × Nat)) : Prop :=
  ∀ count, Maintains P (take count)

theorem maintains_counted {step : Fold NodeId} (h : Maintains P step) (count : Nat) :
    Maintains P (do return (← step, count)) := .bind h fun _ => maintains_pure _

theorem maintains_unwrap {step : Fold NodeId} (h : Maintains P step) :
    Maintains P (do
      let folded ← step
      return (← get).unwrap folded) :=
  .bind h fun _ => .bind maintains_get fun _ => maintains_pure _

theorem maintains_child (h : d.Maintaining P) (id : NodeId) : Maintains P (d.child id) := by
  unfold child
  split
  · exact maintains_pure id
  · exact .bind (h.below _) fun _ => maintains_pure _

theorem maintains_children (h : d.Maintaining P) (ids : List NodeId) :
    Maintains P (d.children ids) := by
  induction ids with
  | nil => exact maintains_pure []
  | cons id rest ih =>
    exact .bind (maintains_child h id) fun _ => .bind ih fun _ => maintains_pure _

theorem maintains_expand (h : d.Maintaining P) (name : String) (parent : Option Nat)
    (params : List String) (body : NodeId) (arguments : List NodeId) :
    Maintains P (d.expand name parent params body arguments) :=
  .bind (h.inside _ _ _ _) fun _ => .bind maintains_get fun _ => maintains_residual h.settles _ _

theorem maintains_applyFollowing (h : d.Maintaining P) (htake : MaintainsTaking P take)
    (lambda : NodeId) : Maintains P (d.applyFollowing stand take lambda) := by
  unfold applyFollowing
  split
  · exact maintains_pure _
  · refine .bind maintains_get fun _ => .bind (htake _) fun taken => ?_
    dsimp only
    split
    · exact maintains_pure _
    · exact .bind maintains_get fun _ => maintains_counted (maintains_expand h _ _ _ _ _) _

theorem maintains_ident (h : d.Maintaining P) (htake : MaintainsTaking P take) (id : NodeId)
    (node : Node) : Maintains P (d.ident stand take id node) := by
  unfold ident
  dsimp only
  split
  · rename_i bound _ _ _
    split
    · exact maintains_pure _
    · refine .bind maintains_get fun _ => ?_
      split
      · exact maintains_applyFollowing h htake bound
      · exact maintains_pure _
  · exact .bind (htake _) fun _ => maintains_counted (maintains_expand h _ _ _ _ _) _
  · exact .bind (htake _) fun _ => maintains_counted (maintains_builtin h.settles _ _ _ _) _
  · exact maintains_pure _

theorem maintains_lambda (h : d.Maintaining P) (id : NodeId) (node : Node) :
    Maintains P (d.lambda id node) :=
  .bind maintains_get fun _ => .bind (h.inside _ _ _ _) fun _ =>
    maintains_rebuild h.settles _ _ _

theorem maintains_paren (h : d.Maintaining P) (htake : MaintainsTaking P take) (id : NodeId)
    (node : Node) : Maintains P (d.paren stand take id node) := by
  have hkeep : ∀ folded, Maintains P (do
      let sequence ← rebuild (node.child 0) .exprs folded
      return (← rebuild id .paren [sequence], 0)) := fun _ =>
    .bind (maintains_rebuild h.settles _ _ _) fun _ =>
      maintains_counted (maintains_rebuild h.settles _ _ _) 0
  unfold paren
  refine .bind maintains_get fun s => .bind (h.below _) fun folded => ?_
  refine .bind maintains_get fun t => ?_
  dsimp only
  split
  · rename_i only
    split
    · exact maintains_applyFollowing h htake only
    · exact hkeep _
    · exact hkeep _
    · exact hkeep _
    · exact hkeep _
    · exact maintains_pure _
  · exact hkeep _

theorem maintains_conditional (h : d.Maintaining P) (id : NodeId) (node : Node) :
    Maintains P (d.conditional id node) := by
  unfold conditional
  refine .bind (maintains_child h _) fun condition => .bind maintains_get fun s => ?_
  split
  · rename_i truth _
    dsimp only
    generalize (if truth then node.child 1 else node.child 2) = branch
    split
    · exact maintains_intern h.settles _
    · exact maintains_unwrap (maintains_child h _)
  · refine .bind (maintains_child h _) fun yes => .bind (maintains_child h _) fun no => ?_
    exact maintains_rebuild h.settles _ _ _

theorem maintains_patterns (h : d.Maintaining P) (clauses : List NodeId) :
    Maintains P (d.patterns clauses) := by
  induction clauses with
  | nil => exact maintains_pure []
  | cons id rest ih =>
    unfold patterns
    refine .bind maintains_get fun s => ?_
    split
    · exact ih
    · refine .bind (maintains_child h _) fun folded => .bind maintains_get fun t => ?_
      exact .bind ih fun _ => maintains_pure _

theorem maintains_bodies (h : d.Maintaining P) (clauses : List Clause) :
    Maintains P (d.bodies clauses) := by
  induction clauses with
  | nil => exact maintains_pure []
  | cons clause rest ih =>
    exact .bind (maintains_child h _) fun _ => .bind (maintains_rebuild h.settles _ _ _) fun _ =>
      .bind ih fun _ => maintains_pure _

theorem maintains_select (h : d.Maintaining P) (id : NodeId) (node : Node) :
    Maintains P (d.select id node) := by
  unfold select
  refine .bind (maintains_child h _) fun scrutinee => .bind maintains_get fun s => ?_
  refine .bind (maintains_patterns h _) fun clauses => .bind maintains_get fun t => ?_
  dsimp only
  split
  · exact maintains_unwrap (maintains_child h _)
  · exact .bind (maintains_bodies h clauses) fun _ => maintains_rebuild h.settles _ _ _

theorem maintains_single (h : d.Maintaining P) (id : NodeId) (node : Node) :
    Maintains P (d.single id node) := by
  unfold single
  split
  case h_6 | h_7 => exact .bind (h.below _) fun _ => maintains_rebuild h.settles _ _ _
  case h_8 =>
    exact .bind (maintains_child h _) fun _ => .bind maintains_get fun _ =>
      maintains_rebuild h.settles _ _ _
  case h_9 => exact maintains_conditional h id node
  case h_10 => exact maintains_select h id node
  case h_11 =>
    exact .bind (maintains_children h _) fun _ => maintains_operation h.settles _ _ _
  all_goals exact maintains_pure id

/-- One term. -/
theorem maintains_term (h : d.Maintaining P) (htake : MaintainsTaking P take) (id : NodeId) :
    Maintains P (d.term stand take id) := by
  unfold term
  refine .bind maintains_get fun s => ?_
  split
  · exact maintains_pure _
  · rename_i node _
    dsimp only
    split
    · exact maintains_throw_bind _ _
    · split
      · exact maintains_ident h htake id node
      · exact .bind (maintains_lambda h id node) fun _ => maintains_applyFollowing h htake _
      · exact maintains_paren h htake id node
      · exact maintains_counted (maintains_single h id node) 0

/-- Terms in a row. -/
theorem maintains_terms (h : d.Maintaining P) (ids : List NodeId) (stand : Stand)
    (count skip : Nat) : Maintains P (d.terms ids stand count skip) := by
  induction ids generalizing stand count skip with
  | nil => exact maintains_pure _
  | cons id rest ih =>
    cases skip with
    | succ skip => exact ih stand count skip
    | zero =>
      cases count with
      | zero => exact maintains_pure _
      | succ count =>
        -- the terms after a function are its arguments: the hypothesis for `rest` serves both
        unfold terms
        refine .bind (maintains_term h (fun count => ih .argument count 0) id) fun term => ?_
        exact .bind (ih stand count _) fun _ => maintains_pure _

end Descent

/-! ## Nodes -/

section

open Fold

variable {P : Store → Prop} {env : Environment}
  {inside : (name : String) → (parent : Option Nat) → List Word → NodeId → Fold NodeId}

theorem maintains_foldSequence (hP : Store.Settles P)
    (h : ∀ name parent words body, Maintains P (inside name parent words body)) (bound : Nat)
    (ids : List NodeId) : Maintains P (foldSequence env inside bound ids) := by
  induction bound generalizing ids with
  | zero =>
    have hd : (⟨env, 0, fun _ => return [], inside⟩ : Descent).Maintaining P :=
      ⟨hP, fun _ => maintains_pure [], h⟩
    exact .bind (Descent.maintains_terms hd ids .head ids.length 0) fun _ => maintains_pure _
  | succ bound ih =>
    have hd : (⟨env, bound + 1, foldSequence env inside bound, inside⟩ : Descent).Maintaining P :=
      ⟨hP, ih, h⟩
    exact .bind (Descent.maintains_terms hd ids .head ids.length 0) fun _ => maintains_pure _

/-- Every scope that is entered takes from the room. -/
theorem maintains_foldWithin (hP : Store.Settles P) (room : Nat) (id : NodeId) :
    Maintains P (foldWithin room env id) := by
  induction room generalizing env id with
  | zero =>
    unfold foldWithin
    dsimp only
    split
    · exact maintains_pure id
    · exact .bind (maintains_foldSequence hP (fun _ _ _ _ => maintains_throw _) _ _) fun _ =>
        maintains_pure _
  | succ room ih =>
    unfold foldWithin
    dsimp only
    split
    · exact maintains_pure id
    · exact .bind (maintains_foldSequence hP (fun _ _ _ _ => ih _) _ _) fun _ => maintains_pure _

/-- Folding keeps every condition that is kept when a node is interned without a place or in the
place of another one. -/
theorem maintains_fold (hP : Store.Settles P) (env : Environment) (id : NodeId) :
    Maintains P (fold env id) := maintains_foldWithin hP env.room id

end

end Juxta
