import Juxta.Grammar.Builder
import Juxta.Proofs.Folding

/-!
# What building keeps

* `Builder.Sound` : the store is grounded, whatever waits or has a name is stored, and no error
  noted so far stops parsing;
* `Build.Keeps` : a step that keeps a builder sound and leaves the root alone, with a condition on
  what it returns;
* one lemma `Build.keeps_…` for every step on a builder.
-/

namespace Juxta

/-! ## Scopes -/

namespace Environment

variable {P : WordKind → Prop} {env : Environment}

theorem AllKinds.enter (h : env.AllKinds P) {name : String} {parent : Option Nat}
    {entered : Environment} (he : env.enter name parent = .ok entered) : entered.AllKinds P := by
  unfold Environment.enter at he
  split at he
  · cases he
  · cases he
    exact h.push name parent

theorem AllKinds.exit (h : env.AllKinds P) : env.exit.AllKinds P := by
  unfold Environment.exit
  split
  · rename_i first outer rest hscopes
    intro scope hs
    refine h scope ?_
    rw [hscopes]
    exact List.mem_cons_of_mem first hs
  · exact h

theorem AllKinds.define (h : env.AllKinds P) {kind : WordKind} (hk : P kind) (number : Nat)
    (name : String) : (env.define number name kind).AllKinds P := by
  unfold Environment.define
  split
  · intro scope hs
    dsimp only at hs
    obtain ⟨i, hi⟩ := List.mem_iff_getElem?.1 hs
    rw [List.getElem?_modify] at hi
    obtain ⟨old, hold, hscope⟩ := Option.map_eq_some_iff.1 hi
    have hwords := h old (List.mem_of_getElem? hold)
    subst hscope
    split
    · split
      · rename_i word hget
        exact Fields.forall_set (P := fun word : Word => P word.kind) hwords hk
      · exact hwords
    · exact hwords
  · exact h

end Environment

/-! ## Sound builders -/

/-- Nodes that are stored have their children stored, names and waiting nodes are stored or absent,
and no error has stopped parsing. -/
structure Builder.Sound (b : Builder) : Prop where
  grounded : b.store.Grounded
  nodes : NodeId.AllUpTo b.store.size b.nodes
  env : b.env.UpTo b.store.size
  errors : ∀ error ∈ b.errors, error.isFatal = false

namespace Build

open NodeId (UpTo AllUpTo)

variable {α β : Type} {lo : Nat}

/-- A step that keeps a builder with at least `lo` nodes sound and leaves its root alone. What it
returns satisfies a condition together with the number of nodes that are stored then. -/
def Keeps (lo : Nat) (step : Build α) (post : Nat → α → Prop) : Prop :=
  ∀ b : Builder, b.Sound → lo ≤ b.store.size →
    (step.run b).2.Sound ∧ b.store.size ≤ (step.run b).2.store.size ∧
      (step.run b).2.root = b.root ∧ post (step.run b).2.store.size (step.run b).1

theorem Keeps.pure {a : α} {post : Nat → α → Prop} (h : ∀ n, lo ≤ n → post n a) :
    Keeps lo (Pure.pure a) post :=
  fun b hb hlo => ⟨hb, Nat.le_refl _, rfl, h b.store.size hlo⟩

theorem Keeps.bind {step : Build α} {next : α → Build β} {P : Nat → α → Prop}
    {Q : Nat → β → Prop} (h : Keeps lo step P)
    (k : ∀ n a, lo ≤ n → P n a → Keeps n (next a) Q) : Keeps lo (step >>= next) Q := by
  intro b hb hlo
  obtain ⟨hmid, hle, hroot, hP⟩ := h b hb hlo
  obtain ⟨hend, hle', hroot', hQ⟩ :=
    k (step.run b).2.store.size (step.run b).1 (Nat.le_trans hlo hle) hP (step.run b).2 hmid
      (Nat.le_refl _)
  exact ⟨hend, Nat.le_trans hle hle', hroot'.trans hroot, hQ⟩

/-- The builder as it is. -/
theorem keeps_get :
    Keeps lo (get : Build Builder) fun n b => b.Sound ∧ b.store.size ≤ n :=
  fun _ hb _ => ⟨hb, Nat.le_refl _, rfl, hb, Nat.le_refl _⟩

/-- A change that stores nothing. -/
theorem keeps_modify {f : Builder → Builder} (hstore : ∀ b, (f b).store = b.store)
    (hroot : ∀ b, (f b).root = b.root)
    (hf : ∀ b : Builder, b.Sound → lo ≤ b.store.size → (f b).Sound) :
    Keeps lo (modify f : Build Unit) fun _ _ => True :=
  fun b hb hlo => ⟨hf b hb hlo, Nat.le_of_eq (congrArg Store.size (hstore b)).symm, hroot b,
    trivial⟩

/-- Nothing is said of what a step returns. -/
abbrev Whatever {σ : Type} (_ : σ) (_ : α) : Prop := True

/-! ## The stack -/

theorem keeps_height : Keeps lo height Whatever :=
  fun _ hb _ => ⟨hb, Nat.le_refl _, rfl, trivial⟩

theorem keeps_push {id : NodeId} (hid : id.UpTo lo) : Keeps lo (push id) Whatever := by
  refine keeps_modify (fun _ => rfl) (fun _ => rfl) fun b hb hlo => ?_
  exact ⟨hb.grounded, List.forall_mem_cons.2 ⟨hid.mono hlo, hb.nodes⟩, hb.env, hb.errors⟩

theorem keeps_pop : Keeps lo pop UpTo := by
  intro b hb hlo
  obtain ⟨store, env, nodes, errors, root⟩ := b
  cases nodes with
  | nil => exact ⟨hb, Nat.le_refl _, rfl, NodeId.upTo_absent _⟩
  | cons id rest =>
    obtain ⟨hid, hrest⟩ := List.forall_mem_cons.1 hb.nodes
    exact ⟨⟨hb.grounded, hrest, hb.env, hb.errors⟩, Nat.le_refl _, rfl, hid⟩

theorem keeps_split (base : Nat) : Keeps lo (split base) AllUpTo := by
  intro b hb hlo
  refine ⟨⟨hb.grounded, fun id hm => hb.nodes id (List.mem_of_mem_drop hm), hb.env, hb.errors⟩,
    Nat.le_refl _, rfl, fun id hm => ?_⟩
  exact hb.nodes id (List.mem_of_mem_take (List.mem_reverse.1 hm))

/-! ## Nodes -/

theorem keeps_intern {node : Node} {coord : Option Coord}
    (hc : AllUpTo lo node.children) : Keeps lo (intern node coord) UpTo := by
  intro b hb hlo
  have hle := b.store.size_intern_le node coord
  exact ⟨⟨hb.grounded.intern (hc.mono hlo), hb.nodes.mono hle,
    hb.env.mono hle, hb.errors⟩, hle, rfl, b.store.knows_intern node coord⟩

theorem keeps_pushNode {node : Node} {coord : Option Coord}
    (hc : AllUpTo lo node.children) : Keeps lo (pushNode node coord) Whatever :=
  .bind (keeps_intern hc) fun _ _ _ hid => keeps_push hid

theorem keeps_pushLeaf (tag : Tag) (text : String) (coord : Coord) :
    Keeps lo (pushLeaf tag text coord) Whatever :=
  keeps_pushNode (List.forall_mem_nil _)

theorem keeps_pushBranch (tag : Tag) {children : List NodeId} (hc : AllUpTo lo children)
    (coord : Option Coord) : Keeps lo (pushBranch tag children coord) Whatever := by
  unfold pushBranch
  refine .bind keeps_get fun n b hn _ => keeps_pushNode ?_
  rw [Node.children_branch]
  exact hc.mono hn

theorem keeps_pushConcat {parts : List NodeId} (hp : AllUpTo lo parts) (coord : Option Coord) :
    Keeps lo (pushConcat parts coord) Whatever := by
  unfold pushConcat
  refine .bind (keeps_intern ?_) fun n list _ hlist => keeps_pushNode ?_
  · rw [Node.children_branch]
    exact hp
  · rw [Node.children_branch]
    exact List.forall_mem_singleton.2 hlist

/-! ## Scopes and folding -/

theorem keeps_addWord {word : Word} (hw : word.kind.UpTo lo) :
    Keeps lo (addWord word) Whatever := by
  refine keeps_modify (fun _ => rfl) (fun _ => rfl) fun b hb hlo => ?_
  exact ⟨hb.grounded, hb.nodes, hb.env.addWord (hw.mono hlo), hb.errors⟩

/-- A scope is opened, or there are too many of them. -/
theorem keeps_enter (name : String) :
    Keeps lo (enter name) fun _ result => Fold.Meets (fun _ => True) result := by
  intro b hb hlo
  cases he : b.env.enter name none with
  | error cause =>
    have hrun : (enter name).run b = (.error (.runaway cause), b) := by
      unfold enter
      rw [StateT.run_modifyGet, he]
      rfl
    rw [hrun]
    exact ⟨hb, Nat.le_refl _, rfl, trivial⟩
  | ok entered =>
    have hrun : (enter name).run b = (.ok (), { b with env := entered }) := by
      unfold enter
      rw [StateT.run_modifyGet, he]
      rfl
    rw [hrun]
    exact ⟨⟨hb.grounded, hb.nodes, hb.env.enter he, hb.errors⟩, Nat.le_refl _, rfl, trivial⟩

theorem keeps_exit : Keeps lo exit Whatever := by
  refine keeps_modify (fun _ => rfl) (fun _ => rfl) fun b hb hlo => ?_
  exact ⟨hb.grounded, hb.nodes, hb.env.exit, hb.errors⟩

/-- The result of folding is known, or folding has entered too many scopes. -/
theorem keeps_foldNode {id : NodeId} (hid : id.UpTo lo) :
    Keeps lo (foldNode id) fun n result => Fold.Meets (UpTo n) result := by
  intro b hb hlo
  obtain ⟨hg, hle, hpost⟩ := keeps_fold hb.env (hid.mono hlo) b.store hb.grounded (Nat.le_refl _)
  exact ⟨⟨hg, hb.nodes.mono hle, hb.env.mono hle, hb.errors⟩, hle, rfl, hpost⟩

theorem keeps_report {error : SyntaxError} (he : error.isFatal = false) :
    Keeps lo (report error) Whatever := by
  refine keeps_modify (fun _ => rfl) (fun _ => rfl) fun b hb hlo => ?_
  refine ⟨hb.grounded, hb.nodes, hb.env, fun other hm => ?_⟩
  rcases List.mem_append.1 hm with hm | hm
  · exact hb.errors other hm
  · rw [List.mem_singleton.1 hm]
    exact he

end Build

end Juxta
