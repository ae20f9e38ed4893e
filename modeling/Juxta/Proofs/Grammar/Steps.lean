import Juxta.Grammar.Answer
import Juxta.Proofs.Grammar.Builder
import Juxta.Proofs.Grammar.Levels

/-!
# Steps of building, level by level

A rule that builds a node takes nodes of the innermost level and leaves one there; scopes and outer
levels stay as they are. What is said of the nodes is which names may be left in them.

* `LeftOver`, `Builder.Backed` : the names that nothing stands for, and builders that agree with
  levels up to these;
* `Layout` : what stays while the rules of one level build nodes;
* `Build.Turns` : a step that changes what waits in the innermost level; one lemma `turns_…` for
  every step that building a node consists of;
* `Build.run_foldNode` : folding a node leaves no name that its scopes show.
-/

namespace Juxta

open Environment (Shown)
open Level (height NamesIn)

/-- The names that may be left when all levels are closed: those that were read before their
definition was complete, and those that were reported as unknown. -/
def LeftOver (early : String → Prop) (errors : List SyntaxError) (name : String) : Prop :=
  early name ∨ ∃ location, .unknownName name location ∈ errors

/-- Levels that agree with what a builder has built. -/
def Builder.Backed (early : String → Prop) (levels : List Level) (b : Builder) : Prop :=
  Juxta.Backed b.store (LeftOver early b.errors) none levels b.env.scopes b.nodes

/-- What does not change while the rules of one level build nodes: the level apart from what waits
in it, the outer levels, the scopes, and the errors so far. -/
structure Layout where
  name? : Option String
  params : List String
  outer : List Level
  env : Environment
  errors : List SyntaxError

namespace Layout

/-- All levels, when some cells wait in the innermost one. -/
def levels (l : Layout) (cells : List Cell) : List Level := ⟨l.name?, l.params, cells⟩ :: l.outer

theorem height_append (l : Layout) (own below : List Cell) :
    Level.height (l.levels (own ++ below)) = own.length + Level.height (l.levels below) :=
  Level.height_append ..

/-- The names that terms may use. -/
def names (early : String → Prop) (l : Layout) (name : String) : Prop :=
  NamesIn (LeftOver early l.errors) (l.levels []) name ∨ Shown l.env.scopes name

/-- A builder with this layout. -/
structure Holds (early : String → Prop) (l : Layout) (cells : List Cell) (b : Builder) : Prop where
  env : b.env = l.env
  errors : b.errors = l.errors
  backed : Juxta.Backed b.store (LeftOver early l.errors) none (l.levels cells) l.env.scopes b.nodes

theorem Holds.builder {early : String → Prop} {l : Layout} {cells : List Cell} {b : Builder}
    (h : l.Holds early cells b) : b.Backed early (l.levels cells) := by
  unfold Builder.Backed
  rw [h.env, h.errors]
  exact h.backed

end Layout

namespace Build

variable {α β : Type} {early : String → Prop} {l : Layout} {s : Store}
  {cells before after : List Cell} {cell : Cell}

/-- A step that changes what waits in the innermost level, and only adds nodes to a store that has
those of `s`. -/
def Turns (early : String → Prop) (l : Layout) (s : Store) (before after : List Cell)
    (step : Build α) (post : Store → α → Prop) : Prop :=
  ∀ b : Builder, s.Extends b.store → l.Holds early before b →
    l.Holds early after (step.run b).2 ∧ b.store.Extends (step.run b).2.store ∧
      post (step.run b).2.store (step.run b).1

/-- One step with its result. -/
theorem run_next {b c : Builder} {step : Build α} {a : α} (h : step.run b = (a, c))
    (next : α → Build β) : (step >>= next).run b = (next a).run c := by
  show (next (step.run b).1).run (step.run b).2 = _
  rw [h]

theorem Turns.bind {middle : List Cell} {step : Build α} {next : α → Build β}
    {P : Store → α → Prop} {Q : Store → β → Prop} (h : Turns early l s before middle step P)
    (k : ∀ t a, s.Extends t → P t a → Turns early l t middle after (next a) Q) :
    Turns early l s before after (step >>= next) Q := by
  intro b hs hb
  obtain ⟨hmid, he, hP⟩ := h b hs hb
  obtain ⟨hend, he', hQ⟩ := k _ (step.run b).1 (hs.trans he) hP (step.run b).2 (.refl _) hmid
  exact ⟨hend, he.trans he', hQ⟩

theorem Turns.pure {a : α} {post : Store → α → Prop} (h : ∀ t, s.Extends t → post t a) :
    Turns early l s cells cells (Pure.pure a) post :=
  fun b hs hb => ⟨hb, .refl _, h b.store hs⟩

theorem turns_get :
    Turns early l s cells cells (get : Build Builder) fun _ b => b.env = l.env :=
  fun _ _ hb => ⟨hb, .refl _, hb.env⟩

theorem turns_height :
    Turns early l s cells cells Build.height
      fun _ count => count = Level.height (l.levels cells) :=
  fun _ _ hb => ⟨hb, .refl _, hb.backed.length_eq.1⟩

/-! ## The stack -/

theorem turns_push {id : NodeId} (hid : cell.Suits s (l.names early) id) :
    Turns early l s cells (cell :: cells) (push id) Whatever := by
  intro b hs hb
  obtain ⟨own, rest, hnodes, hown, hreplace⟩ := hb.backed.replace
  refine ⟨⟨hb.env, hb.errors, ?_⟩, .refl _, trivial⟩
  have hnew := hreplace (id :: own) (cell :: cells) (.cons (hid.extend hs) hown)
  rwa [List.cons_append, ← hnodes] at hnew

theorem turns_pop :
    Turns early l s (cell :: cells) cells pop fun t id => cell.Suits t (l.names early) id := by
  intro b hs hb
  obtain ⟨own, rest, hnodes, hown, hreplace⟩ := hb.backed.replace
  obtain ⟨id, others, hid, hothers, rfl⟩ := List.forall₂_cons_right_iff.1 hown
  have hrun : pop.run b = (id, { b with nodes := others ++ rest }) := by
    unfold pop
    rw [StateT.run_modifyGet, hnodes]
    rfl
  rw [hrun]
  exact ⟨⟨hb.env, hb.errors, hreplace others cells hothers⟩, .refl _, hid⟩

/-- What waits above a height is given out in the order in which it came. -/
theorem turns_split (own below : List Cell) :
    Turns early l s (own ++ below) below (Build.split (Level.height (l.levels below))) fun t ids =>
      List.Forall₂ (fun id cell => Cell.Suits t (l.names early) id cell) ids own.reverse := by
  intro b hs hb
  obtain ⟨ids, rest, hnodes, hids, hreplace⟩ := hb.backed.replace
  have hcount : b.nodes.length - Level.height (l.levels below) = own.length := by
    rw [hb.backed.length_eq.1, l.height_append]
    exact Nat.add_sub_cancel _ _
  have hle : own.length ≤ ids.length := by
    rw [hids.length_eq, List.length_append]
    exact Nat.le_add_right _ _
  have hrun : (Build.split (Level.height (l.levels below))).run b = ((ids.take own.length).reverse,
      { b with nodes := ids.drop own.length ++ rest }) := by
    unfold Build.split
    rw [StateT.run_modifyGet]
    dsimp only
    rw [hcount, hnodes, List.take_append_of_le_length hle, List.drop_append_of_le_length hle]
    rfl
  rw [hrun]
  refine ⟨⟨hb.env, hb.errors, hreplace _ below (List.forall₂_drop_append ids own below hids)⟩,
    .refl _, List.forall₂_reverse_iff.2 (List.forall₂_take_append ids own below hids)⟩

/-! ## Nodes -/

theorem turns_intern (node : Node) (coord : Option Coord) :
    Turns early l s cells cells (intern node coord) fun t id => t.node? id = some node := by
  intro b hs hb
  have he := b.store.extends_intern node coord
  exact ⟨⟨hb.env, hb.errors, hb.backed.mono he fun _ => id⟩, he, b.store.node?_intern node coord⟩

/-- A node that suits its cell. -/
theorem turns_pushNode (cell : Cell) {node : Node} {coord : Option Coord}
    (h : ∀ t id, s.Extends t → t.node? id = some node → cell.Suits t (l.names early) id) :
    Turns early l s cells (cell :: cells) (pushNode node coord) Whatever :=
  .bind (turns_intern node coord) fun t id ht hn => turns_push (h t id ht hn)

theorem turns_pushBranch (cell : Cell) {tag : Tag} {children : List NodeId} {coord : Option Coord}
    (h : ∀ t id, s.Extends t → t.node? id = some (.branch tag children) →
      cell.Suits t (l.names early) id) :
    Turns early l s cells (cell :: cells) (pushBranch tag children coord) Whatever :=
  .bind turns_get fun _ _ ht _ => turns_pushNode cell fun u id hu hn => h u id (ht.trans hu) hn

/-- A leaf that needs no names waits as a term or as a key. -/
theorem turns_pushScalar (cell : Cell) {node : Node} {coord : Option Coord}
    (hr : node.tag.role = .scalar) (hc : node.children = []) (hcell : cell ≠ .clause) :
    Turns early l s cells (cell :: cells) (pushNode node coord) Whatever :=
  turns_pushNode cell fun t id _ hn => by
    cases cell with
    | term => exact .scalar hn hr hc
    | clause => exact absurd rfl hcell
    | key => exact .scalar hn hr hc

/-- A node for some terms. -/
theorem turns_pushTerms {tag : Tag} (hr : tag.role = .terms) {children : List NodeId}
    (hc : ∀ child ∈ children, s.Scoped (l.names early) child) (coord : Option Coord) :
    Turns early l s cells (.term :: cells) (pushBranch tag children coord) Whatever :=
  turns_pushBranch .term fun _ _ ht hn => .terms hn hr fun child hm => (hc child hm).extend ht

theorem turns_pushConcat {parts : List NodeId}
    (hp : ∀ part ∈ parts, s.Scoped (l.names early) part) (coord : Option Coord) :
    Turns early l s cells (.term :: cells) (pushConcat parts coord) Whatever := by
  refine .bind (turns_intern _ _) fun t list ht hlist => turns_pushNode .term fun u id hu hn => ?_
  refine .terms hn rfl (List.forall_mem_singleton.2 (.terms (hu.node?_of_some hlist) rfl ?_))
  exact fun part hm => (hp part hm).extend (ht.trans hu)

/-- Folding fails, or it leaves names that stand for themselves. -/
theorem run_foldNode {b : Builder} (hb : l.Holds early cells b) {id : NodeId}
    (hid : b.store.Scoped (l.names early) id) :
    (∃ cause c, (foldNode id).run b = (.error cause, c)) ∨
      ∃ folded store, (foldNode id).run b = (.ok folded, { b with store }) ∧
        b.store.Extends store ∧
        store.Scoped (NamesIn (LeftOver early l.errors) (l.levels [])) folded := by
  have hfold : Fold.Makes b.store (fold b.env id) (Fold.AScoped _) :=
    makes_fold (hb.env ▸ hb.backed.scoped)
      (hid.mono fun name hname => hb.env ▸ hb.backed.allows hname)
  unfold foldNode
  rw [StateT.run_modifyGet]
  cases hrun : (fold b.env id).run.run b.store with
  | mk result store =>
    cases result with
    | error cause => exact .inl ⟨cause, _, rfl⟩
    | ok folded =>
      obtain ⟨he, hfolded⟩ := hfold b.store folded store (.refl _) hrun
      exact .inr ⟨folded, store, rfl, he, hfolded⟩

end Build

end Juxta
