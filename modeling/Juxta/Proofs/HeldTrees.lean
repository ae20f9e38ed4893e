import Juxta.Proofs.PlainTrees
import Juxta.Proofs.Refolding

/-!
# Trees in a store

What folding asks of a node depends on its tree alone, and not on the ids in it. A step that adds
nodes leaves the trees that were there before.

* `Store.Holds`, `Store.HoldsAll` : the trees under ids (`Store.Holds.extend`,
  `Store.Holds.of_branch`);
* `Store.Holds.unwrap`, `Store.HoldsAll.computed?` : what folding asks of them;
* `Fold.Builds` : steps that succeed and only add nodes, one after another (`Fold.Builds.bind`);
* `Fold.builds_intern`, `Fold.builds_operation` : the trees of new nodes.
-/

namespace Juxta

open Juxta.Tree (Plain)

/-- A node without what stands below it. -/
def Node.alone (node : Node) : Tree := .node node.tag <| node.slots.map fun
  | .text content => .text content
  | .flag value => .flag value
  | .node _ => .absent

/-! ## Trees in a store -/

namespace Store

variable {s t : Store} {id : NodeId} {tree : Tree}

/-- The tree under an id. -/
abbrev Holds (s : Store) (id : NodeId) (tree : Tree) : Prop := s.tree? id = some tree

/-- The trees under some ids. -/
abbrev HoldsAll (s : Store) (ids : List NodeId) (trees : List Tree) : Prop :=
  List.Forall₂ s.Holds ids trees

theorem Holds.knows (h : s.Holds id tree) (hs : s.Grounded) : s.Knows id := by
  have hn : s.node? id ≠ none := fun hnone => by
    have htree := (hs.tree?_eq_none_iff id).2 hnone
    cases htree.symm.trans h
  exact ((s.node?_ne_none_iff id).1 hn).2

theorem Holds.extend (h : s.Holds id tree) (hs : s.Grounded) (ht : t.Grounded)
    (he : s.Extends t) : t.Holds id tree :=
  (hs.tree?_extends ht he (h.knows hs)).trans h

theorem HoldsAll.extend {ids : List NodeId} {trees : List Tree} (h : s.HoldsAll ids trees)
    (hs : s.Grounded) (ht : t.Grounded) (he : s.Extends t) : t.HoldsAll ids trees :=
  h.imp fun _ _ hid => hid.extend hs ht he

theorem HoldsAll.knows {ids : List NodeId} {trees : List Tree} (h : s.HoldsAll ids trees)
    (hs : s.Grounded) : ∀ id ∈ ids, s.Knows id :=
  ((List.forall₂_and_left _ _).1 (h.imp fun _ _ hid => ⟨hid.knows hs, hid⟩)).1

theorem HoldsAll.of_single {ids : List NodeId} (h : s.HoldsAll ids [tree]) :
    ∃ id, ids = [id] ∧ s.Holds id tree := by
  match h with
  | .cons hid .nil => exact ⟨_, rfl, hid⟩

theorem HoldsAll.of_pair {ids : List NodeId} {left right : Tree}
    (h : s.HoldsAll ids [left, right]) :
    ∃ first second, ids = [first, second] ∧ s.Holds first left ∧ s.Holds second right := by
  match h with
  | .cons hfirst (.cons hsecond .nil) => exact ⟨_, _, rfl, hfirst, hsecond⟩

/-- The node of a tree. -/
theorem Holds.exists_node (h : s.Holds id tree) (hs : s.Grounded) :
    ∃ slots, s.node? id = some ⟨tree.tag, slots⟩ ∧ slots.map s.part = tree.parts := by
  rw [Holds, hs.tree?_eq] at h
  obtain ⟨⟨tag, slots⟩, hn, rfl⟩ := Option.map_eq_some_iff.1 h
  exact ⟨slots, hn, rfl⟩

theorem part_eq_tree {slot : Slot} (h : s.part slot = .tree tree) :
    ∃ child, slot = .node child ∧ s.Holds child tree := by
  unfold part at h
  split at h
  · rename_i child
    split at h
    · rename_i htree
      cases h
      exact ⟨child, rfl, htree⟩
    · cases h
  · cases h
  · cases h

theorem part_eq_absent {slot : Slot} (hk : ∀ child, slot = .node child → s.Knows child)
    (h : s.part slot = .absent) : slot = .node .absent := by
  unfold part at h
  split at h
  · rename_i child
    split at h
    · cases h
    · rename_i htree
      rw [(hk child rfl).eq_absent htree]
  · cases h
  · cases h

theorem parts_eq_trees {slots : List Slot} {trees : List Tree}
    (h : slots.map s.part = trees.map .tree) :
    ∃ ids, slots = ids.map .node ∧ s.HoldsAll ids trees := by
  induction slots generalizing trees with
  | nil =>
    rw [List.map_nil, eq_comm, List.map_eq_nil_iff] at h
    exact ⟨[], rfl, h ▸ .nil⟩
  | cons slot rest ih =>
    obtain ⟨tree, others, rfl, hslot, hrest⟩ := List.map_eq_cons_iff.1 h.symm
    obtain ⟨child, rfl, hchild⟩ := part_eq_tree hslot.symm
    obtain ⟨ids, rfl, hids⟩ := ih hrest.symm
    exact ⟨child :: ids, rfl, .cons hchild hids⟩

theorem Holds.of_branch {tag : Tag} {trees : List Tree} (h : s.Holds id (.branch tag trees))
    (hs : s.Grounded) :
    ∃ ids, s.node? id = some (.branch tag ids) ∧ s.HoldsAll ids trees := by
  obtain ⟨slots, hn, hparts⟩ := h.exists_node hs
  obtain ⟨ids, rfl, hids⟩ := parts_eq_trees hparts
  exact ⟨ids, hn, hids⟩

theorem Holds.of_leaf {tag : Tag} {text : String} (h : s.Holds id (.leaf tag text))
    (hs : s.Grounded) : s.node? id = some (.leaf tag text) := by
  obtain ⟨slots, hn, hparts⟩ := h.exists_node hs
  obtain ⟨slot, rfl, hslot⟩ := List.map_eq_singleton_iff.1 hparts
  rw [hn]
  unfold part at hslot
  split at hslot
  · split at hslot <;> cases hslot
  · cases hslot
    rfl
  · cases hslot

theorem holds_of_branch (hs : s.Grounded) {tag : Tag} {ids : List NodeId} {trees : List Tree}
    (hn : s.node? id = some (.branch tag ids)) (h : s.HoldsAll ids trees) :
    s.Holds id (.branch tag trees) := by
  rw [Holds, hs.tree?_eq, hn, Option.map_some, Tree.branch]
  refine congrArg (fun parts => some (Tree.node tag parts)) ?_
  show (ids.map Slot.node).map s.part = trees.map .tree
  clear hn
  induction h with
  | nil => rfl
  | @cons child tree rest trees hchild _ ih =>
    rw [List.map_cons, List.map_cons, List.map_cons, ih, part, hchild]

theorem holds_alone (hs : s.Grounded) {node : Node} (hn : s.node? id = some node)
    (hc : node.children = []) : s.Holds id node.alone := by
  rw [Holds, hs.tree?_eq, hn]
  refine congrArg (fun parts => some (Tree.node node.tag parts)) ?_
  refine List.map_congr_left fun slot hm => ?_
  cases slot with
  | node child => exact absurd (hc ▸ Node.mem_children.2 hm) List.not_mem_nil
  | text content => rfl
  | flag value => rfl

theorem Holds.of_lambda {params : List String} {body : Tree}
    (h : s.Holds id (.lambda params body)) (hs : s.Grounded) :
    ∃ list inner, s.node? id = some (.branch .lambda [list, inner]) ∧
      s.Holds list (.branch .list (params.map (.leaf .ident))) ∧ s.Holds inner body ∧
      s.params id = params := by
  obtain ⟨_, hn, hids⟩ := h.of_branch hs
  obtain ⟨list, inner, rfl, hlist, hbody⟩ := hids.of_pair
  refine ⟨list, inner, hn, hlist, hbody, ?_⟩
  obtain ⟨leaves, hnl, hleaves⟩ := hlist.of_branch hs
  have hnames := List.forall₂_map_right_iff.1 hleaves
  exact Store.params_eq hn hnl (hnames.imp fun _ _ hleaf => hleaf.of_leaf hs)

/-- The second branch of a conditional, or the absent id if there is none. -/
def HoldsBranch (s : Store) (id : NodeId) : (no : Option Tree) → Prop
  | some tree => s.Holds id tree
  | none => id = .absent

theorem HoldsBranch.extend {no : Option Tree} (h : s.HoldsBranch id no) (hs : s.Grounded)
    (ht : t.Grounded) (he : s.Extends t) : t.HoldsBranch id no := by
  cases no with
  | none => exact h
  | some tree => exact Holds.extend h hs ht he

theorem HoldsBranch.knows {no : Option Tree} (h : s.HoldsBranch id no) (hs : s.Grounded) :
    s.Knows id := by
  cases no with
  | none =>
    obtain rfl : id = .absent := h
    exact s.knows_absent
  | some tree => exact Holds.knows h hs

theorem Holds.of_choice {condition yes : Tree} {no : Option Tree}
    (h : s.Holds id (Tree.choice condition yes no)) (hs : s.Grounded) :
    ∃ first second third, s.node? id = some (.branch .ifThen [first, second, third]) ∧
      s.Holds first condition ∧ s.Holds second yes ∧ s.HoldsBranch third no := by
  obtain ⟨slots, hn, hparts⟩ := h.exists_node hs
  obtain ⟨one, slots, rfl, hone, hparts⟩ := List.map_eq_cons_iff.1 hparts
  obtain ⟨two, slots, rfl, htwo, hparts⟩ := List.map_eq_cons_iff.1 hparts
  obtain ⟨three, rfl, hthree⟩ := List.map_eq_singleton_iff.1 hparts
  obtain ⟨first, rfl, hfirst⟩ := part_eq_tree hone
  obtain ⟨second, rfl, hsecond⟩ := part_eq_tree htwo
  cases no with
  | some no =>
    obtain ⟨third, rfl, hthird⟩ := part_eq_tree hthree
    exact ⟨first, second, third, hn, hfirst, hsecond, hthird⟩
  | none =>
    refine ⟨first, second, .absent, ?_, hfirst, hsecond, rfl⟩
    rw [hn, part_eq_absent (fun child hchild => ?_) hthree]
    · rfl
    · subst hchild
      exact hs.knows_of_mem hn (List.mem_cons_of_mem _ (List.mem_cons_of_mem _ List.mem_cons_self))

theorem holds_choice (hs : s.Grounded) {first second third : NodeId} {condition yes : Tree}
    {no : Option Tree} (hn : s.node? id = some (.branch .ifThen [first, second, third]))
    (hfirst : s.Holds first condition) (hsecond : s.Holds second yes)
    (hthird : s.HoldsBranch third no) : s.Holds id (Tree.choice condition yes no) := by
  rw [Holds, hs.tree?_eq, hn]
  refine congrArg (fun parts => some (Tree.node .ifThen parts)) ?_
  show [s.part (.node first), s.part (.node second), s.part (.node third)] = _
  cases no with
  | some no =>
    have hthird : s.tree? third = some no := hthird
    simp only [part, hfirst, hsecond, hthird]
  | none =>
    obtain rfl : third = .absent := hthird
    have habsent : s.tree? .absent = none := (hs.tree?_eq_none_iff .absent).2 rfl
    simp only [part, hfirst, hsecond, habsent]

/-! ## What a store tells of trees -/

theorem Holds.tag? (h : s.Holds id tree) (hs : s.Grounded) : s.tag? id = some tree.tag := by
  obtain ⟨slots, hn, -⟩ := h.exists_node hs
  rw [Store.tag?, hn]
  rfl

theorem text?_of_parts {node : Node} (h : node.slots.map s.part = tree.parts) :
    node.text? = tree.text? := by
  obtain ⟨tag, slots⟩ := node
  obtain ⟨tag', parts⟩ := tree
  obtain rfl : slots.map s.part = parts := h
  match slots with
  | [] => rfl
  | .node child :: rest =>
    show none = Tree.text? (.node tag' (s.part (.node child) :: rest.map s.part))
    unfold part
    dsimp only
    split <;> rfl
  | .text content :: rest => rfl
  | .flag value :: rest => rfl

theorem flag?_of_parts {node : Node} (h : node.slots.map s.part = tree.parts) :
    node.flag? = tree.head.flag? := by
  obtain ⟨tag, slots⟩ := node
  obtain ⟨tag', parts⟩ := tree
  obtain rfl : slots.map s.part = parts := h
  match slots with
  | [] => rfl
  | .node child :: rest =>
    show none = (Tree.head (.node tag' (s.part (.node child) :: rest.map s.part))).flag?
    unfold part
    dsimp only
    split <;> rfl
  | .text content :: rest => rfl
  | .flag value :: rest => rfl

theorem Holds.literalNumber? (h : s.Holds id tree) (hs : s.Grounded) :
    s.literalNumber? id = tree.number? := by
  obtain ⟨slots, hn, hparts⟩ := h.exists_node hs
  rw [Store.literalNumber?, hn, Tree.number?]
  dsimp only
  rw [text?_of_parts hparts]

theorem Holds.literalTruth? (h : s.Holds id tree) (hs : s.Grounded) :
    s.literalTruth? id = tree.truth? := by
  obtain ⟨slots, hn, hparts⟩ := h.exists_node hs
  rw [Store.literalTruth?, hn]
  dsimp only
  rw [text?_of_parts hparts, flag?_of_parts hparts]
  unfold Tree.truth?
  cases tree.tag <;> rfl

/-- The id of the only term of a sequence, or the id of any other tree. -/
theorem Holds.unwrap (h : s.Holds id tree) (hs : s.Grounded) {names : String → Prop} {room : Nat}
    (hp : Plain names room tree) : s.Holds (s.unwrap id) tree.unwrapped := by
  by_cases htag : tree.tag = .exprs
  · obtain ⟨terms, rfl, -⟩ := hp.exists_terms htag
    obtain ⟨ids, hn, hids⟩ := h.of_branch hs
    rw [Store.unwrap, hn]
    match hids with
    | .nil => exact h
    | .cons honly .nil => exact honly
    | .cons _ (.cons _ _) => exact h
  · obtain ⟨slots, hn, -⟩ := h.exists_node hs
    have hid : s.unwrap id = id := by
      rw [Store.unwrap, hn]
      split
      · rename_i hnode
        exact absurd (congrArg Node.tag (Option.some.inj hnode)) htag
      · rename_i hnode
        exact absurd (congrArg Node.tag (Option.some.inj hnode)) htag
      · rfl
    rwa [hid, Tree.unwrapped_of_tag htag]

/-- Operations on literals have the same results. -/
theorem HoldsAll.computed? {ids : List NodeId} {trees : List Tree} (h : s.HoldsAll ids trees)
    (hs : s.Grounded) (tag : Tag) :
    Tree.computed? tag trees = (s.computed? tag ids).map Node.alone := by
  match h with
  | .nil => rfl
  | .cons honly .nil =>
    rw [Tree.computed?, Store.computed?, ← honly.literalNumber? hs]
    split
    · rw [Option.map_map]
      rfl
    · rfl
  | .cons hleft (.cons hright .nil) =>
    rename_i left _ right _
    rw [Tree.computed?, Store.computed?, ← hleft.literalNumber? hs, ← hright.literalNumber? hs]
    cases s.literalNumber? left with
    | none => rfl
    | some l => cases s.literalNumber? right with
      | none => rfl
      | some r =>
        simp only [bind, Option.bind_some]
        cases tag <;>
          · dsimp only
            rw [Option.map_map]
            rfl
  | .cons _ (.cons _ (.cons _ _)) => rfl

end Store

/-! ## Steps -/

namespace Fold

variable {α β : Type} {s t : Store}

/-- A step that succeeds and only adds nodes. Its result satisfies a condition together with the new
store. -/
def Builds (s : Store) (step : Fold α) (post : Store → α → Prop) : Prop :=
  ∃ a t, Gives s step a t ∧ s.Extends t ∧ t.Grounded ∧ post t a

theorem Builds.pure {a : α} {post : Store → α → Prop} (hs : s.Grounded) (h : post s a) :
    Builds s (Pure.pure a) post := ⟨a, s, gives_pure s a, .refl s, hs, h⟩

theorem Builds.bind {step : Fold α} {next : α → Fold β} {P : Store → α → Prop}
    {Q : Store → β → Prop} (h : Builds s step P)
    (k : ∀ t a, s.Extends t → t.Grounded → P t a → Builds t (next a) Q) :
    Builds s (step >>= next) Q := by
  obtain ⟨a, t, hstep, he, ht, ha⟩ := h
  obtain ⟨b, u, hnext, he', hu, hb⟩ := k t a he ht ha
  exact ⟨b, u, hstep.bind hnext, he.trans he', hu, hb⟩

theorem Builds.imp {step : Fold α} {P Q : Store → α → Prop} (h : Builds s step P)
    (hPQ : ∀ t a, s.Extends t → t.Grounded → P t a → Q t a) : Builds s step Q := by
  obtain ⟨a, t, hstep, he, ht, ha⟩ := h
  exact ⟨a, t, hstep, he, ht, hPQ t a he ht ha⟩

theorem Gives.builds {step : Fold α} {a : α} {post : Store → α → Prop} (h : Gives s step a s)
    (hs : s.Grounded) (hpost : post s a) : Builds s step post := ⟨a, s, h, .refl s, hs, hpost⟩

/-- The store as it is. -/
theorem Builds.get {next : Store → Fold β} {Q : Store → β → Prop} (h : Builds s (next s) Q) :
    Builds s (MonadState.get >>= next) Q := by
  obtain ⟨b, t, hnext, hrest⟩ := h
  exact ⟨b, t, (gives_get s).bind hnext, hrest⟩

/-- A tree. -/
abbrev Tells (tree : Tree) (t : Store) (id : NodeId) : Prop := t.Holds id tree

/-- Trees. -/
abbrev TellsAll (trees : List Tree) (t : Store) (ids : List NodeId) : Prop := t.HoldsAll ids trees

theorem builds_intern (hs : s.Grounded) (tag : Tag) {ids : List NodeId} {trees : List Tree}
    (h : s.HoldsAll ids trees) (coord : Option Coord) :
    Builds s (intern (.branch tag ids) coord) (Tells (.branch tag trees)) := by
  have hknows : ∀ child ∈ (Node.branch tag ids).children, s.Knows child := by
    rw [Node.children_branch]
    exact h.knows hs
  have ht : (s.intern (.branch tag ids) coord).2.Grounded := hs.intern hknows
  refine ⟨_, _, rfl, s.extends_intern _ _, ht, ?_⟩
  exact Store.holds_of_branch ht (s.node?_intern _ _) (h.extend hs ht (s.extends_intern _ _))

theorem builds_rebuild (hs : s.Grounded) {tag : Tag} {ids : List NodeId} {trees : List Tree}
    (h : s.HoldsAll ids trees) (origin : NodeId) :
    Builds s (rebuild origin tag ids) (Tells (.branch tag trees)) := builds_intern hs tag h _

/-- A node with nothing below it. -/
theorem builds_alone (hs : s.Grounded) (node : Node) (hc : node.children = [])
    (coord : Option Coord) : Builds s (intern node coord) (Tells node.alone) := by
  have ht : (s.intern node coord).2.Grounded := hs.intern (hc ▸ List.forall_mem_nil _)
  exact ⟨_, _, rfl, s.extends_intern _ _, ht, Store.holds_alone ht (s.node?_intern _ _) hc⟩

theorem builds_operation (hs : s.Grounded) {ids : List NodeId} {trees : List Tree}
    (h : s.HoldsAll ids trees) (origin : NodeId) (tag : Tag) :
    Builds s (operation origin tag ids) (Tells (Tree.operated tag trees)) := by
  unfold operation Tree.operated
  refine .get ?_
  rw [h.computed? hs]
  cases hresult : s.computed? tag ids with
  | none => exact builds_rebuild hs h origin
  | some result => exact builds_alone hs result (Store.children_of_computed? hresult) none

end Fold

end Juxta
