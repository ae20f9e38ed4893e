import Mathlib.Data.List.Forall2
import Mathlib.Data.List.Induction
import Mathlib.Data.List.Nodup
import Juxta.Proofs.Grounded

/-!
# One id for every tree

The stores that are built from the empty one keep every tree once.

* `Store.Extends` : more nodes, with the old ones and their places as they were;
* `Store.Reached` : what interning and loading make of the empty store;
* `Store.nodes`, `Store.ofNodes` : the nodes of a store in order, and stores of given nodes;
* `Slot.Corresponds` : slots with the same scalar, or with ids that are related;
* `Store.Grounded.tree?_eq` : the tree under an id, from the trees under the children;
* `Store.Grounded.tree?_inj`, `Store.Grounded.internTree_tree` : equal trees have equal ids, and a
  tree that is stored keeps its id;
* `Store.Grounded.tree?_internTree`, `Store.Grounded.tree?_extends` : a tree is found under the id
  that storing it returns, in every larger store too;
* `Store.Reached.canonical` : all of this for the stores that are reached.
-/

namespace Juxta

/-- Slots that hold the same scalar, or ids that are related. -/
inductive Slot.Corresponds (R : NodeId → NodeId → Prop) : Slot → Slot → Prop where
  | node {a b : NodeId} : R a b → Corresponds R (.node a) (.node b)
  | text (content : String) : Corresponds R (.text content) (.text content)
  | flag (value : Bool) : Corresponds R (.flag value) (.flag value)

theorem Slot.Corresponds.eq {slot slot' : Slot} (h : slot.Corresponds Eq slot') : slot = slot' := by
  cases h with
  | node hid => exact congrArg Slot.node hid
  | text content => rfl
  | flag value => rfl

namespace Store

variable {s t u : Store}

/-! ## Larger stores -/

/-- The ids of `s` have the same nodes and the same places in `t`. -/
def Extends (s t : Store) : Prop :=
  ∀ id, s.node? id ≠ none → t.node? id = s.node? id ∧ t.coord? id = s.coord? id

theorem Extends.refl (s : Store) : s.Extends s := fun _ _ => ⟨rfl, rfl⟩

theorem Extends.trans (h : s.Extends t) (h' : t.Extends u) : s.Extends u := by
  intro id hid
  obtain ⟨hnode, hcoord⟩ := h id hid
  obtain ⟨hnode', hcoord'⟩ := h' id (hnode ▸ hid)
  exact ⟨hnode'.trans hnode, hcoord'.trans hcoord⟩

theorem Extends.knows (h : s.Extends t) {id : NodeId} (hid : s.Knows id) : t.Knows id := by
  by_cases hpos : 0 < id.index
  · have hn := (s.node?_ne_none_iff id).2 ⟨hpos, hid⟩
    exact ((t.node?_ne_none_iff id).1 ((h id hn).1 ▸ hn)).2
  · exact Nat.le_trans (Nat.le_of_not_lt hpos) (Nat.zero_le _)

theorem extends_push (s : Store) (node : Node) (coord : Option Coord)
    (fresh : s.index[node]? = none) : s.Extends (s.push node coord fresh) := by
  intro id hid
  obtain ⟨hpos, hknows⟩ := (s.node?_ne_none_iff id).1 hid
  have hentry : entry? (s.push node coord fresh) id = entry? s id := by
    unfold Knows size at hknows
    unfold entry? push
    rw [Array.getElem?_push_lt (by omega), Array.getElem?_eq_getElem (by omega)]
  unfold node? coord?
  rw [hentry]
  exact ⟨rfl, rfl⟩

theorem extends_intern (s : Store) (node : Node) (coord : Option Coord) :
    s.Extends (s.intern node coord).2 := by
  unfold intern
  split
  · exact .refl s
  · exact s.extends_push node coord (by assumption)

/-- A node that is stored keeps its id, and the store stays as it is. -/
theorem intern_of_node? {id : NodeId} {node : Node} (h : s.node? id = some node)
    (coord : Option Coord) : s.intern node coord = (id, s) := by
  have hfound := (s.node?_eq_some_iff id node).1 h
  unfold find? at hfound
  unfold intern
  split
  · rename_i other hother
    rw [hfound] at hother
    cases hother
    rfl
  · rename_i hnone
    rw [hfound] at hnone
    cases hnone

/-- A node that is not stored yet is stored last. -/
theorem intern_of_fresh {node : Node} (h : s.index[node]? = none) (coord : Option Coord) :
    s.intern node coord = (⟨s.size + 1⟩, s.push node coord h) := by
  unfold intern
  split
  · rename_i hsome
    cases h.symm.trans hsome
  · rfl

/-! ## Stores of several nodes -/

/-- The nodes in the order in which they were stored. -/
def nodes (s : Store) : List Node := s.entries.toList.map Entry.node

/-- The empty store with some nodes added, which have no places. -/
def ofNodes (nodes : List Node) : Store :=
  nodes.foldl (fun s node => (s.intern node none).2) .empty

section

variable {nodes : List Node}

theorem node?_of_nodes (h : s.nodes = nodes) (i : Nat) : s.node? ⟨i + 1⟩ = nodes[i]? := by
  subst h
  simp [Store.nodes, node?, entry?]

/-- Children are among the nodes that were stored before. -/
theorem grounded_of_nodes (h : s.nodes = nodes)
    (hc : ∀ placed ∈ nodes.zipIdx, ∀ child ∈ placed.1.children, child.index ≤ placed.2) :
    s.Grounded := by
  intro id node hn child hm
  obtain ⟨hpos, -⟩ := (s.node?_ne_none_iff id).1 (hn ▸ Option.some_ne_none node)
  obtain ⟨index⟩ := id
  obtain ⟨i, rfl⟩ := Nat.exists_eq_add_one.2 hpos
  rw [node?_of_nodes h] at hn
  exact Nat.lt_succ_of_le (hc (node, i) (List.mem_zipIdx_iff_getElem?.2 hn) child hm)

/-- A node that is not among those that are stored comes after them. -/
theorem intern_next (h : s.nodes = nodes) {node : Node} (hfresh : node ∉ nodes)
    (coord : Option Coord) :
    ∃ t, s.intern node coord = (⟨nodes.length + 1⟩, t) ∧ t.nodes = nodes ++ [node] := by
  subst h
  have hnone : s.index[node]? = none := by
    rw [Option.eq_none_iff_forall_ne_some]
    intro id hid
    obtain ⟨-, hentry⟩ := (s.index_iff node id).1 hid
    obtain ⟨entry, hentry, hnode⟩ := Option.map_eq_some_iff.1 hentry
    have hmem : entry ∈ s.entries.toList := Array.mem_toList_iff.2 (Array.mem_of_getElem? hentry)
    exact hfresh (List.mem_map.2 ⟨entry, hmem, hnode⟩)
  refine ⟨_, (intern_of_fresh hnone coord).trans (congrArg (·, _) ?_), ?_⟩
  · simp [Store.nodes, size]
  · simp [Store.nodes, push]

/-- The next of several nodes that are different. -/
theorem intern_nth {count : Nat} (h : s.nodes = nodes.take count) (hnodup : nodes.Nodup)
    {node : Node} (hnode : nodes[count]? = some node) (coord : Option Coord) :
    ∃ t, s.intern node coord = (⟨count + 1⟩, t) ∧ t.nodes = nodes.take (count + 1) := by
  obtain ⟨hlt, rfl⟩ := List.getElem?_eq_some_iff.1 hnode
  have hlength : (nodes.take count).length = count := List.length_take_of_le (Nat.le_of_lt hlt)
  have hfresh : nodes[count] ∉ nodes.take count := by
    intro hm
    obtain ⟨i, hi, heq⟩ := List.mem_take_iff_getElem.1 hm
    have := (List.Nodup.getElem_inj_iff hnodup).1 heq
    omega
  obtain ⟨t, hintern, ht⟩ := intern_next h hfresh coord
  rw [hlength] at hintern
  exact ⟨t, hintern, ht.trans (List.take_append_getElem hlt)⟩

theorem nodes_ofNodes (h : nodes.Nodup) : (ofNodes nodes).nodes = nodes := by
  induction nodes using List.reverseRecOn with
  | nil => rfl
  | append_singleton rest node ih =>
    obtain ⟨hrest, -, hfresh⟩ := List.nodup_append'.1 h
    have hnode : node ∉ rest := fun hm => hfresh hm List.mem_cons_self
    obtain ⟨t, hintern, ht⟩ := intern_next (ih hrest) hnode none
    have hlast : ofNodes (rest ++ [node]) = ((ofNodes rest).intern node none).2 := by
      unfold ofNodes
      rw [List.foldl_append]
      rfl
    rw [hlast, hintern]
    exact ht

end

/-! ## Storing trees -/

/-- What storing a tree makes of a grounded store; `ids` are the ids that it returns. -/
structure Stored (s t : Store) (ids : List NodeId) : Prop where
  grounded : t.Grounded
  extended : s.Extends t
  knows : ∀ id ∈ ids, t.Knows id

mutual

theorem Grounded.stored_internTree {s : Store} (h : s.Grounded) (tree : Tree) :
    s.Stored (s.internTree tree).2 [(s.internTree tree).1] := by
  obtain ⟨tag, parts⟩ := tree
  have hparts := h.stored_internParts parts
  rw [internTree]
  generalize s.internParts parts = stored at hparts ⊢
  obtain ⟨slots, t⟩ := stored
  dsimp only at hparts ⊢
  refine ⟨hparts.grounded.intern hparts.knows,
    hparts.extended.trans (t.extends_intern ⟨tag, slots⟩ none), ?_⟩
  rw [List.forall_mem_singleton]
  exact t.knows_intern ⟨tag, slots⟩ none

theorem Grounded.stored_internParts {s : Store} (h : s.Grounded) (parts : List Tree.Part) :
    s.Stored (s.internParts parts).2 ((s.internParts parts).1.filterMap Slot.id?) := by
  match parts with
  | [] => exact ⟨h, .refl s, fun _ hm => absurd hm List.not_mem_nil⟩
  | part :: rest =>
    have hpart := h.stored_internPart part
    rw [internParts]
    generalize s.internPart part = stored at hpart ⊢
    obtain ⟨slot, t⟩ := stored
    have hrest := hpart.grounded.stored_internParts rest
    dsimp only at hpart hrest ⊢
    refine ⟨hrest.grounded, hpart.extended.trans hrest.extended, fun id hm => ?_⟩
    rw [← List.singleton_append, List.filterMap_append, List.mem_append] at hm
    rcases hm with hfirst | hlater
    · exact hrest.extended.knows (hpart.knows id hfirst)
    · exact hrest.knows id hlater

theorem Grounded.stored_internPart {s : Store} (h : s.Grounded) (part : Tree.Part) :
    s.Stored (s.internPart part).2 ([(s.internPart part).1].filterMap Slot.id?) := by
  match part with
  | .tree tree => exact h.stored_internTree tree
  | .text content => exact ⟨h, .refl s, fun _ hm => absurd hm List.not_mem_nil⟩
  | .flag value => exact ⟨h, .refl s, fun _ hm => absurd hm List.not_mem_nil⟩
  | .absent =>
    refine ⟨h, .refl s, fun id hm => ?_⟩
    rw [List.eq_of_mem_singleton hm]
    exact s.knows_absent

end

/-! ## The tree under an id -/

/-- What a slot contributes to the tree of its node. -/
def part (s : Store) : Slot → Tree.Part
  | .node child => match s.tree? child with
    | some tree => .tree tree
    | none => .absent
  | .text content => .text content
  | .flag value => .flag value

/-- An id that is known and has no tree is absent. -/
theorem Knows.eq_absent {id : NodeId} (h : s.Knows id) (htree : s.tree? id = none) :
    id = .absent := by
  obtain ⟨index⟩ := id
  cases index with
  | zero => rfl
  | succ index =>
    obtain ⟨tree, hsome⟩ := exists_tree ((s.node?_ne_none_iff _).2 ⟨Nat.succ_pos index, h⟩)
    rw [htree] at hsome
    cases hsome

/-- Equal parts come from slots that correspond, if equal trees come from ids that are related. -/
theorem slot_corresponds_of_part {R : NodeId → NodeId → Prop} {slot slot' : Slot}
    (hp : s.part slot = t.part slot')
    (hid : ∀ c d, slot = .node c → slot' = .node d → s.tree? c = t.tree? d → R c d) :
    slot.Corresponds R slot' := by
  cases slot <;> cases slot' <;> simp only [part] at hp
  case node.node c d =>
    refine .node (hid c d rfl rfl ?_)
    cases hc : s.tree? c <;> cases hd : t.tree? d <;> simp_all
  case node.text | node.flag | text.node | flag.node => split at hp <;> cases hp
  all_goals cases hp
  · exact .text _
  · exact .flag _

theorem slots_correspond_of_parts {R : NodeId → NodeId → Prop} {slots slots' : List Slot}
    (hp : slots.map s.part = slots'.map t.part)
    (hid : ∀ c d, .node c ∈ slots → .node d ∈ slots' → s.tree? c = t.tree? d → R c d) :
    List.Forall₂ (Slot.Corresponds R) slots slots' := by
  have hlength : slots.length = slots'.length := by simpa using congrArg List.length hp
  refine List.forall₂_iff_get.2 ⟨hlength, fun i hi hi' => ?_⟩
  refine slot_corresponds_of_part (s := s) (t := t) ?_ fun c d hc hd => ?_
  · simpa [List.getElem?_eq_getElem, hi, hi'] using congrArg (·[i]?) hp
  · exact hid c d (hc ▸ List.get_mem slots _) (hd ▸ List.get_mem slots' _)

/-- Storing the parts of a stored node gives back its slots. -/
theorem internParts_parts (s : Store) {slots : List Slot}
    (h : ∀ child, .node child ∈ slots → s.Knows child ∧
      ∀ tree, s.tree? child = some tree → s.internTree tree = (child, s)) :
    s.internParts (slots.map s.part) = (slots, s) := by
  induction slots with
  | nil => rfl
  | cons slot rest ih =>
    have hslot : s.internPart (s.part slot) = (slot, s) := by
      cases slot with
      | node child =>
        obtain ⟨hknows, htree⟩ := h child (List.mem_cons_self ..)
        unfold part
        dsimp only
        split
        · rename_i tree hsome
          rw [internPart, htree tree hsome]
        · rename_i hnone
          rw [internPart, hknows.eq_absent hnone]
      | text content => rfl
      | flag value => rfl
    have hrest := ih fun child hm => h child (List.mem_cons_of_mem slot hm)
    rw [List.map_cons, internParts, hslot]
    dsimp only
    rw [hrest]

theorem treeTo_eq_none {id : NodeId} (h : s.node? id = none) (depth : Nat) :
    s.treeTo depth id = none := by
  cases depth with
  | zero => rfl
  | succ depth =>
    unfold treeTo
    rw [h]
    rfl

namespace Grounded

/-- Depths that the number of the node does not exceed all give the same tree. -/
theorem treeTo_eq (h : s.Grounded) {id : NodeId} {depth depth' : Nat} (hd : id.index ≤ depth)
    (hd' : id.index ≤ depth') : s.treeTo depth id = s.treeTo depth' id := by
  induction depth generalizing id depth' with
  | zero =>
    have hn : s.node? id = none := by
      unfold node? entry?
      rw [if_pos (Nat.le_zero.1 hd)]
      rfl
    rw [treeTo_eq_none hn, treeTo_eq_none hn]
  | succ depth ih =>
    cases hn : s.node? id with
    | none => rw [treeTo_eq_none hn, treeTo_eq_none hn]
    | some node =>
      obtain ⟨hpos, -⟩ := (s.node?_ne_none_iff id).1 (by rw [hn]; nofun)
      obtain ⟨depth', rfl⟩ :=
        Nat.exists_eq_succ_of_ne_zero (Nat.ne_of_gt (Nat.lt_of_lt_of_le hpos hd'))
      have hchildren : ∀ child, .node child ∈ node.slots →
          s.treeTo depth child = s.treeTo depth' child := by
        intro child hm
        have hlt := h id node hn child (Node.mem_children.2 hm)
        exact ih (by omega) (by omega)
      unfold treeTo
      rw [hn]
      refine congrArg (fun parts => some (Tree.node node.tag parts)) ?_
      refine List.map_congr_left fun slot hm => ?_
      cases slot with
      | node child =>
        dsimp only
        rw [hchildren child hm]
      | text content => rfl
      | flag value => rfl

/-- The tree under an id, from the trees under its children. -/
theorem tree?_eq (h : s.Grounded) (id : NodeId) :
    s.tree? id = (s.node? id).map fun node => .node node.tag (node.slots.map s.part) := by
  cases hn : s.node? id with
  | none => exact treeTo_eq_none hn s.size
  | some node =>
    have hid := knows_of_node? hn
    have hdepth : s.tree? id = s.treeTo (s.size + 1) id := h.treeTo_eq hid (Nat.le_succ_of_le hid)
    rw [hdepth]
    unfold treeTo
    rw [hn]
    rfl

theorem tree?_eq_none_iff (h : s.Grounded) (id : NodeId) :
    s.tree? id = none ↔ s.node? id = none := by
  rw [h.tree?_eq, Option.map_eq_none_iff]

/-- Where two stores have the same tree, both have a node, with the same tag and the same parts. -/
theorem exists_node_of_tree?_eq (hs : s.Grounded) (ht : t.Grounded) {a b : NodeId} {node : Node}
    (htree : s.tree? a = t.tree? b) (hn : s.node? a = some node) : ∃ other,
      t.node? b = some other ∧ node.tag = other.tag ∧
        node.slots.map s.part = other.slots.map t.part := by
  obtain ⟨other, ho⟩ : ∃ other, t.node? b = some other := by
    rw [← Option.ne_none_iff_exists', ne_eq, ← ht.tree?_eq_none_iff, ← htree,
      hs.tree?_eq_none_iff, hn]
    nofun
  rw [hs.tree?_eq, ht.tree?_eq, hn, ho, Option.map_some, Option.map_some, Option.some.injEq,
    Tree.node.injEq] at htree
  exact ⟨other, ho, htree⟩

/-- Equal trees have equal ids. -/
theorem tree?_inj (h : s.Grounded) {a b : NodeId} (ha : s.Knows a) (hb : s.Knows b)
    (htree : s.tree? a = s.tree? b) : a = b := by
  induction hi : a.index using Nat.strongRecOn generalizing a b with
  | ind index ih =>
    cases hna : s.node? a with
    | none =>
      have hta := (h.tree?_eq_none_iff a).2 hna
      rw [ha.eq_absent hta, hb.eq_absent (htree ▸ hta)]
    | some node =>
      obtain ⟨other, hnb, htag, hparts⟩ := h.exists_node_of_tree?_eq h htree hna
      have hslots : node.slots = other.slots := by
        have hall : List.Forall₂ (Slot.Corresponds Eq) node.slots other.slots := by
          refine slots_correspond_of_parts hparts fun c d hc hd hcd => ?_
          have hc := Node.mem_children.2 hc
          have hd := Node.mem_children.2 hd
          exact ih _ (hi ▸ h a node hna c hc) (h.knows_of_mem hna hc) (h.knows_of_mem hnb hd) hcd
            rfl
        exact List.forall₂_eq_eq_eq ▸ hall.imp fun _ _ hslot => hslot.eq
      have hsame : node = other := by
        obtain ⟨tag, slots⟩ := node
        obtain ⟨tag', slots'⟩ := other
        rw [Node.mk.injEq]
        exact ⟨htag, hslots⟩
      rw [hsame, s.node?_eq_some_iff] at hna
      rw [s.node?_eq_some_iff, hna] at hnb
      exact Option.some.inj hnb

/-- Storing a tree that is stored returns its id and changes nothing. -/
theorem internTree_tree (h : s.Grounded) {id : NodeId} {tree : Tree}
    (htree : s.tree? id = some tree) : s.internTree tree = (id, s) := by
  induction hi : id.index using Nat.strongRecOn generalizing id tree with
  | ind index ih =>
    rw [h.tree?_eq] at htree
    obtain ⟨node, hnode, rfl⟩ := Option.map_eq_some_iff.1 htree
    have hparts : s.internParts (node.slots.map s.part) = (node.slots, s) := by
      refine s.internParts_parts fun child hm => ?_
      have hm := Node.mem_children.2 hm
      exact ⟨h.knows_of_mem hnode hm, fun tree ht => ih _ (hi ▸ h id node hnode child hm) ht rfl⟩
    rw [internTree, hparts]
    exact intern_of_node? hnode none

/-- A larger store has the same trees under the old ids. -/
theorem tree?_extends (hs : s.Grounded) (ht : t.Grounded) (h : s.Extends t) {id : NodeId}
    (hid : s.Knows id) : t.tree? id = s.tree? id := by
  induction hi : id.index using Nat.strongRecOn generalizing id with
  | ind index ih =>
    cases hn : s.node? id with
    | none =>
      have hnone := (hs.tree?_eq_none_iff id).2 hn
      rw [hnone, hid.eq_absent hnone]
      exact (ht.tree?_eq_none_iff .absent).2 rfl
    | some node =>
      have hn' : t.node? id = some node := (h id (by rw [hn]; nofun)).1.trans hn
      rw [hs.tree?_eq, ht.tree?_eq, hn, hn']
      refine congrArg (fun parts => some (Tree.node node.tag parts)) ?_
      refine List.map_congr_left fun slot hm => ?_
      cases slot with
      | node child =>
        have hm := Node.mem_children.2 hm
        unfold part
        dsimp only
        rw [ih _ (hi ▸ hs id node hn child hm) (hs.knows_of_mem hn hm) rfl]
      | text content => rfl
      | flag value => rfl

/-- A larger store has the same parts for the old slots. -/
theorem part_extends (hs : s.Grounded) (ht : t.Grounded) (h : s.Extends t) {slot : Slot}
    (hslot : ∀ id ∈ [slot].filterMap Slot.id?, s.Knows id) : t.part slot = s.part slot := by
  cases slot with
  | node child =>
    unfold part
    dsimp only
    rw [hs.tree?_extends ht h (hslot child (List.mem_singleton_self child))]
  | text content => rfl
  | flag value => rfl

/-- The tree under a node that has been stored, from the trees under its children. -/
theorem tree?_intern (h : s.Grounded) (node : Node) (coord : Option Coord)
    (hc : ∀ child ∈ node.children, s.Knows child) :
    (s.intern node coord).2.tree? (s.intern node coord).1 =
      some (.node node.tag (node.slots.map s.part)) := by
  have hgrounded : (s.intern node coord).2.Grounded := h.intern hc
  rw [hgrounded.tree?_eq, s.node?_intern]
  refine congrArg (fun parts => some (Tree.node node.tag parts)) ?_
  refine List.map_congr_left fun slot hm => ?_
  refine h.part_extends hgrounded (s.extends_intern _ _) fun id hid => ?_
  obtain ⟨slot', hm', hid⟩ := List.mem_filterMap.1 hid
  rw [List.mem_singleton.1 hm'] at hid
  exact hc id (List.mem_filterMap.2 ⟨slot, hm, hid⟩)

end Grounded

mutual

/-- A tree that has been stored is the tree under the id that was returned. -/
theorem Grounded.tree?_internTree {s : Store} (h : s.Grounded) (tree : Tree) :
    (s.internTree tree).2.tree? (s.internTree tree).1 = some tree := by
  obtain ⟨tag, parts⟩ := tree
  have hstored := h.stored_internParts parts
  have hparts := h.parts_internParts parts
  rw [internTree]
  generalize s.internParts parts = stored at hstored hparts ⊢
  obtain ⟨slots, t⟩ := stored
  dsimp only at hstored hparts ⊢
  rw [← hparts]
  exact hstored.grounded.tree?_intern ⟨tag, slots⟩ none hstored.knows

theorem Grounded.parts_internParts {s : Store} (h : s.Grounded) (parts : List Tree.Part) :
    (s.internParts parts).1.map (s.internParts parts).2.part = parts := by
  match parts with
  | [] => rfl
  | part :: rest =>
    have hstored := h.stored_internPart part
    have hpart := h.part_internPart part
    rw [internParts]
    generalize s.internPart part = stored at hstored hpart ⊢
    obtain ⟨slot, t⟩ := stored
    have hothers := hstored.grounded.stored_internParts rest
    have hrest := hstored.grounded.parts_internParts rest
    dsimp only at hstored hpart hothers hrest ⊢
    rw [List.map_cons, hrest,
      hstored.grounded.part_extends hothers.grounded hothers.extended hstored.knows, hpart]

theorem Grounded.part_internPart {s : Store} (h : s.Grounded) (part : Tree.Part) :
    (s.internPart part).2.part (s.internPart part).1 = part := by
  match part with
  | .tree tree =>
    have htree := h.tree?_internTree tree
    rw [internPart]
    generalize s.internTree tree = stored at htree ⊢
    obtain ⟨id, t⟩ := stored
    dsimp only at htree ⊢
    unfold Store.part
    dsimp only
    rw [htree]
  | .text content => rfl
  | .flag value => rfl
  | .absent =>
    rw [internPart]
    unfold Store.part
    dsimp only
    rw [(h.tree?_eq_none_iff .absent).2 rfl]

end

/-! ## The stores that are reached -/

/-- The stores that interning and loading make of the empty one, where the ids that are passed in
are absent or stored. Leaves and branches are interned as the nodes `Node.leaf` and
`Node.branch`. -/
inductive Reached : Store → Prop
  | empty : Reached .empty
  | intern {s : Store} (h : Reached s) (node : Node) (coord : Option Coord)
      (hc : ∀ child ∈ node.children, s.Knows child) : Reached (s.intern node coord).2
  | internTree {s : Store} (h : Reached s) (tree : Tree) : Reached (s.internTree tree).2
  | load {snapshot : Snapshot} {s : Store} (h : snapshot.load = .ok s) : Reached s

theorem Reached.grounded (h : s.Reached) : s.Grounded := by
  induction h with
  | empty => exact grounded_empty
  | intern _ node coord hc ih => exact ih.intern hc
  | internTree _ tree ih => exact (ih.stored_internTree tree).grounded
  | load h => exact (Snapshot.load_grounded h).1

/-- A store that gives every tree one id. -/
structure Canonical (s : Store) : Prop where
  /-- The ids are the numbers from one to the size. -/
  ids : ∀ id, s.node? id ≠ none ↔ 1 ≤ id.index ∧ id.index ≤ s.size
  /-- Interning keeps the nodes and the places of the ids that there are. -/
  intern : ∀ node coord, s.Extends (s.intern node coord).2
  internTree : ∀ tree, s.Extends (s.internTree tree).2
  /-- Equal trees have equal ids. -/
  tree : ∀ a b, s.node? a ≠ none → s.node? b ≠ none → (s.tree? a = s.tree? b ↔ a = b)
  /-- The tree of an id is stored under this id. -/
  stored : ∀ id, s.node? id ≠ none →
    ∃ tree, s.tree? id = some tree ∧ s.internTree tree = (id, s)

/-- Every store that is reached from the empty one gives every tree one id. -/
theorem Reached.canonical (h : s.Reached) : s.Canonical where
  ids := s.node?_ne_none_iff
  intern := s.extends_intern
  internTree tree := (h.grounded.stored_internTree tree).extended
  tree a b ha hb := by
    constructor
    · exact h.grounded.tree?_inj ((s.node?_ne_none_iff a).1 ha).2 ((s.node?_ne_none_iff b).1 hb).2
    · exact congrArg s.tree?
  stored id hid := by
    obtain ⟨tree, htree⟩ := exists_tree hid
    exact ⟨tree, htree, h.grounded.internTree_tree htree⟩

/-- A number and the list that holds it twice. -/
def ones : Store :=
  let (one, s) := empty.intern (.leaf .num "1") none
  (s.intern (.branch .list [one, one]) none).2

theorem canonical_ones : ones.Reached ∧ ones.Canonical := by
  have hone : (empty.intern (.leaf .num "1") none).2.Reached :=
    .intern .empty _ none fun child hm => absurd hm List.not_mem_nil
  have hones : ones.Reached := by
    refine .intern hone _ none ?_
    rw [Node.children_branch, List.forall_mem_cons, List.forall_mem_singleton]
    exact ⟨empty.knows_intern _ _, empty.knows_intern _ _⟩
  exact ⟨hones, hones.canonical⟩

end Store

end Juxta
