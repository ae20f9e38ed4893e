import Mathlib.Data.List.Sort
import Juxta.Proofs.Canonical

/-!
# Which snapshots are loaded, and what they become

Loading goes through the nodes once and looks at every node as it comes. What it accepts can be
said without that order.

* `Table.ext_get?` : maps with the same values are equal; `Table.restrict` keeps some of the keys;
* `Snapshot.WellFormed` : ids from one without a gap, children before their parents, no node twice,
  and a root;
* `Snapshot.entries_of_loadNodes` : what is loaded is what there was, with ids in order;
* `Snapshot.WellFormed.loadNodes_eq` : nothing stops the loading of nodes that are well formed;
* `Store.Restores` : a store from which a snapshot can be taken again;
* `Snapshot.load_exact` : the snapshots that are loaded are the well-formed ones, and nothing of
  them is lost.
-/

namespace Juxta

namespace Table

variable {α : Type}

theorem get?_ne_none_iff (t : Table α) (key : Nat) :
    t.get? key ≠ none ↔ key ∈ t.entries.map Prod.fst := by
  rw [Option.ne_none_iff_exists', List.mem_map]
  constructor
  · rintro ⟨value, hvalue⟩
    exact ⟨_, (t.get?_eq_some_iff key value).1 hvalue, rfl⟩
  · rintro ⟨⟨_, value⟩, hm, rfl⟩
    exact ⟨value, (t.get?_eq_some_iff _ value).2 hm⟩

/-- A map is determined by its values. -/
theorem ext_get? {s t : Table α} (h : ∀ key, s.get? key = t.get? key) : s = t := by
  have : Std.Irrefl fun a b : Nat × α => a.1 < b.1 := ⟨fun a => Nat.lt_irrefl a.1⟩
  have : Std.Antisymm fun a b : Nat × α => a.1 < b.1 :=
    ⟨fun a b hab hba => absurd hba (Nat.lt_asymm hab)⟩
  refine ext (s.ascending.eq_of_mem_iff t.ascending fun ⟨key, value⟩ => ?_)
  rw [← s.get?_eq_some_iff, ← t.get?_eq_some_iff, h]

/-- The entries whose keys are among `keys`. -/
def restrict (t : Table α) (keys : Nat → Bool) : Table α :=
  ⟨t.entries.filter fun e => keys e.1, t.ascending.filter _⟩

theorem get?_restrict (t : Table α) (keys : Nat → Bool) (key : Nat) :
    (t.restrict keys).get? key = if keys key then t.get? key else none := by
  ext value
  rw [get?_eq_some_iff]
  show (key, value) ∈ t.entries.filter _ ↔ _
  rw [List.mem_filter, ← t.get?_eq_some_iff]
  split <;> simp_all

end Table

namespace Snapshot

/-- The ids run from one without a gap, the ids in a node are lower than its own, no node has two
ids, and the root is the id of a node. -/
structure WellFormed (p : Snapshot) : Prop where
  numbered : ∀ key, p.nodes.get? key ≠ none ↔ 1 ≤ key ∧ key ≤ p.nodes.size
  earlier : ∀ key node, p.nodes.get? key = some node →
    ∀ child : NodeId, .node child ∈ node.slots → child.index < key
  distinct : ∀ key key' node, p.nodes.get? key = some node → p.nodes.get? key' = some node →
    key = key'
  rooted : 1 ≤ p.root.index ∧ p.root.index ≤ p.nodes.size

/-! ## Loading node by node -/

section

variable {coords : Table Coord} {total : Nat} {entries : List (Nat × Node)} {s t : Store}

/-- The nodes that are loaded stand behind those that were there, in order and without a gap. -/
theorem entries_of_loadNodes (h : loadNodes coords total entries s = .ok t) :
    t.entries.toList = s.entries.toList ++ entries.map (fun e => ⟨e.2, coords.get? e.1⟩) ∧
      entries.map Prod.fst = List.range' (s.size + 1) entries.length := by
  induction entries generalizing s with
  | nil =>
    cases h
    exact ⟨(List.append_nil _).symm, rfl⟩
  | cons entry rest ih =>
    obtain ⟨key, node⟩ := entry
    unfold loadNodes at h
    dsimp only at h
    split at h
    · cases h
    · rename_i hkey
      obtain rfl := Decidable.not_not.1 hkey
      split at h
      · cases h
      · split at h
        · cases h
        · split at h
          · cases h
          · rename_i hfresh
            have hsize : (s.push node (coords.get? (s.size + 1)) hfresh).size = s.size + 1 :=
              Array.size_push ..
            obtain ⟨hentries, hkeys⟩ := ih h
            constructor
            · rw [hentries]
              simp [Store.push]
            · rw [List.map_cons, hkeys, hsize]
              rfl

/-- Nodes in order and without a gap, with children before them, none of which is there twice, are
all loaded. -/
theorem exists_loadNodes (hkeys : entries.map Prod.fst = List.range' (s.size + 1) entries.length)
    (ht : s.size + entries.length ≤ total)
    (hearlier : ∀ e ∈ entries, ∀ child ∈ e.2.children, child.index < e.1)
    (hfresh : ∀ e ∈ entries, s.index[e.2]? = none)
    (hdistinct : entries.Pairwise fun a b => a.2 ≠ b.2) :
    ∃ t, loadNodes coords total entries s = .ok t := by
  induction entries generalizing s with
  | nil => exact ⟨s, rfl⟩
  | cons entry rest ih =>
    obtain ⟨key, node⟩ := entry
    obtain ⟨hfirst, hothers⟩ := List.pairwise_cons.1 hdistinct
    obtain ⟨hkey, hrest⟩ := List.cons.inj hkeys
    have hnew := hfresh _ (List.mem_cons_self ..)
    have hc : ∀ child ∈ node.children, s.Knows child := by
      intro child hm
      have hlt := hearlier _ (List.mem_cons_self ..) child hm
      dsimp only at hkey hlt
      unfold Store.Knows
      omega
    rw [loadNodes_cons hkey (by rw [List.length_cons] at ht; omega) hc hnew]
    have hsize : (s.push node (coords.get? key) hnew).size = s.size + 1 := Array.size_push ..
    refine ih ?_ ?_ (fun e hm => hearlier e (List.mem_cons_of_mem _ hm)) (fun e hm => ?_) hothers
    · rw [hsize]
      exact hrest
    · rw [hsize]
      rw [List.length_cons] at ht
      omega
    · show (s.index.insert node _)[e.2]? = none
      rw [Std.HashMap.getElem?_insert, if_neg (by simpa using hfirst e hm)]
      exact hfresh e (List.mem_cons_of_mem _ hm)

end

variable {p : Snapshot} {s : Store}

/-- The ids of well-formed nodes, in order. -/
theorem WellFormed.keys_eq (h : p.WellFormed) :
    p.nodes.entries.map Prod.fst = List.range' 1 p.nodes.size := by
  have hascending : (p.nodes.entries.map Prod.fst).Pairwise (· < ·) :=
    List.pairwise_map.2 p.nodes.ascending
  refine hascending.eq_of_mem_iff List.pairwise_lt_range' fun key => ?_
  rw [← p.nodes.get?_ne_none_iff, h.numbered, List.mem_range'_1]
  omega

theorem WellFormed.loadNodes_eq (h : p.WellFormed) :
    ∃ s, loadNodes p.coords p.nodes.size p.nodes.entries .empty = .ok s := by
  refine exists_loadNodes h.keys_eq (Nat.le_of_eq (Nat.zero_add _)) (fun e hm child hc => ?_)
    (fun e _ => ?_) (p.nodes.ascending.imp_of_mem fun {a b} ha hb hab heq => ?_)
  · exact h.earlier e.1 e.2 ((p.nodes.get?_eq_some_iff ..).2 hm) child (Node.mem_children.1 hc)
  · exact Std.HashMap.getElem?_empty
  · refine absurd (h.distinct a.1 b.1 a.2 ?_ ?_) (Nat.ne_of_lt hab)
    · exact (p.nodes.get?_eq_some_iff ..).2 ha
    · rw [heq]
      exact (p.nodes.get?_eq_some_iff ..).2 hb

/-- What the store of a snapshot holds, in order. -/
theorem entries_of_load (h : p.load = .ok s) :
    s.entries.toList = p.nodes.entries.map (fun e => ⟨e.2, p.coords.get? e.1⟩) ∧
      p.nodes.entries.map Prod.fst = List.range' 1 p.nodes.size :=
  entries_of_loadNodes (loadNodes_of_load h).1

theorem size_of_load (h : p.load = .ok s) : s.size = p.nodes.size := by
  rw [Store.size, ← Array.length_toList, (entries_of_load h).1, List.length_map]
  rfl

end Snapshot

namespace Store

/-- A store from which a snapshot can be taken again: the same nodes under the same ids, the same
root, and the places of the ids that have nodes. Its nodes keep their ids. -/
structure Restores (s : Store) (p : Snapshot) : Prop where
  nodes : (s.snapshot p.root).nodes = p.nodes
  root : (s.snapshot p.root).root = p.root
  coords : (s.snapshot p.root).coords =
    p.coords.restrict fun key => 1 ≤ key ∧ key ≤ p.nodes.size
  interned : ∀ id node, s.node? id = some node → ∀ coord, s.intern node coord = (id, s)

end Store

namespace Snapshot

variable {p : Snapshot} {s : Store}

/-! ## The store of a snapshot -/

theorem entry?_of_load (h : p.load = .ok s) (key : Nat) :
    s.entry? ⟨key⟩ = (p.nodes.get? key).map fun node => ⟨node, p.coords.get? key⟩ := by
  obtain ⟨hentries, hkeys⟩ := entries_of_load h
  have hkey : ∀ i e, p.nodes.entries[i]? = some e → e.1 = i + 1 := by
    intro i e he
    have hi : (p.nodes.entries.map Prod.fst)[i]? = some e.1 := by
      rw [List.getElem?_map, he]
      rfl
    have hlt : i < p.nodes.size := (List.getElem?_eq_some_iff.1 he).1
    rw [hkeys, List.getElem?_range' hlt] at hi
    have := Option.some.inj hi
    omega
  ext entry
  rw [s.entry?_eq_some_iff, Option.map_eq_some_iff]
  simp only [p.nodes.get?_eq_some_iff, ← Array.getElem?_toList, hentries, List.getElem?_map,
    Option.map_eq_some_iff]
  constructor
  · rintro ⟨i, ⟨e, he, rfl⟩, hid⟩
    cases hid
    rw [← hkey i e he]
    exact ⟨e.2, List.mem_of_getElem? he, rfl⟩
  · rintro ⟨node, hm, rfl⟩
    obtain ⟨i, he⟩ := List.getElem?_of_mem hm
    exact ⟨i, ⟨_, he, rfl⟩, congrArg NodeId.mk (hkey i _ he)⟩

theorem node?_of_load (h : p.load = .ok s) (id : NodeId) :
    s.node? id = p.nodes.get? id.index := by
  rw [Store.node?, entry?_of_load h, Option.map_map]
  exact Option.map_id'

theorem WellFormed.of_load (h : p.load = .ok s) : p.WellFormed where
  numbered key := by
    rw [← node?_of_load h ⟨key⟩, s.node?_ne_none_iff, Store.Knows, size_of_load h]
    exact Iff.rfl
  earlier key node hnode child hm :=
    (load_grounded h).1 ⟨key⟩ node ((node?_of_load h ⟨key⟩).trans hnode) child
      (Node.mem_children.2 hm)
  distinct key key' node hnode hnode' := by
    rw [← node?_of_load h ⟨key⟩, s.node?_eq_some_iff] at hnode
    rw [← node?_of_load h ⟨key'⟩, s.node?_eq_some_iff] at hnode'
    exact congrArg NodeId.index (Option.some.inj (hnode.symm.trans hnode'))
  rooted := by
    have hroot := (s.node?_ne_none_iff p.root).1 (load_grounded h).2
    rw [Store.Knows, size_of_load h] at hroot
    exact hroot

theorem WellFormed.load (h : p.WellFormed) : ∃ s, p.load = .ok s := by
  obtain ⟨s, hs⟩ := h.loadNodes_eq
  have hsize : s.size = p.nodes.size := by
    rw [Store.size, ← Array.length_toList, (entries_of_loadNodes hs).1]
    simp [Store.empty, Table.size]
  refine ⟨s, load_of_loadNodes hs ((s.node?_ne_none_iff p.root).2 ?_)⟩
  rw [Store.Knows, hsize]
  exact h.rooted

theorem restores_of_load (h : p.load = .ok s) : s.Restores p where
  nodes := Table.ext_get? fun key => (s.get?_snapshot_nodes p.root key).trans (node?_of_load h _)
  root := rfl
  coords := Table.ext_get? fun key => by
    rw [s.get?_snapshot_coords, Store.coord?, entry?_of_load h, Table.get?_restrict]
    have hkey := (WellFormed.of_load h).numbered key
    cases hnode : p.nodes.get? key with
    | some node =>
      rw [if_pos (decide_eq_true (hkey.1 (by rw [hnode]; exact Option.some_ne_none _)))]
      rfl
    | none =>
      rw [if_neg (by simpa [hnode] using hkey)]
      rfl
  interned id node hnode coord := Store.intern_of_node? hnode coord

/-- A snapshot is loaded exactly when it is well formed, and it can be taken again from the store
that it becomes. -/
theorem load_exact (p : Snapshot) :
    ((∃ s, p.load = .ok s) ↔ p.WellFormed) ∧ ∀ s, p.load = .ok s → s.Restores p :=
  ⟨⟨fun ⟨_, h⟩ => .of_load h, WellFormed.load⟩, fun _ => restores_of_load⟩

/-- The program `-1`, with a place for an id that it does not have. -/
def negated : Snapshot where
  version := currentVersion
  root := ⟨2⟩
  nodes := .ofList [(1, .leaf .num "1"), (2, .branch .neg [⟨1⟩])]
  coords := .ofList [(1, .origin), (7, .origin)]

theorem get?_negated {key : Nat} {node : Node} (h : negated.nodes.get? key = some node) :
    key = 1 ∧ node = .leaf .num "1" ∨ key = 2 ∧ node = .branch .neg [⟨1⟩] := by
  have hm : (key, node) ∈ [(1, Node.leaf .num "1"), (2, .branch .neg [⟨1⟩])] :=
    (negated.nodes.get?_eq_some_iff key node).1 h
  simpa using hm

theorem WellFormed.negated : negated.WellFormed where
  numbered key := by
    show Table.find? [(1, Node.leaf .num "1"), (2, .branch .neg [⟨1⟩])] key ≠ none ↔
      1 ≤ key ∧ key ≤ 2
    unfold Table.find? Table.find? Table.find?
    grind
  earlier key node h child hm := by
    rcases get?_negated h with ⟨rfl, rfl⟩ | ⟨rfl, rfl⟩
    · simp [Node.leaf] at hm
    · have hchild : child = ⟨1⟩ := by simpa [Node.branch] using hm
      rw [hchild]
      exact Nat.one_lt_two
  distinct key key' node h h' := by
    rcases get?_negated h with ⟨rfl, rfl⟩ | ⟨rfl, rfl⟩ <;>
      rcases get?_negated h' with ⟨rfl, hnode⟩ | ⟨rfl, hnode⟩
    · rfl
    · cases hnode
    · cases hnode
    · rfl
  rooted := by decide

/-- The place of the id that has no node is all that is lost. -/
theorem load_exact_negated : ∃ s, negated.load = .ok s ∧ s.Restores negated ∧
    (s.snapshot ⟨2⟩).coords = .ofList [(1, .origin)] := by
  obtain ⟨s, hs⟩ := (load_exact negated).1.2 .negated
  have hrestores := (load_exact negated).2 s hs
  exact ⟨s, hs, hrestores, hrestores.coords⟩

end Snapshot

end Juxta
