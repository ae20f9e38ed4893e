import Juxta.Snapshot

/-!
# Stores whose nodes refer to earlier ones

* `Store.Knows` : ids that are absent or have a node;
* `Store.Grounded` : the children of a node come before it, and so are known;
* `Store.Grounded.push`, `Store.Grounded.intern` : new nodes with known children;
* `Snapshot.load_grounded` : the store of a snapshot is grounded, and knows its root;
* `Store.Grounded.load_snapshot` : the snapshot of a grounded store is loaded again, with the same
  entries.
-/

namespace Juxta

theorem Node.mem_children {node : Node} {id : NodeId} :
    id ∈ node.children ↔ .node id ∈ node.slots := by
  unfold children
  rw [List.mem_filterMap]
  constructor
  · rintro ⟨slot, hm, hid⟩
    cases slot with
    | node _ =>
      cases hid
      exact hm
    | text _ => cases hid
    | flag _ => cases hid
  · exact fun hm => ⟨_, hm, rfl⟩

namespace Store

/-- An id that is absent or has a node. -/
def Knows (s : Store) (id : NodeId) : Prop := id.index ≤ s.size

/-- The children of every node come before it. -/
def Grounded (s : Store) : Prop :=
  ∀ id node, s.node? id = some node → ∀ child ∈ node.children, child.index < id.index

theorem knows_absent (s : Store) : s.Knows .absent := Nat.zero_le _

theorem node?_ne_none_iff (s : Store) (id : NodeId) :
    s.node? id ≠ none ↔ 0 < id.index ∧ s.Knows id := by
  unfold node? entry? Knows size
  split
  · rename_i hz
    simp [hz]
  · rename_i hz
    rw [ne_eq, Option.map_eq_none_iff, Array.getElem?_eq_none_iff]
    omega

theorem knows_of_node? {s : Store} {id : NodeId} {node : Node} (h : s.node? id = some node) :
    s.Knows id :=
  ((s.node?_ne_none_iff id).1 (by rw [h]; nofun)).2

theorem isAbsent_of_node? {s : Store} {id : NodeId} {node : Node} (h : s.node? id = some node) :
    id.isAbsent = false :=
  beq_false_of_ne (Nat.ne_of_gt ((s.node?_ne_none_iff id).1 (by rw [h]; nofun)).1)

theorem Knows.node?_ne_none {s : Store} {id : NodeId} (h : s.Knows id)
    (ha : id.isAbsent = false) : s.node? id ≠ none := by
  refine (s.node?_ne_none_iff id).2 ⟨?_, h⟩
  simpa [NodeId.isAbsent, Nat.pos_iff_ne_zero] using ha

/-- A node that is stored after a new one is the new one, or it was stored before. -/
theorem node?_push {s : Store} {node other : Node} {coord : Option Coord}
    {fresh : s.index[node]? = none} {id : NodeId}
    (ho : (s.push node coord fresh).node? id = some other) :
    (id.index = s.size + 1 ∧ other = node) ∨ s.node? id = some other := by
  by_cases hid : id.index = s.size + 1
  · refine Or.inl ⟨hid, ?_⟩
    simp only [node?, entry?, push, hid, size] at ho
    simpa using ho.symm
  · refine Or.inr ?_
    have hlast := knows_of_node? ho
    have hsome : s.node? id ≠ none := by
      refine (s.node?_ne_none_iff id).2 ⟨?_, ?_⟩
      · exact ((node?_ne_none_iff _ id).1 (by rw [ho]; exact Option.some_ne_none _)).1
      · simp only [Knows, size, push, Array.size_push] at hlast hid ⊢
        omega
    obtain ⟨old, hold⟩ := Option.ne_none_iff_exists'.1 hsome
    have hkeep := s.node?_push_of_some node coord fresh hold
    rw [ho] at hkeep
    cases hkeep
    exact hold

namespace Grounded

variable {s : Store}

theorem knows_of_mem (h : s.Grounded) {id child : NodeId} {node : Node}
    (hn : s.node? id = some node) (hc : child ∈ node.children) : s.Knows child :=
  Nat.le_trans (Nat.le_of_lt (h id node hn child hc)) (knows_of_node? hn)

/-- What stands at a position of a node is a child, or absent. -/
theorem child_lt (h : s.Grounded) {id : NodeId} {node : Node} (hn : s.node? id = some node)
    (position : Nat) : (node.child position).index < id.index := by
  unfold Node.child
  split
  · rename_i child hp
    exact h id node hn child (Node.mem_children.2 (List.mem_of_getElem? hp))
  · exact ((s.node?_ne_none_iff id).1 (by rw [hn]; nofun)).1

theorem knows_child (h : s.Grounded) {id : NodeId} {node : Node} (hn : s.node? id = some node)
    (position : Nat) : s.Knows (node.child position) :=
  Nat.le_trans (Nat.le_of_lt (h.child_lt hn position)) (knows_of_node? hn)

/-- A new node with known children. -/
theorem push (h : s.Grounded) {node : Node} {coord : Option Coord}
    {fresh : s.index[node]? = none} (hc : ∀ child ∈ node.children, s.Knows child) :
    (s.push node coord fresh).Grounded := by
  intro id other ho child hm
  rcases node?_push ho with ⟨hid, rfl⟩ | hold
  · have := hc child hm
    unfold Knows at this
    omega
  · exact h id other hold child hm

theorem intern (h : s.Grounded) {node : Node} {coord : Option Coord}
    (hc : ∀ child ∈ node.children, s.Knows child) : (s.intern node coord).2.Grounded := by
  unfold Store.intern
  split
  · exact h
  · rename_i hfresh
    exact (h.push hc : (s.push node coord hfresh).Grounded)

end Grounded

theorem size_intern_le (s : Store) (node : Node) (coord : Option Coord) :
    s.size ≤ (s.intern node coord).2.size := by
  unfold intern
  split
  · exact Nat.le_refl _
  · unfold size push
    rw [Array.size_push]
    exact Nat.le_succ _

theorem knows_intern (s : Store) (node : Node) (coord : Option Coord) :
    (s.intern node coord).2.Knows (s.intern node coord).1 :=
  knows_of_node? (s.node?_intern node coord)

theorem grounded_empty : empty.Grounded := by
  intro id node hn
  obtain ⟨hpos, hknows⟩ := (node?_ne_none_iff empty id).1 (by rw [hn]; nofun)
  exact absurd hknows (Nat.not_le_of_lt hpos)

end Store

/-! ## Snapshots -/

namespace Snapshot

/-- What holds before the nodes are loaded and is kept by each of them holds in the end. -/
theorem loadNodes_induction {coords : Table Coord} {total : Nat} {entries : List (Nat × Node)}
    {s t : Store} (h : loadNodes coords total entries s = .ok t) {P : Store → Prop} (hs : P s)
    (hpush : ∀ (s : Store) node coord fresh, (∃ key, (key, node) ∈ entries) →
      (∀ child ∈ node.children, s.Knows child) → P s → P (s.push node coord fresh)) : P t := by
  induction entries generalizing s with
  | nil =>
    cases h
    exact hs
  | cons entry rest ih =>
    obtain ⟨key, node⟩ := entry
    unfold loadNodes at h
    dsimp only at h
    split at h
    · cases h
    · rename_i hkey
      split at h
      · cases h
      · split at h
        · cases h
        · rename_i hforward
          split at h
          · cases h
          · refine ih h (hpush s node _ _ ⟨key, List.mem_cons_self ..⟩ (fun child hm => ?_) hs) ?_
            · have := List.find?_eq_none.1 hforward child hm
              simp only [decide_eq_true_eq] at this
              unfold Store.Knows
              omega
            · rintro s node coord fresh ⟨key, hm⟩
              exact hpush s node coord fresh ⟨key, List.mem_cons_of_mem _ hm⟩

theorem loadNodes_grounded {coords : Table Coord} {total : Nat} {entries : List (Nat × Node)}
    {s t : Store} (hs : s.Grounded) (h : loadNodes coords total entries s = .ok t) :
    t.Grounded :=
  loadNodes_induction h hs fun _ _ _ _ _ hc hs => hs.push hc

theorem loadNodes_of_load {snapshot : Snapshot} {s : Store} (h : snapshot.load = .ok s) :
    loadNodes snapshot.coords snapshot.nodes.size snapshot.nodes.entries .empty = .ok s ∧
      s.node? snapshot.root ≠ none := by
  unfold load at h
  simp only [bind, Except.bind] at h
  split at h
  · cases h
  · rename_i t hload
    split at h
    · cases h
    · rename_i hroot
      cases h
      exact ⟨hload, by simpa using hroot⟩

theorem load_of_loadNodes {snapshot : Snapshot} {s : Store}
    (h : loadNodes snapshot.coords snapshot.nodes.size snapshot.nodes.entries .empty = .ok s)
    (hr : s.node? snapshot.root ≠ none) : snapshot.load = .ok s := by
  have hroot : (s.node? snapshot.root).isNone = false := by
    rw [Option.isNone_eq_false_iff, Option.isSome_iff_ne_none]
    exact hr
  unfold load
  rw [h]
  show (if (s.node? snapshot.root).isNone = true then _ else _) = _
  rw [hroot]
  rfl

/-- The store of a snapshot is grounded, and its root has a node. -/
theorem load_grounded {snapshot : Snapshot} {s : Store} (h : snapshot.load = .ok s) :
    s.Grounded ∧ s.node? snapshot.root ≠ none :=
  ⟨loadNodes_grounded Store.grounded_empty (loadNodes_of_load h).1, (loadNodes_of_load h).2⟩

/-- A node with known children that is not stored yet is loaded. -/
theorem loadNodes_cons {coords : Table Coord} {total key : Nat} {node : Node}
    {rest : List (Nat × Node)} {s : Store} (hkey : key = s.size + 1) (ht : s.size < total)
    (hc : ∀ child ∈ node.children, s.Knows child) (fresh : s.index[node]? = none) :
    loadNodes coords total ((key, node) :: rest) s =
      loadNodes coords total rest (s.push node (coords.get? key) fresh) := by
  subst hkey
  have hdangling : node.children.find? (fun child => total < child.index) = none := by
    rw [List.find?_eq_none]
    intro child hm
    have := hc child hm
    unfold Store.Knows at this
    simp only [decide_eq_true_eq]
    omega
  have hforward : node.children.find? (fun child => s.size + 1 ≤ child.index) = none := by
    rw [List.find?_eq_none]
    intro child hm
    have := hc child hm
    unfold Store.Knows at this
    simp only [decide_eq_true_eq]
    omega
  rw [loadNodes]
  simp only [ne_eq, not_true_eq_false, if_false, hdangling, hforward]
  split
  · rename_i hs
    rw [fresh] at hs
    cases hs
  · rfl

end Snapshot

namespace Table

variable {α : Type}

theorem place_of_lt {key : Nat} {value : α} {entries : List (Nat × α)}
    (h : ∀ e ∈ entries, key < e.1) : place key value entries = (key, value) :: entries := by
  cases entries with
  | nil => rfl
  | cons e rest => exact if_pos (h e (List.mem_cons_self ..))

theorem entries_ofList {entries : List (Nat × α)} (h : entries.Pairwise fun a b => a.1 < b.1) :
    (ofList entries).entries = entries := by
  induction entries with
  | nil => rfl
  | cons e rest ih =>
    obtain ⟨hfirst, hrest⟩ := List.pairwise_cons.1 h
    show place e.1 e.2 (ofList rest).entries = e :: rest
    rw [ih hrest]
    exact place_of_lt hfirst

theorem find?_eq_some_iff {entries : List (Nat × α)}
    (h : entries.Pairwise fun a b => a.1 < b.1) (key : Nat) (value : α) :
    find? entries key = some value ↔ (key, value) ∈ entries := by
  induction entries with
  | nil => simp [find?]
  | cons e rest ih =>
    obtain ⟨k, v⟩ := e
    obtain ⟨hfirst, hrest⟩ := List.pairwise_cons.1 h
    unfold find?
    rw [List.mem_cons, Prod.mk.injEq]
    split
    · rename_i hk
      subst hk
      constructor
      · intro hv
        exact Or.inl ⟨rfl, (Option.some.inj hv).symm⟩
      · rintro (⟨-, rfl⟩ | hm)
        · rfl
        · exact absurd (hfirst _ hm) (Nat.lt_irrefl _)
    · rename_i hk
      rw [ih hrest]
      constructor
      · exact Or.inr
      · rintro (⟨rfl, -⟩ | hm)
        · exact absurd rfl hk
        · exact hm

theorem get?_eq_some_iff (t : Table α) (key : Nat) (value : α) :
    t.get? key = some value ↔ (key, value) ∈ t.entries :=
  find?_eq_some_iff t.ascending key value

end Table

namespace Store

/-! ## Stores with the same entries -/

section Same

variable {s t : Store}

theorem node?_congr (h : s.entries = t.entries) (id : NodeId) : s.node? id = t.node? id := by
  unfold node? entry?
  rw [h]

theorem coord?_congr (h : s.entries = t.entries) (id : NodeId) : s.coord? id = t.coord? id := by
  unfold coord? entry?
  rw [h]

theorem treeTo_congr (h : s.entries = t.entries) (depth : Nat) (id : NodeId) :
    s.treeTo depth id = t.treeTo depth id := by
  induction depth generalizing id with
  | zero => rfl
  | succ depth ih =>
    unfold treeTo
    rw [node?_congr h]
    simp only [ih]

theorem tree?_congr (h : s.entries = t.entries) (id : NodeId) : s.tree? id = t.tree? id := by
  unfold tree? size
  rw [h]
  exact treeTo_congr h _ id

/-- Nodes are found under the ids under which they are stored. -/
theorem find?_congr (h : s.entries = t.entries) (node : Node) :
    s.find? node = t.find? node := by
  apply Option.ext
  intro id
  rw [← s.node?_eq_some_iff id node, ← t.node?_eq_some_iff id node, node?_congr h]

end Same

/-- What is under a node that is stored. -/
theorem exists_tree {s : Store} {id : NodeId} (h : s.node? id ≠ none) :
    ∃ tree, s.tree? id = some tree := by
  obtain ⟨hpos, hknows⟩ := (s.node?_ne_none_iff id).1 h
  obtain ⟨node, hnode⟩ := Option.ne_none_iff_exists'.1 h
  obtain ⟨depth, hdepth⟩ : ∃ depth, s.size = depth + 1 :=
    Nat.exists_eq_succ_of_ne_zero (Nat.ne_of_gt (Nat.lt_of_lt_of_le hpos hknows))
  unfold tree?
  rw [hdepth]
  unfold treeTo
  rw [hnode]
  exact ⟨_, rfl⟩

/-! ## Snapshots of stores -/

theorem pairwise_numbered {α β : Type} (f : Nat → α → β) (l : List α) (offset : Nat) :
    (l.mapIdx fun i a => (offset + i + 1, f i a)).Pairwise fun a b => a.1 < b.1 := by
  rw [List.pairwise_iff_getElem]
  intro i j hi hj hij
  simp only [List.getElem_mapIdx]
  omega

variable {s : Store}

/-- A node that is stored once is not among the nodes before it. -/
theorem fresh_of_entries {t : Store} {entry : Entry} {rest : List Entry}
    (h : s.entries.toList = t.entries.toList ++ entry :: rest) :
    t.index[entry.node]? = none := by
  rw [Option.eq_none_iff_forall_ne_some]
  intro id hid
  obtain ⟨hpos, hentry⟩ := (t.index_iff entry.node id).1 hid
  obtain ⟨old, hold, hnode⟩ := Option.map_eq_some_iff.1 hentry
  have hlt := (Array.getElem?_eq_some_iff.1 hold).1
  have hfirst : s.entries[id.index - 1]? = some old := by
    rw [← Array.getElem?_toList, h, List.getElem?_append_left (by simpa using hlt),
      Array.getElem?_toList, hold]
  have hlast : s.entries[t.size]? = some entry := by
    rw [← Array.getElem?_toList, h, List.getElem?_append_right (by simp [size])]
    simp [size]
  have hindex := (s.index_iff entry.node id).2 ⟨hpos, by rw [hfirst, ← hnode]; rfl⟩
  have hindex' := (s.index_iff entry.node ⟨t.size + 1⟩).2 ⟨Nat.succ_pos _, by
    rw [Nat.add_sub_cancel, hlast]
    rfl⟩
  rw [hindex] at hindex'
  cases hindex'
  exact absurd hlt (Nat.lt_irrefl _)

theorem Grounded.loadNodes_eq (h : s.Grounded) {coords : Table Coord}
    (hcoords : ∀ (i : Nat) entry, s.entries[i]? = some entry → coords.get? (i + 1) = entry.coord)
    {rest : List Entry} {t : Store} (ht : s.entries.toList = t.entries.toList ++ rest) :
    ∃ u, Snapshot.loadNodes coords s.size
        (rest.mapIdx fun i entry => (t.size + i + 1, entry.node)) t = .ok u ∧
      u.entries = s.entries := by
  induction rest generalizing t with
  | nil =>
    refine ⟨t, rfl, ?_⟩
    rw [List.append_nil] at ht
    exact (Array.toList_inj.1 ht).symm
  | cons entry rest ih =>
    have hget : s.entries[t.size]? = some entry := by
      rw [← Array.getElem?_toList, ht, List.getElem?_append_right (by simp [size])]
      simp [size]
    have hlt : t.size < s.size := (Array.getElem?_eq_some_iff.1 hget).1
    have hnode : s.node? ⟨t.size + 1⟩ = some entry.node := by
      simp [node?, entry?, hget]
    have hc : ∀ child ∈ entry.node.children, t.Knows child := by
      intro child hm
      have := h _ _ hnode child hm
      unfold Knows
      exact Nat.le_of_lt_succ this
    have hpush : (t.push entry.node (coords.get? (t.size + 1)) (fresh_of_entries ht)).entries =
        t.entries.push entry := by
      rw [hcoords _ _ hget]
      rfl
    rw [List.mapIdx_cons, Nat.add_zero, Snapshot.loadNodes_cons rfl hlt hc (fresh_of_entries ht)]
    generalize t.push entry.node (coords.get? (t.size + 1)) (fresh_of_entries ht) = next at hpush ⊢
    have hsize : next.size = t.size + 1 := by
      rw [size, hpush, Array.size_push]
      rfl
    have hnext : s.entries.toList = next.entries.toList ++ rest := by
      rw [hpush, Array.toList_push, ht, List.append_assoc]
      rfl
    obtain ⟨u, hu, he⟩ := ih hnext
    refine ⟨u, ?_, he⟩
    rw [← hu, hsize]
    congr 2
    funext i entry
    congr 1
    omega

theorem entry?_eq_some_iff (s : Store) {id : NodeId} {entry : Entry} :
    s.entry? id = some entry ↔ ∃ i, s.entries[i]? = some entry ∧ id = ⟨i + 1⟩ := by
  unfold entry?
  obtain ⟨key⟩ := id
  cases key with
  | zero => simp
  | succ i => simp [eq_comm]

theorem get?_snapshot_nodes (s : Store) (root : NodeId) (key : Nat) :
    (s.snapshot root).nodes.get? key = s.node? ⟨key⟩ := by
  have hall := pairwise_numbered (fun _ entry => entry.node) s.entries.toList 0
  simp only [Nat.zero_add] at hall
  ext node
  rw [Table.get?_eq_some_iff, node?, Option.map_eq_some_iff]
  unfold snapshot
  rw [Table.entries_ofList hall, List.mem_mapIdx]
  simp only [entry?_eq_some_iff, NodeId.mk.injEq, Prod.mk.injEq]
  constructor
  · rintro ⟨i, hi, hkey, hnode⟩
    exact ⟨_, ⟨i, by rw [← Array.getElem?_toList, List.getElem?_eq_getElem hi], hkey.symm⟩, hnode⟩
  · rintro ⟨entry, ⟨i, hentry, hkey⟩, hnode⟩
    rw [← Array.getElem?_toList] at hentry
    obtain ⟨hi, rfl⟩ := List.getElem?_eq_some_iff.1 hentry
    exact ⟨i, hi, hkey.symm, hnode⟩

theorem get?_snapshot_coords (s : Store) (root : NodeId) (key : Nat) :
    (s.snapshot root).coords.get? key = s.coord? ⟨key⟩ := by
  have hall := pairwise_numbered (fun _ entry => entry.coord) s.entries.toList 0
  have hsome : ((s.entries.toList.mapIdx fun i entry => (i + 1, entry.coord)).filterMap
      fun e => e.2.map fun coord => (e.1, coord)).Pairwise fun a b => a.1 < b.1 := by
    simp only [Nat.zero_add] at hall
    refine hall.filterMap _ fun a b hab c hc d hd => ?_
    obtain ⟨_, _, rfl⟩ := Option.map_eq_some_iff.1 hc
    obtain ⟨_, _, rfl⟩ := Option.map_eq_some_iff.1 hd
    exact hab
  ext coord
  rw [Table.get?_eq_some_iff, coord?, Option.bind_eq_some_iff]
  unfold snapshot
  rw [Table.entries_ofList hsome, List.mem_filterMap]
  simp only [entry?_eq_some_iff, NodeId.mk.injEq]
  constructor
  · rintro ⟨e, he, hc⟩
    obtain ⟨i, hi, rfl⟩ := List.mem_mapIdx.1 he
    obtain ⟨c, hcoord, heq⟩ := Option.map_eq_some_iff.1 hc
    cases heq
    exact ⟨_, ⟨i, by rw [← Array.getElem?_toList, List.getElem?_eq_getElem hi], rfl⟩, hcoord⟩
  · rintro ⟨entry, ⟨i, hentry, rfl⟩, hcoord⟩
    rw [← Array.getElem?_toList] at hentry
    obtain ⟨hi, rfl⟩ := List.getElem?_eq_some_iff.1 hentry
    refine ⟨(i + 1, (s.entries.toList[i]).coord), List.mem_mapIdx.2 ⟨i, hi, rfl⟩, ?_⟩
    rw [hcoord]
    rfl

theorem get?_coords (s : Store) (root : NodeId) {i : Nat} {entry : Entry}
    (h : s.entries[i]? = some entry) : (s.snapshot root).coords.get? (i + 1) = entry.coord := by
  have hentry : s.entry? ⟨i + 1⟩ = some entry := s.entry?_eq_some_iff.2 ⟨i, h, rfl⟩
  rw [get?_snapshot_coords, coord?, hentry]
  rfl

/-- What loading the nodes of a store comes to. -/
theorem load_snapshot_of_loadNodes {t : Store} {root : NodeId}
    (h : Snapshot.loadNodes (s.snapshot root).coords s.size
      (s.entries.toList.mapIdx fun i entry => (i + 1, entry.node)) .empty = .ok t)
    (hr : t.node? root ≠ none) : (s.snapshot root).load = .ok t := by
  have hall := pairwise_numbered (fun _ entry => entry.node) s.entries.toList 0
  simp only [Nat.zero_add] at hall
  have hnodes : (s.snapshot root).nodes.entries =
      s.entries.toList.mapIdx fun i entry => (i + 1, entry.node) := Table.entries_ofList hall
  have hsize : (s.snapshot root).nodes.size = s.size := by
    rw [Table.size, hnodes, List.length_mapIdx, Array.length_toList]
    rfl
  refine Snapshot.load_of_loadNodes ?_ hr
  rw [hnodes, hsize]
  exact h

/-- The snapshot of a grounded store is loaded again, with the same entries. -/
theorem Grounded.load_snapshot (h : s.Grounded) {root : NodeId} (hr : s.node? root ≠ none) :
    ∃ t, (s.snapshot root).load = .ok t ∧ t.entries = s.entries := by
  have hempty : s.entries.toList = Store.empty.entries.toList ++ s.entries.toList := rfl
  obtain ⟨t, ht, he⟩ := h.loadNodes_eq (fun _ _ => s.get?_coords root) hempty
  refine ⟨t, load_snapshot_of_loadNodes ?_ (node?_congr he root ▸ hr), he⟩
  rw [← ht]
  congr 2
  funext i entry
  simp [size, empty]

/-- A store that is built node by node. -/
inductive Built : Store → Prop where
  | empty : Built .empty
  | push {s : Store} {node : Node} {coord : Option Coord} {fresh : s.index[node]? = none} :
      Built s → (∀ child ∈ node.children, s.Knows child) → Built (s.push node coord fresh)

theorem Built.loadNodes (h : s.Built) {coords : Table Coord} {total : Nat} (ht : s.size ≤ total)
    (hcoords : ∀ (i : Nat) entry, s.entries[i]? = some entry → coords.get? (i + 1) = entry.coord)
    (more : List (Nat × Node)) : Snapshot.loadNodes coords total
        ((s.entries.toList.mapIdx fun i entry => (i + 1, entry.node)) ++ more) .empty =
      Snapshot.loadNodes coords total more s := by
  induction h generalizing more with
  | empty => rfl
  | @push s node coord fresh _ hc ih =>
    have hentries : (s.push node coord fresh).entries = s.entries.push ⟨node, coord⟩ := rfl
    have hlt : s.size < total := by
      rw [size, hentries, Array.size_push] at ht
      exact ht
    have hold : ∀ (i : Nat) entry, s.entries[i]? = some entry →
        coords.get? (i + 1) = entry.coord := by
      intro i entry hi
      obtain ⟨hlt, he⟩ := Array.getElem?_eq_some_iff.1 hi
      refine hcoords i entry ?_
      rw [hentries, Array.getElem?_push_lt hlt, he]
    have hcoord : coords.get? (s.size + 1) = coord := by
      refine hcoords s.size ⟨node, coord⟩ ?_
      rw [hentries]
      exact Array.getElem?_push_size
    have hlist : ((s.push node coord fresh).entries.toList.mapIdx fun i entry =>
        (i + 1, entry.node)) ++ more =
          (s.entries.toList.mapIdx fun i entry => (i + 1, entry.node)) ++
            (s.size + 1, node) :: more := by
      rw [hentries, Array.toList_push, List.mapIdx_append, List.append_assoc]
      simp [size]
    rw [hlist, ih (Nat.le_of_lt hlt) hold, Snapshot.loadNodes_cons rfl hlt hc fresh, hcoord]

/-- The snapshot of a store that is built node by node is loaded again. -/
theorem Built.load_snapshot (h : s.Built) {root : NodeId} (hr : s.node? root ≠ none) :
    (s.snapshot root).load = .ok s := by
  refine load_snapshot_of_loadNodes ?_ hr
  have hload := h.loadNodes (Nat.le_refl s.size) (fun _ _ => s.get?_coords root) []
  rwa [List.append_nil] at hload

end Store

end Juxta
