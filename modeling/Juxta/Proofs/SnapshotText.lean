import Juxta.Snapshot.Text
import Juxta.Proofs.Grounded
import Juxta.Proofs.Json.Values

/-!
# Snapshots and their text

* `readAll_text` : a complete text is read as the value that it spells;
* `Slot.spells`, `Node.spells`, `Coord.spells` : the parts of a snapshot are read back;
* `Table.ofList_reverse`, `Snapshot.spells_table` : so are its tables;
* `Snapshot.Narrow` : the numbers of a snapshot have 32 bits;
* `Snapshot.parse_text` : such a snapshot is read back from its text.
-/

namespace Juxta

open Json (Reader Spells)

namespace Json

variable {α : Type}

/-- Nothing is left behind a value that was read from its own text. -/
theorem readAll_text {r : Reader α} {json : Json} {a : α} (h : Spells r json a) :
    Reader.readAll r json.text = .ok a := by
  have hread := h [] (Reader.stops_nil _)
  rw [List.append_nil] at hread
  obtain ⟨between, hrun⟩ := hread ⟨1, 0⟩
  obtain ⟨after, hnext⟩ := Reader.gives_next (Reader.stops_nil _) between
  unfold Reader.readAll
  show ((r >>= _).run.run _).1 = _
  rw [Reader.run_bind, hrun]
  show ((Reader.next >>= _).run.run _).1 = _
  rw [Reader.run_bind, hnext]
  rfl

theorem indexBound_le : indexBound ≤ Reader.wordBound := by decide

theorem spells_index {n : Nat} (h : n < indexBound) : Spells Reader.index (.nat n) n :=
  spells_natural h indexBound_le "u32"

end Json

/-! ## Places -/

theorem Position.spells {p : Position} (hline : p.line < Json.indexBound)
    (hcolumn : p.column < Json.indexBound) : Spells Position.reader p.json p := by
  have hfills : record.Fills (none, none) [("line", .nat p.line), ("column", .nat p.column)]
      (some p.line, some p.column) :=
    .cons (by decide) rfl ((Json.spells_index hline).map _)
      (.cons (by decide) rfl ((Json.spells_index hcolumn).map _) .nil)
  exact Json.spells_record hfills rfl

/-- The numbers of a place have 32 bits. -/
structure Coord.Narrow (c : Coord) : Prop where
  startLine : c.start.line < Json.indexBound
  startColumn : c.start.column < Json.indexBound
  stopLine : c.stop.line < Json.indexBound
  stopColumn : c.stop.column < Json.indexBound

theorem Coord.spells {c : Coord} (h : c.Narrow) : Spells Coord.reader c.json c := by
  have hfills : record.Fills (none, none) [("from", c.start.json), ("to", c.stop.json)]
      (some c.start, some c.stop) :=
    .cons (by decide) rfl ((Position.spells h.startLine h.startColumn).map _)
      (.cons (by decide) rfl ((Position.spells h.stopLine h.stopColumn).map _) .nil)
  exact Json.spells_record hfills rfl

/-! ## Nodes -/

/-- The id in a slot has 32 bits. -/
def Slot.Narrow : Slot → Prop
  | .node id => id.index < Json.indexBound
  | _ => True

theorem Slot.begins (slot : Slot) : Json.Begins slot.json.text.toList := by
  cases slot with
  | node id => exact Json.begins_nat id.index
  | text content => exact Json.begins_str content
  | flag value => exact Json.begins_bool value

theorem Slot.ofJson?_json {slot : Slot} (h : slot.Narrow) : ofJson? slot.json = some slot := by
  cases slot with
  | node id =>
    have hid : id.index < Json.indexBound := h
    show (if 0 ≤ (id.index : Int) && (id.index : Int) < Json.indexBound then
      some (Slot.node ⟨(id.index : Int).toNat⟩) else none) = _
    rw [if_pos (by simpa using hid)]
    rfl
  | text => rfl
  | flag => rfl

theorem Slot.spells_value {slot : Slot} (h : slot.Narrow) :
    Spells (Reader.value nesting) slot.json slot.json := by
  cases slot with
  | node id => exact Json.spells_value_nat (Nat.lt_of_lt_of_le h Json.indexBound_le) _
  | text content => exact Json.spells_value_str content _
  | flag value => exact Json.spells_value_bool value _

theorem Slot.spells {slot : Slot} (h : slot.Narrow) : Spells Slot.reader slot.json slot := by
  intro rest hrest
  refine (Slot.spells_value h rest hrest).bind ?_
  rw [Slot.ofJson?_json h]
  exact Reader.gives_pure slot rest

theorem Tag.spells (tag : Tag) : Spells Tag.reader (.str tag.name) tag := by
  refine Json.spells_variant ?_
  cases tag <;> decide

theorem Node.spells {node : Node} (h : ∀ slot ∈ node.slots, slot.Narrow) :
    Spells Node.reader node.json node := by
  have hslots : Spells (Reader.list Slot.reader) (.arr (node.slots.map Slot.json)) node.slots :=
    Json.spells_list fun slot hm => ⟨slot.begins, Slot.spells (h slot hm)⟩
  have hfills : record.Fills (none, none)
      [("tag", .str node.tag.name), ("elts", .arr (node.slots.map Slot.json))]
      (some node.tag, some node.slots) :=
    .cons (by decide) rfl ((Tag.spells node.tag).map _) (.cons (by decide) rfl (hslots.map _) .nil)
  exact Json.spells_record hfills rfl

/-! ## Tables -/

namespace Table

variable {α : Type}

theorem place_of_gt {key : Nat} {value : α} {entries : List (Nat × α)}
    (h : ∀ e ∈ entries, e.1 < key) : place key value entries = entries ++ [(key, value)] := by
  induction entries with
  | nil => rfl
  | cons e rest ih =>
    obtain ⟨hfirst, hrest⟩ := List.forall_mem_cons.1 h
    unfold place
    rw [if_neg (Nat.lt_asymm hfirst), if_neg (Nat.ne_of_gt hfirst), ih hrest]
    rfl

/-- Entries in ascending order may also be inserted from the first to the last. -/
theorem entries_foldl_insert {entries : List (Nat × α)} {t : Table α}
    (h : (t.entries ++ entries).Pairwise fun a b => a.1 < b.1) :
    (entries.foldl (fun t e => t.insert e.1 e.2) t).entries = t.entries ++ entries := by
  induction entries generalizing t with
  | nil => exact (List.append_nil _).symm
  | cons e rest ih =>
    have hinsert : (t.insert e.1 e.2).entries = t.entries ++ [e] := by
      refine place_of_gt fun a hm => ?_
      exact (List.pairwise_append.1 h).2.2 a hm e (List.mem_cons_self ..)
    rw [List.foldl_cons, ih, hinsert, List.append_assoc]
    · rfl
    · rw [hinsert, List.append_assoc]
      exact h

theorem ofList_reverse (t : Table α) : ofList t.entries.reverse = t := by
  unfold ofList
  rw [List.foldr_reverse]
  exact Table.ext (entries_foldl_insert (t := empty) t.ascending)

end Table

namespace Snapshot

variable {α : Type}

theorem spells_table {entry : Reader α} {encode : α → Json} {t : Table α}
    (h : ∀ e ∈ t.entries, e.1 < Json.indexBound ∧ Spells entry (encode e.2) e.2) :
    Spells (tableReader entry) (tableJson encode t) t := by
  have htable := (Json.spells_table Json.indexBound_le "u32" h).map fun entries =>
    Table.ofList entries.reverse
  rw [t.ofList_reverse] at htable
  exact htable

/-- The numbers of a snapshot have 32 bits. -/
structure Narrow (s : Snapshot) : Prop where
  root : s.root.index < Json.indexBound
  nodes : ∀ e ∈ s.nodes.entries, e.1 < Json.indexBound ∧ ∀ slot ∈ e.2.slots, slot.Narrow
  coords : ∀ e ∈ s.coords.entries, e.1 < Json.indexBound ∧ e.2.Narrow

/-- Reading the fields of a snapshot fills a draft, without places if the snapshot has none. -/
theorem fills {s : Snapshot} (h : s.Narrow) : ∃ coords : Option (Table Coord),
    coords.getD .empty = s.coords ∧
      record.Fills ⟨none, none, none, none⟩ ([("version", .str s.version),
        ("root", .nat s.root.index), ("nodes", tableJson Node.json s.nodes)] ++
          if s.coords.isEmpty then [] else [("coords", tableJson Coord.json s.coords)])
        ⟨some s.version, some s.root.index, some s.nodes, coords⟩ := by
  have hnodes : Spells (tableReader Node.reader) (tableJson Node.json s.nodes) s.nodes :=
    spells_table fun e hm => ⟨(h.nodes e hm).1, Node.spells (h.nodes e hm).2⟩
  have hcoords : Spells (tableReader Coord.reader) (tableJson Coord.json s.coords) s.coords :=
    spells_table fun e hm => ⟨(h.coords e hm).1, Coord.spells (h.coords e hm).2⟩
  have hfields {fields : List (String × Json)} {last : Draft}
      (hlast : record.Fills ⟨some s.version, some s.root.index, some s.nodes, none⟩ fields last) :
      record.Fills ⟨none, none, none, none⟩ ([("version", .str s.version),
        ("root", .nat s.root.index), ("nodes", tableJson Node.json s.nodes)] ++ fields) last :=
    .cons (by decide) rfl ((Json.spells_text s.version).map _)
      (.cons (by decide) rfl ((Json.spells_index h.root).map _)
        (.cons (by decide) rfl (hnodes.map _) hlast))
  split
  case isTrue hempty =>
    have hnone : s.coords = .empty := Table.ext (List.isEmpty_iff.1 hempty)
    exact ⟨none, hnone.symm, hfields .nil⟩
  case isFalse =>
    exact ⟨some s.coords, rfl, hfields (.cons (by decide) rfl (hcoords.map _) .nil)⟩

theorem spells {s : Snapshot} (h : s.Narrow) :
    Spells (Reader.record record ⟨none, none, none, none⟩) s.json s := by
  obtain ⟨coords, hcoords, hfills⟩ := fills h
  refine Json.spells_record hfills ?_
  show Except.ok (Snapshot.mk s.version ⟨s.root.index⟩ s.nodes (coords.getD .empty)) = .ok s
  rw [hcoords]

/-- A snapshot is read back from its text. -/
theorem parse_text (s : Snapshot) (h : s.Narrow) : parse s.text = .ok s :=
  Json.readAll_text (spells h)

/-- A snapshot with quotes, backslashes, controls and other letters in its texts, and with the
greatest numbers. -/
def escaped : Snapshot where
  version := "\"1\"\n"
  root := ⟨4294967295⟩
  nodes := .ofList [(0, .leaf .str "\t\\ \x01 é 😀"), (7, ⟨.bool, [.flag true, .node ⟨0⟩]⟩)]
  coords := .ofList [(7, ⟨⟨0, 4294967295⟩, ⟨3, 0⟩⟩)]

theorem parse_text_escaped : escaped.Narrow ∧ parse escaped.text = .ok escaped := by
  have hnarrow : escaped.Narrow := by
    constructor
    · decide
    · show ∀ e ∈ [(0, Node.leaf .str _), (7, ⟨.bool, [.flag true, .node ⟨0⟩]⟩)], _
      simp [Node.leaf, Slot.Narrow, Json.indexBound]
    · show ∀ e ∈ [(7, (⟨⟨0, 4294967295⟩, ⟨3, 0⟩⟩ : Coord))], _
      refine List.forall_mem_singleton.2 ⟨by decide, ?_⟩
      constructor <;> decide
  exact ⟨hnarrow, parse_text escaped hnarrow⟩

end Snapshot

end Juxta
