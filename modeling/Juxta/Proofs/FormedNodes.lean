import Juxta.Proofs.FreeNames

/-!
# Well-formed nodes

What the kind of a node says about its slots. Operations have as many nodes below them as the
builtin functions and operators that build them take; the other kinds have slots of their own.

* `Tag.operands?` : how many nodes an operation has below it, as many as a builtin function takes
  (`Lexicon.fitting_standard`) and two for an operator (`BinOp.operands?_tag`);
* `Node.Formed` : nodes with the slots of their kinds; whatever stands in them is stored, but for
  the second branch of a conditional;
* `Store.Formed` : stores in which all nodes are well-formed, and stay so when others are stored
  (`Store.Formed.intern`);
* `Node.Formed.of_row`, `Node.Formed.of_record` and so on : what stands below a node of each kind.
-/

namespace Juxta

/-! ## Operations -/

/-- How many nodes stand below an operation; none for kinds that are no operations. -/
def Tag.operands? : Tag → Option Nat
  | .prog | .paren | .neg | .concat | .not | .len | .hd | .tl | .data | .arg | .json | .print =>
    some 1
  | .apply | .add | .sub | .mul | .div | .mod | .pow | .min | .max | .eq | .ne | .lt | .gt | .le
  | .ge | .and | .or | .equiv | .clause | .map | .filter | .get | .val | .key | .nth => some 2
  | .range | .reduce | .set => some 3
  | .num | .str | .bool | .null | .ident | .wildcard | .exprs | .list | .record | .binding
  | .lambda | .case | .ifThen => none

/-- The kinds that are no operations. -/
theorem Tag.kind_of_operands? {tag : Tag} (h : tag.operands? = none) :
    tag ∈ [.num, .str, .bool, .null, .ident, .wildcard, .exprs, .list, .record, .binding, .lambda,
      .case, .ifThen] := by
  cases tag <;> first | decide | cases h

/-- A lexicon whose builtin functions take as many terms as the operations that they build have
below them. -/
def Lexicon.Fitting (lexicon : Lexicon) : Prop :=
  ∀ builtin ∈ lexicon.builtins, builtin.2.tag.operands? = some builtin.2.arity

theorem Lexicon.fitting_standard : standard.Fitting := by
  unfold Fitting
  decide

/-- Operators have two operands. Those of a concatenation stand in a list. -/
theorem BinOp.operands?_tag {op : BinOp} (h : op ≠ .concat) : op.tag.operands? = some 2 := by
  cases op <;> first | rfl | exact absurd rfl h

/-! ## Nodes -/

namespace Store

variable {s t : Store} {id : NodeId} {node : Node}

/-- An id that stands for a node. -/
def Present (s : Store) (id : NodeId) : Prop := ∃ node, s.node? id = some node

/-- Ids that stand for nodes. -/
abbrev AllPresent (s : Store) (ids : List NodeId) : Prop := ∀ id ∈ ids, s.Present id

theorem Present.isAbsent (h : s.Present id) : id.isAbsent = false :=
  have ⟨_, hnode⟩ := h
  isAbsent_of_node? hnode

theorem Present.extend (h : s.Present id) (he : s.Extends t) : t.Present id :=
  have ⟨node, hnode⟩ := h
  ⟨node, he.node?_of_some hnode⟩

theorem AllPresent.extend {ids : List NodeId} (h : s.AllPresent ids) (he : s.Extends t) :
    t.AllPresent ids := fun id hm => (h id hm).extend he

theorem present_of_tag? {tag : Tag} (h : s.tag? id = some tag) : s.Present id :=
  have ⟨node, hnode, _⟩ := Option.map_eq_some_iff.1 h
  ⟨node, hnode⟩

theorem tag?_of_node? (h : s.node? id = some node) : s.tag? id = some node.tag := by
  unfold tag?
  rw [h]
  rfl

end Store

/-- Nodes with the slots that their kinds require. -/
inductive Node.Formed (s : Store) : Node → Prop where
  | leaf {tag : Tag} {text : String} (h : tag = .num ∨ tag = .str ∨ tag = .ident) :
      Formed s (.leaf tag text)
  | flag {value : Bool} : Formed s ⟨.bool, [.flag value]⟩
  | bare {tag : Tag} (h : tag = .null ∨ tag = .wildcard) : Formed s ⟨tag, []⟩
  | row {tag : Tag} {ids : List NodeId} (h : tag = .exprs ∨ tag = .list) (hi : s.AllPresent ids) :
      Formed s (.branch tag ids)
  | record {fields : List NodeId} (h : ∀ field ∈ fields, s.tag? field = some .binding) :
      Formed s (.branch .record fields)
  | binding {key value : NodeId} (hk : s.tag? key = some .str) (hv : s.Present value) :
      Formed s (.branch .binding [key, value])
  | lambda {list body : NodeId} {params : List NodeId}
      (hl : s.node? list = some (.branch .list params))
      (hp : ∀ param ∈ params, s.tag? param = some .ident) (hb : s.tag? body = some .exprs) :
      Formed s (.branch .lambda [list, body])
  | case {scrutinee : NodeId} {clauses : List NodeId} (hs : s.Present scrutinee)
      (hc : ∀ clause ∈ clauses, s.tag? clause = some .clause) :
      Formed s (.branch .case (scrutinee :: clauses))
  | choice {condition yes no : NodeId} (hc : s.Present condition) (hy : s.Present yes)
      (hn : no = .absent ∨ s.Present no) : Formed s (.branch .ifThen [condition, yes, no])
  | operation {tag : Tag} {operands : List NodeId} (h : tag.operands? = some operands.length)
      (ho : s.AllPresent operands) : Formed s (.branch tag operands)

namespace Store

variable {s t : Store} {id : NodeId} {node : Node}

/-- All nodes have the slots that their kinds require. -/
def Formed (s : Store) : Prop := ∀ id node, s.node? id = some node → node.Formed s

end Store

theorem Node.Formed.extend {s t : Store} {node : Node} (h : node.Formed s) (he : s.Extends t) :
    node.Formed t := by
  cases h with
  | leaf h => exact .leaf h
  | flag => exact .flag
  | bare h => exact .bare h
  | row h hi => exact .row h (hi.extend he)
  | record h => exact .record fun field hm => he.tag?_of_some (h field hm)
  | binding hk hv => exact .binding (he.tag?_of_some hk) (hv.extend he)
  | lambda hl hp hb =>
    exact .lambda (he.node?_of_some hl) (fun param hm => he.tag?_of_some (hp param hm))
      (he.tag?_of_some hb)
  | case hs hc => exact .case (hs.extend he) fun clause hm => he.tag?_of_some (hc clause hm)
  | choice hc hy hn =>
    exact .choice (hc.extend he) (hy.extend he) (hn.imp_right fun h => h.extend he)
  | operation h ho => exact .operation h (ho.extend he)

namespace Store

variable {s t : Store} {id : NodeId} {node : Node}

theorem formed_empty : empty.Formed := by
  intro id node h
  unfold node? entry? at h
  split at h <;> cases h

theorem Formed.push (h : s.Formed) (hn : node.Formed s) {coord : Option Coord}
    (fresh : s.index[node]? = none) : (s.push node coord fresh).Formed := by
  have he := s.extends_push node coord fresh
  intro id other ho
  rcases node?_push ho with ⟨-, rfl⟩ | hold
  · exact hn.extend he
  · exact (h id other hold).extend he

/-- One more well-formed node. -/
theorem Formed.intern (h : s.Formed) (hn : node.Formed s) (coord : Option Coord) :
    (s.intern node coord).2.Formed := by
  unfold Store.intern
  split
  · exact h
  · rename_i hfresh
    exact h.push hn hfresh

end Store

/-! ## What is below a node -/

namespace Node.Formed

variable {s : Store} {node : Node}

theorem of_row (h : node.Formed s) (ht : node.tag = .exprs ∨ node.tag = .list) :
    ∃ ids, node = .branch node.tag ids ∧ s.AllPresent ids := by
  obtain ⟨tag, slots⟩ := node
  rcases ht with ht | ht <;> cases ht <;> cases h with
  | row _ hi => exact ⟨_, rfl, hi⟩
  | operation h => cases h
  | leaf h | bare h => exact absurd h (by decide)

theorem of_record (h : node.Formed s) (ht : node.tag = .record) :
    ∃ fields, node = .branch .record fields ∧
      ∀ field ∈ fields, s.tag? field = some .binding := by
  obtain ⟨tag, slots⟩ := node
  cases ht
  cases h with
  | record hf => exact ⟨_, rfl, hf⟩
  | operation h => cases h
  | leaf h | bare h | row h => exact absurd h (by decide)

theorem of_binding (h : node.Formed s) (ht : node.tag = .binding) :
    ∃ key value, node = .branch .binding [key, value] ∧ s.tag? key = some .str ∧
      s.Present value := by
  obtain ⟨tag, slots⟩ := node
  cases ht
  cases h with
  | binding hk hv => exact ⟨_, _, rfl, hk, hv⟩
  | operation h => cases h
  | leaf h | bare h | row h => exact absurd h (by decide)

theorem of_lambda (h : node.Formed s) (ht : node.tag = .lambda) :
    ∃ list body params, node = .branch .lambda [list, body] ∧
      s.node? list = some (.branch .list params) ∧
      (∀ param ∈ params, s.tag? param = some .ident) ∧ s.tag? body = some .exprs := by
  obtain ⟨tag, slots⟩ := node
  cases ht
  cases h with
  | lambda hl hp hb => exact ⟨_, _, _, rfl, hl, hp, hb⟩
  | operation h => cases h
  | leaf h | bare h | row h => exact absurd h (by decide)

theorem of_case (h : node.Formed s) (ht : node.tag = .case) :
    ∃ scrutinee clauses, node = .branch .case (scrutinee :: clauses) ∧ s.Present scrutinee ∧
      ∀ clause ∈ clauses, s.tag? clause = some .clause := by
  obtain ⟨tag, slots⟩ := node
  cases ht
  cases h with
  | case hs hc => exact ⟨_, _, rfl, hs, hc⟩
  | operation h => cases h
  | leaf h | bare h | row h => exact absurd h (by decide)

theorem of_choice (h : node.Formed s) (ht : node.tag = .ifThen) :
    ∃ condition yes no, node = .branch .ifThen [condition, yes, no] ∧ s.Present condition ∧
      s.Present yes ∧ (no = .absent ∨ s.Present no) := by
  obtain ⟨tag, slots⟩ := node
  cases ht
  cases h with
  | choice hc hy hn => exact ⟨_, _, _, rfl, hc, hy, hn⟩
  | operation h => cases h
  | leaf h | bare h | row h => exact absurd h (by decide)

theorem of_operation (h : node.Formed s) {count : Nat} (ht : node.tag.operands? = some count) :
    ∃ operands, node = .branch node.tag operands ∧ operands.length = count ∧
      s.AllPresent operands := by
  cases h with
  | operation hcount ho => exact ⟨_, rfl, Option.some.inj (hcount.symm.trans ht), ho⟩
  | leaf h => rcases h with rfl | rfl | rfl <;> cases ht
  | bare h | row h => rcases h with rfl | rfl <;> cases ht
  | _ => cases ht

end Node.Formed

/-- The only element of a sequence, or the node itself. -/
theorem Store.Present.unwrap {s : Store} (h : s.Formed) {id : NodeId} (hid : s.Present id) :
    s.Present (s.unwrap id) :=
  unwrap_of_branches (fun node hn ht => (h id node hn).of_row (.inl ht)) hid

end Juxta
