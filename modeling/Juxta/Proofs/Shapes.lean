import Juxta.Compile
import Juxta.Proofs.Grounded
import Juxta.Proofs.Walk.Queue

/-!
# Shapes tell the truth

The check of a program finds a shape for every node without evaluating it. Whatever a node comes to
when it is evaluated, in any scope, agrees with its shape, the values that failed operations fall
back to included. What the check complains of can therefore never be right.

* `Walk.ComesTo` : the output of a node, in whatever way it is computed;
* `Shape.Admits` : values that agree with a shape;
* `Computed.Fits`, `arithmetic_fits`, …, `Value.set_fits` : the results of operations;
* `Evaluator.promises_enter` : what a node comes to, from what its children come to;
* `Evaluator.admits_of_checked` : every node, by induction on its number;
* `Snapshot.shapes_sound` : the shapes and the complaints of a check, under all runs.
-/

namespace Juxta

/-! ## What nodes come to -/

namespace Walk

variable {Context Output Frame : Type} {w : Walk Context Output Frame} {context : Context}

/-- A run that begins at a node finishes with an output, under one of the ways of scheduling. -/
def ComesTo (w : Walk Context Output Frame) (context : Context) (id : NodeId) (output : Output) :
    Prop :=
  ∃ scheduling steps found, w.run scheduling steps id context = .finished found output

theorem comesTo_iff {id : NodeId} {output : Output} :
    w.ComesTo context id output ↔ ∃ found, w.Reaches context id (found, output) := by
  constructor
  · rintro ⟨scheduling, steps, found, h⟩
    cases scheduling with
    | direct => exact ⟨found, steps, h⟩
    | queued => exact ⟨found, reaches_of_run h⟩
  · rintro ⟨found, steps, h⟩
    exact ⟨.direct, steps, found, h⟩

theorem forall₂_comesTo {ids : List NodeId} {results : List (Result Output)}
    (h : List.Forall₂ (w.Reaches context) ids results) :
    List.Forall₂ (w.ComesTo context) ids (results.map Prod.snd) := by
  rw [List.forall₂_map_right_iff]
  exact h.imp fun _ result hr => comesTo_iff.2 ⟨result.1, hr⟩

end Walk

/-! ## Values of a shape -/

namespace Shape

/-- A value agrees with what is known of it. Failed arithmetic is a number, but not zero. -/
def Admits : Shape → Value → Prop
  | .unknown, _ => True
  | .boolean, .bool _ => True
  | .null, .null => True
  | .number zero, .number n => zero = true → n.isZero = true
  | .number zero, .nan => zero = false
  | .string empty, .string content => empty = true → content = ""
  | .list, .list _ => True
  | .record, .record _ => True
  | .function, .function _ => True
  | _, _ => False

/-- A value that is not primitive equals no other value. -/
theorem equivalent_eq_false_left {shape : Shape} {left : Value} (hp : shape.mayBePrimitive = false)
    (h : shape.Admits left) (right : Value) : equivalent left right = false := by
  cases shape <;> cases left <;> simp_all [mayBePrimitive, Admits, equivalent]

theorem equivalent_eq_false_right {shape : Shape} {right : Value}
    (hp : shape.mayBePrimitive = false) (h : shape.Admits right) (left : Value) :
    equivalent left right = false := by
  cases shape <;> cases right <;> simp_all [mayBePrimitive, Admits, equivalent]

/-- A value that is no function by its shape has another type. -/
theorem type_ne_function {shape : Shape} {value : Value} (hf : shape.mayBeFunction = false)
    (h : shape.Admits value) : value.type ≠ .function := by
  cases shape <;> cases value <;> simp_all [mayBeFunction, Admits, Value.type]

end Shape

/-! ## Operations -/

/-- What is true of the value of an operation, or of the value in its place. -/
def Computed.Fits (p : Value → Prop) : Computed → Prop
  | .value result => p result
  | .fallback _ result => p result
  | .endless => True

theorem Shape.admits_number (n : Decimal) : (Shape.number false).Admits (.number n) := nofun

theorem arithmetic_fits (tag : Tag) (values : List Value) :
    (arithmetic tag values).Fits (Shape.number false).Admits := by
  have nan : (Shape.number false).Admits .nan := rfl
  unfold arithmetic
  split
  · exact nan
  · split
    · exact nan
    · dsimp only
      split
      · exact nan
      · exact Shape.admits_number _
      · exact nan

theorem comparison_fits (tag : Tag) (values : List Value) :
    (comparison tag values).Fits Shape.boolean.Admits := by
  unfold comparison
  split
  · exact trivial
  · split
    · exact trivial
    · split <;> exact trivial
    · exact trivial

theorem progressionFrom_fits (step stop : Decimal) (items : List Value) (current : Decimal) :
    (progressionFrom step stop items current).Fits Shape.list.Admits := by
  fun_induction progressionFrom step stop items current with
  | case1 => exact trivial
  | case2 _ _ _ _ _ _ _ _ ih => exact ih
  | case3 => exact trivial
  | case4 => exact trivial

theorem progression_fits (values : List Value) : (progression values).Fits Shape.list.Admits := by
  unfold progression
  split
  · exact trivial
  · split
    · exact trivial
    · dsimp only
      split
      · split
        · exact progressionFrom_fits _ _ _ _
        · exact trivial
      · exact trivial
  · exact trivial

namespace Value

theorem tl_fits (value : Value) : value.tl.Fits Shape.list.Admits := by
  unfold tl
  split <;> exact trivial

theorem admits_ofNat (n : Nat) : (Shape.number false).Admits (ofNat n) := by
  unfold ofNat
  split
  · exact Shape.admits_number _
  · exact rfl

theorem len_fits (value : Value) : value.len.Fits (Shape.number false).Admits := by
  unfold len
  split
  · exact admits_ofNat _
  · exact admits_ofNat _
  · exact admits_ofNat _
  · exact Shape.admits_number _

theorem admits_concat (value : Value) : (Shape.string false).Admits value.concat := by
  unfold concat
  split <;> exact nofun

theorem set_fits (container key value : Value) :
    (container.set key value).Fits Shape.record.Admits := by
  unfold set
  split <;> exact trivial

end Value

/-- The value of a sequence: nothing, its only term, or all of them. -/
theorem exprs_fits {shapes : List Shape} {values : List Value}
    (h : List.Forall₂ Shape.Admits shapes values) (slots : List Slot) (s : Surroundings) :
    (Tag.exprs.operate s values).Fits (Node.shape ⟨.exprs, slots⟩ shapes).Admits := by
  cases h with
  | nil => exact trivial
  | cons first rest => cases rest with
    | nil => exact first
    | cons _ _ => exact trivial

/-- An operand that is not primitive is equivalent to nothing. -/
theorem equiv_fits {shapes : List Shape} {values : List Value}
    (h : List.Forall₂ Shape.Admits shapes values)
    (hp : ∃ shape ∈ shapes, shape.mayBePrimitive = false) (s : Surroundings) :
    (Tag.equiv.operate s values).Fits (· = .bool false) := by
  unfold Tag.operate
  dsimp only
  split
  · rename_i left right
    obtain ⟨first, rest, hleft, hrest, rfl⟩ := List.forall₂_cons_right_iff.1 h
    obtain ⟨second, last, hright, hlast, rfl⟩ := List.forall₂_cons_right_iff.1 hrest
    obtain rfl := List.forall₂_nil_right_iff.1 hlast
    obtain ⟨shape, hm, hshape⟩ := hp
    refine congrArg Value.bool ?_
    rcases List.mem_cons.1 hm with rfl | hm
    · exact Shape.equivalent_eq_false_left hshape hleft right
    · obtain rfl := List.mem_singleton.1 hm
      exact Shape.equivalent_eq_false_right hshape hright left
  · exact rfl

theorem literal_fits (node : Node) (h : node.tag.isLiteral = true) (shapes : List Shape) :
    (Evaluator.literal node).Fits (node.shape shapes).Admits := by
  obtain ⟨tag, slots⟩ := node
  cases tag with
  | num =>
    unfold Evaluator.literal Node.shape Node.isZero
    dsimp only
    cases Node.text? ⟨.num, slots⟩ with
    | none =>
      simp only [Option.getD_none, Option.bind_none]
      split
      · exact Shape.admits_number _
      · exact rfl
    | some text =>
      simp only [Option.getD_some, Option.bind_some]
      cases Number.parse? text with
      | none => exact rfl
      | some n => exact id
  | str => exact fun hempty => eq_of_beq hempty
  | bool => exact trivial
  | null => exact trivial
  | _ => cases h

namespace Evaluator

variable {e : Evaluator}

/-! ## Actions -/

/-- What is true of all values that an action comes to. -/
def Promises (e : Evaluator) (action : EvalAction) (p : Value → Prop) : Prop :=
  ∀ r, e.walk.Yields action r → p r.2

section Promises

variable {p : Value → Prop}

theorem promises_done {found : List Diagnostic} {value : Value} (h : p value) :
    e.Promises (.done found value) p := by
  intro r hr
  obtain rfl := (e.walk.yields_done_iff _ _ r).1 hr
  exact h

theorem promises_after {found : List Diagnostic} {action : EvalAction} (h : e.Promises action p) :
    e.Promises (.after found action) p := by
  intro r hr
  obtain ⟨more, hm, -⟩ := (e.walk.yields_after_iff _ _ r).1 hr
  exact h (more, r.2) hm

theorem promises_settle (site : NodeId) (found : List Diagnostic) {result : Computed}
    (h : result.Fits p) : e.Promises (e.settle site found result) p := by
  unfold settle
  split
  · exact promises_done h
  · exact promises_done h
  · exact promises_done h
  · rintro r ⟨steps, hs⟩
    cases steps <;> cases hs

theorem promises_gather {ids : List NodeId} {context : Context} {frame : EvalFrame}
    (h : ∀ found values, List.Forall₂ (e.walk.ComesTo context) ids values →
      e.Promises (e.resume frame found values) p) :
    e.Promises (.gather ids context frame) p := by
  intro r hr
  obtain ⟨results, hresults, hy⟩ := (e.walk.yields_gather_iff _ _ _ r).1 hr
  exact h _ _ (Walk.forall₂_comesTo hresults) r hy

/-- An operation keeps what it promises for operands that agree with their shapes. -/
theorem promises_operands {site : NodeId} {tag : Tag} {ids : List NodeId} {context : Context}
    {shapes : List Shape} (hids : ∀ values, List.Forall₂ (e.walk.ComesTo context) ids values →
      List.Forall₂ Shape.Admits shapes values)
    (h : ∀ s values, List.Forall₂ Shape.Admits shapes values → (tag.operate s values).Fits p) :
    e.Promises (.gather ids context (.operands site tag context)) p :=
  promises_gather fun found values hv => promises_settle site found (h _ values (hids values hv))

end Promises

/-- The calls of MAP and FILTER for the items of a list come to a list. -/
theorem promises_advance {i : Iteration} (h : i.tag ≠ .reduce) (items : List Value) :
    e.Promises (e.advance i items) Shape.list.Admits := by
  induction items generalizing i with
  | nil =>
    refine promises_done ?_
    unfold Iteration.result
    rw [if_neg h]
    exact trivial
  | cons item rest ih =>
    intro r hr
    obtain ⟨inner, -, hy⟩ := (e.walk.yields_capture_iff _ _ r).1 hr
    refine ih ?_ r hy
    unfold Iteration.take
    dsimp only
    split
    · exact h
    · split <;> exact h
    · exact h

theorem promises_each (site : NodeId) {tag : Tag} (h : tag ≠ .reduce) (context : Context)
    (found : List Diagnostic) (values : List Value) :
    e.Promises (e.each site tag context found values) Shape.list.Admits := by
  unfold each
  simp only [if_neg h]
  split
  · split
    · exact promises_advance h _
    · exact promises_settle site found trivial
  · exact promises_settle site found trivial

theorem promises_connective (tag : Tag) (right : NodeId) (context : Context)
    (found : List Diagnostic) (values : List Value) :
    e.Promises (e.resume (.connective tag right context) found values) Shape.boolean.Admits := by
  unfold resume
  dsimp only
  split
  · exact promises_done trivial
  · exact promises_after (promises_gather fun _ _ _ => promises_done trivial)

/-- What a node comes to agrees with its shape if what its children come to does. -/
theorem promises_enter {id : NodeId} {node : Node} {context : Context} {shapes : List Shape}
    (hids : ∀ values, List.Forall₂ (e.walk.ComesTo context) node.children values →
      List.Forall₂ Shape.Admits shapes values)
    (hparen : node.tag = .paren →
      e.Promises (.visit (node.child 0) context) (shapes.headD .null).Admits) :
    e.Promises (e.enter id node context) (node.shape shapes).Admits := by
  obtain ⟨tag, slots⟩ := node
  cases tag with
  | num => exact promises_settle id [] (literal_fits ⟨.num, slots⟩ rfl shapes)
  | str => exact promises_settle id [] (literal_fits ⟨.str, slots⟩ rfl shapes)
  | bool => exact promises_settle id [] (literal_fits ⟨.bool, slots⟩ rfl shapes)
  | null => exact promises_settle id [] (literal_fits ⟨.null, slots⟩ rfl shapes)
  | paren => exact hparen rfl
  | lambda => exact promises_done trivial
  | exprs => exact promises_operands hids fun s _ hv => exprs_fits hv slots s
  | list | record | binding | not | print => exact promises_operands hids fun _ _ _ => trivial
  | add | sub | mul | div | mod | pow | neg | min | max =>
    exact promises_operands hids fun _ values _ => arithmetic_fits _ values
  | eq | ne | lt | gt | le | ge =>
    exact promises_operands hids fun _ values _ => comparison_fits _ values
  | equiv =>
    refine promises_operands hids fun _ values _ => ?_
    unfold Tag.operate
    dsimp only
    split <;> exact trivial
  | concat => exact promises_operands hids fun _ values _ => Value.admits_concat _
  | range => exact promises_operands hids fun _ values _ => progression_fits values
  | len => exact promises_operands hids fun _ values _ => Value.len_fits _
  | tl => exact promises_operands hids fun _ values _ => Value.tl_fits _
  | set =>
    refine promises_operands hids fun _ values _ => ?_
    unfold Tag.operate
    dsimp only
    split
    · exact Value.set_fits _ _ _
    · exact trivial
  | and | or => exact promises_gather fun _ _ _ => promises_connective _ _ context _ _
  | map | filter =>
    exact promises_gather fun found values _ => promises_each id (by simp) context found values
  | _ => exact fun _ _ => trivial

end Evaluator

/-! ## Checks -/

namespace Store

/-- The check finds a shape for a node. -/
abbrev Checked (s : Store) : NodeId → Shape → Prop := (checking s).ComesTo ()

namespace Checked

variable {s : Store} {id : NodeId} {shape : Shape}

theorem of_absent (h : s.Checked id shape) (ha : id.isAbsent = true) : shape = .null := by
  obtain ⟨found, hr⟩ := Walk.comesTo_iff.1 h
  rw [Walk.reaches_iff, if_pos ha] at hr
  exact (Prod.mk.inj hr).2

/-- The shape of a node is that of its tag, from the shapes of its children. -/
theorem of_node? (h : s.Checked id shape) {node : Node} (hn : s.node? id = some node) :
    ∃ shapes, List.Forall₂ s.Checked node.children shapes ∧ shape = node.shape shapes := by
  obtain ⟨found, hr⟩ := Walk.comesTo_iff.1 h
  rw [Walk.reaches_iff, isAbsent_of_node? hn] at hr
  obtain ⟨other, ho, hy⟩ := hr
  obtain rfl : other = node := Option.some.inj (ho.symm.trans hn)
  obtain ⟨results, hresults, hy⟩ := ((checking s).yields_gather_iff _ _ _ _).1 hy
  have he := ((checking s).yields_done_iff _ _ _).1 hy
  exact ⟨results.map Prod.snd, Walk.forall₂_comesTo hresults, (Prod.mk.inj he).2⟩

end Checked

/-- All parentheses stand around a single node, and hold nothing else that is a node. -/
def SingleParens (s : Store) : Prop :=
  ∀ id node, s.node? id = some node → node.tag = .paren → node.children = [node.child 0]

theorem singleParens_empty : empty.SingleParens := by
  intro id node hn
  obtain ⟨hpos, hknows⟩ := (node?_ne_none_iff empty id).1 (by rw [hn]; nofun)
  exact absurd hknows (Nat.not_le_of_lt hpos)

theorem SingleParens.push {s : Store} (h : s.SingleParens) {node : Node} {coord : Option Coord}
    {fresh : s.index[node]? = none} (hnode : node.tag = .paren → node.children = [node.child 0]) :
    (s.push node coord fresh).SingleParens := by
  intro id other ho
  rcases node?_push ho with ⟨-, rfl⟩ | hold
  · exact hnode
  · exact h id other hold

end Store

namespace Evaluator

variable {e : Evaluator}

/-- Values agree with the shapes of their nodes, one by one. -/
theorem forall₂_admits {ids : List NodeId} {shapes : List Shape} {values : List Value}
    {context : Context} (h : ∀ id ∈ ids, ∀ shape, e.store.Checked id shape →
      ∀ value, e.walk.ComesTo context id value → shape.Admits value)
    (hs : List.Forall₂ e.store.Checked ids shapes)
    (hv : List.Forall₂ (e.walk.ComesTo context) ids values) :
    List.Forall₂ Shape.Admits shapes values := by
  induction hs generalizing values with
  | nil =>
    cases hv
    exact .nil
  | cons hshape _ ih =>
    cases hv with
    | cons hvalue hrest =>
      obtain ⟨hfirst, h⟩ := List.forall_mem_cons.1 h
      exact .cons (hfirst _ hshape _ hvalue) (ih h hrest)

/-- Whatever a node comes to in any context agrees with the shape that the check has found. -/
theorem admits_of_checked (hg : e.store.Grounded) (hp : e.store.SingleParens) {id : NodeId}
    {shape : Shape} (hc : e.store.Checked id shape) {context : Context} {value : Value}
    (hv : e.walk.ComesTo context id value) : shape.Admits value := by
  induction hi : id.index using Nat.strongRecOn generalizing id shape value with
  | ind index ih =>
    subst hi
    obtain ⟨found, hr⟩ := Walk.comesTo_iff.1 hv
    rw [Walk.reaches_iff] at hr
    split at hr
    · rename_i ha
      cases hr
      rw [hc.of_absent ha]
      exact trivial
    · obtain ⟨node, hn, hy⟩ := hr
      have hnode : e.store.node? id = some node := hn
      obtain ⟨shapes, hshapes, rfl⟩ := hc.of_node? hnode
      have child : ∀ other ∈ node.children, ∀ shape, e.store.Checked other shape →
          ∀ value, e.walk.ComesTo context other value → shape.Admits value :=
        fun other hm shape hs value hv => ih _ (hg id node hnode other hm) hs hv rfl
      refine promises_enter (fun values hv => forall₂_admits child hshapes hv)
        (fun htag r hr => ?_) _ hy
      have hone := hp id node hnode htag
      rw [hone] at hshapes child
      obtain ⟨inner, rest, hinner, -, rfl⟩ := List.forall₂_cons_left_iff.1 hshapes
      exact child _ (List.mem_cons_self ..) inner hinner r.2
        (Walk.comesTo_iff.2 ⟨r.1, (e.walk.yields_visit_iff _ _ r).1 hr⟩)

/-! ## Complaints -/

/-- An equivalence whose operands the check complains of is false. -/
theorem eq_false_of_problems (hg : e.store.Grounded) (hp : e.store.SingleParens) {id : NodeId}
    {node : Node} (hn : e.store.node? id = some node) (htag : node.tag = .equiv)
    {shapes : List Shape} (hs : List.Forall₂ e.store.Checked node.children shapes)
    (hne : node.tag.problems shapes ≠ []) {context : Context} {value : Value}
    (hv : e.walk.ComesTo context id value) : value = .bool false := by
  have hodd : ∃ shape ∈ shapes, shape.mayBePrimitive = false := by
    rw [htag] at hne
    obtain ⟨shape, hm⟩ := List.exists_mem_of_ne_nil _ fun h => hne (congrArg (List.map _) h)
    obtain ⟨hm, hshape⟩ := List.mem_filter.1 hm
    exact ⟨shape, hm, by simpa using hshape⟩
  obtain ⟨found, hr⟩ := Walk.comesTo_iff.1 hv
  rw [Walk.reaches_iff, Store.isAbsent_of_node? hn] at hr
  obtain ⟨other, ho, hy⟩ := hr
  obtain rfl : other = node := Option.some.inj (ho.symm.trans hn)
  obtain ⟨tag, slots⟩ := other
  cases htag
  refine promises_operands (fun values hv => ?_) (fun s values hv => equiv_fits hv hodd s) _ hy
  exact forall₂_admits (fun _ _ _ hc _ => admits_of_checked hg hp hc) hs hv

/-- The node that is called where a node calls a function. -/
def callee (node : Node) : NodeId :=
  if node.tag = .apply then node.child 0 else node.children.headD .absent

/-- What is called is the first child, or nothing. -/
theorem callee_eq (node : Node) :
    callee node = node.children.headD .absent ∨ callee node = .absent := by
  obtain ⟨tag, slots⟩ := node
  unfold callee
  split
  · match slots with
    | [] => exact Or.inr rfl
    | .node id :: rest => exact Or.inl rfl
    | .text _ :: rest => exact Or.inr rfl
    | .flag _ :: rest => exact Or.inr rfl
  · exact Or.inl rfl

/-- The check complains of the first child where a function is called. -/
theorem exists_first_of_problems {tag : Tag} (htag : tag ∈ [.map, .filter, .reduce, .apply])
    {shapes : List Shape} (hne : tag.problems shapes ≠ []) :
    ∃ first rest, shapes = first :: rest ∧ first.mayBeFunction = false := by
  simp only [List.mem_cons, List.not_mem_nil, or_false] at htag
  cases shapes with
  | nil => rcases htag with rfl | rfl | rfl | rfl <;> exact absurd rfl hne
  | cons first rest =>
    refine ⟨first, rest, rfl, Bool.eq_false_iff.2 fun hfirst => hne ?_⟩
    rcases htag with rfl | rfl | rfl | rfl <;> simp [Tag.problems, hfirst]

/-- What the check complains of where a function is called is no function. -/
theorem type_ne_function_of_problems (hg : e.store.Grounded) (hp : e.store.SingleParens)
    {node : Node} (htag : node.tag ∈ [.map, .filter, .reduce, .apply]) {shapes : List Shape}
    (hs : List.Forall₂ e.store.Checked node.children shapes)
    (hne : node.tag.problems shapes ≠ []) {context : Context} {value : Value}
    (hv : e.walk.ComesTo context (callee node) value) : value.type ≠ .function := by
  obtain ⟨first, rest, rfl, hfirst⟩ := exists_first_of_problems htag hne
  obtain ⟨id, others, hid, -, hchildren⟩ := List.forall₂_cons_right_iff.1 hs
  rcases callee_eq node with hcallee | hcallee
  · rw [hcallee, hchildren] at hv
    exact Shape.type_ne_function hfirst (admits_of_checked hg hp hid hv)
  · obtain ⟨found, hr⟩ := Walk.comesTo_iff.1 hv
    rw [hcallee, Walk.reaches_iff] at hr
    cases hr
    nofun

end Evaluator

/-- The check of a snapshot that is accepted, and in which all parentheses stand around a single
node, tells the truth: whatever a node comes to, in any scope, with any data and under either way
of scheduling, agrees with the shape that the check finds for it. So an equivalence is false if the
check complains of an operand, and what it complains of where a function is called is none. -/
theorem Snapshot.shapes_sound {snapshot : Snapshot} {e : Evaluator}
    (hl : snapshot.load = .ok e.store) (hp : e.store.SingleParens) :
    (∀ id shape, e.store.Checked id shape → ∀ context value, e.walk.ComesTo context id value →
        shape.Admits value) ∧
      ∀ id node, e.store.node? id = some node →
        ∀ shapes, List.Forall₂ e.store.Checked node.children shapes →
          node.tag.problems shapes ≠ [] → ∀ context value,
            (node.tag = .equiv → e.walk.ComesTo context id value → value = .bool false) ∧
            (node.tag ∈ [.map, .filter, .reduce, .apply] →
              e.walk.ComesTo context (Evaluator.callee node) value → value.type ≠ .function) := by
  obtain ⟨hg, -⟩ := Snapshot.load_grounded hl
  refine ⟨fun id shape hc context value => Evaluator.admits_of_checked hg hp hc, ?_⟩
  intro id node hn shapes hs hne context value
  exact ⟨fun htag => Evaluator.eq_false_of_problems hg hp hn htag hs hne,
    fun htag => Evaluator.type_ne_function_of_problems hg hp htag hs hne⟩

/-- A list in parentheses, compared with itself. -/
def Store.selfCompared : Store :=
  ((Store.empty.push ⟨.list, []⟩ none (by simp [empty])).push (.branch .paren [⟨1⟩]) none
    (by simp [empty, push, Node.branch])).push (.branch .equiv [⟨2⟩, ⟨2⟩]) none
    (by simp [empty, push, Node.branch])

theorem Store.load_selfCompared :
    (Store.selfCompared.snapshot ⟨3⟩).load = .ok Store.selfCompared := by
  have hbuilt : Store.selfCompared.Built := by
    refine .push (.push (.push .empty fun _ hm => nomatch hm) ?_) ?_
    · simp [Knows, size, push, empty]
    · simp [Knows, size, push, empty]
  exact hbuilt.load_snapshot (Option.some_ne_none _)

theorem Store.singleParens_selfCompared : Store.selfCompared.SingleParens :=
  ((singleParens_empty.push (by simp)).push fun _ => rfl).push (by simp [Node.branch])

/-- In all contexts the list is a list, and it is not even equivalent to itself. -/
theorem Snapshot.shapes_sound_selfCompared :
    (Store.selfCompared.snapshot ⟨3⟩).load = .ok Store.selfCompared ∧
      Store.selfCompared.SingleParens ∧
      (∀ context value, (Evaluator.walk ⟨Store.selfCompared, .null, 5, .empty⟩).ComesTo context ⟨2⟩
        value → Shape.list.Admits value) ∧
      ∀ context value, (Evaluator.walk ⟨Store.selfCompared, .null, 5, .empty⟩).ComesTo context ⟨3⟩
        value → value = .bool false := by
  let e : Evaluator := ⟨Store.selfCompared, .null, 5, .empty⟩
  have hload : (Store.selfCompared.snapshot ⟨3⟩).load = .ok e.store := Store.load_selfCompared
  obtain ⟨hshapes, hproblems⟩ := Snapshot.shapes_sound hload Store.singleParens_selfCompared
  have hlist : e.store.Checked ⟨2⟩ .list := ⟨.direct, 5, [], rfl⟩
  have hodd : Tag.equiv.problems [.list, .list] ≠ [] := List.cons_ne_nil _ _
  refine ⟨hload, Store.singleParens_selfCompared, hshapes ⟨2⟩ .list hlist, fun context value => ?_⟩
  exact (hproblems ⟨3⟩ (.branch .equiv [⟨2⟩, ⟨2⟩]) rfl [.list, .list]
    (.cons hlist (.cons hlist .nil)) hodd context value).1 rfl

end Juxta
