import Juxta.Proofs.Resuming
import Juxta.Proofs.Walk.Courses

/-!
# Records never have a name twice

Records are lists of fields, and fields with one name twice would be lost when they are looked up or
rendered. Evaluation makes no such record, whatever the program repeats and the data from outside
holds.

* `Fields.Orderly` : a record in which every name has one value, which is found and rendered;
* `Value.Has`, `Scope.Has` : what occurs in a value: items, fields, and what a function holds;
* `Context.Has`, `EvalFrame.Has`, `EvalAction.Has` : what occurs in an evaluation;
* `EvalAction.within_of_has` : it is within the bounds of the evaluation;
* `records_orderly` : every record that occurs in the course of an evaluation is orderly.
-/

namespace Juxta

/-- No name stands twice in a record: to look up a name finds its one value, and all fields are
rendered, in order. -/
structure Fields.Orderly (fields : Fields Value) : Prop where
  nodup : fields.names.Nodup
  lookup : ∀ name value, fields.get? name = some value ↔ (name, value) ∈ fields
  rendered : (Value.record fields).json = .obj (fields.map fun field => (field.1, field.2.json))

theorem Value.jsonFields_eq (fields : Fields Value) :
    jsonFields fields = fields.map fun field => (field.1, field.2.json) := by
  induction fields with
  | nil => rfl
  | cons field rest ih => exact congrArg ((field.1, field.2.json) :: ·) ih

theorem Fields.orderly_of_nodup {fields : Fields Value} (h : fields.names.Nodup) :
    fields.Orderly where
  nodup := h
  lookup _ _ := get?_eq_some_iff h
  rendered := by
    rw [← Value.jsonFields_eq]
    show Json.obj (Fields.ofPairs (Value.jsonFields fields)) = _
    rw [ofPairs_of_nodup]
    rwa [Value.names_jsonFields]

/-! ## What occurs in a value -/

mutual

/-- A value occurs in another one: it is that value, or it occurs in an item, in a field, or in an
argument or the scope of a function. -/
inductive Value.Has : Value → Value → Prop where
  | self {value} : Value.Has value value
  | item {items item part} : item ∈ items → Value.Has item part → Value.Has (.list items) part
  | field {fields field part} : field ∈ fields → Value.Has field.2 part →
      Value.Has (.record fields) part
  | applied {closure value part} : value ∈ closure.applied → Value.Has value part →
      Value.Has (.function closure) part
  | scope {closure part} : Scope.Has closure.scope part → Value.Has (.function closure) part

/-- A value occurs under a name of a scope, or of one around it. -/
inductive Scope.Has : Scope → Value → Prop where
  | word {scope word part} : word ∈ scope.words → Value.Has word.2 part → Scope.Has scope part
  | parent {scope parent part} : scope.parent = some parent → Scope.Has parent part →
      Scope.Has scope part

end

section

variable {kind : Kind}

mutual

/-- What occurs in a value of some kind is of that kind. -/
theorem Value.Within.of_has : ∀ {value part : Value}, value.Has part → value.Within kind →
    part.Within kind
  | _, _, .self, h => h
  | _, _, .item hm hp, h => Value.Within.of_has hp (h.items _ hm)
  | _, _, .field hm hp, h => Value.Within.of_has hp (h.fields _ hm)
  | _, _, .applied hm hp, h => by
    obtain ⟨-, -, happlied⟩ := h.closure
    exact Value.Within.of_has hp (happlied _ hm)
  | _, _, .scope hp, h => by
    obtain ⟨-, hscope, -⟩ := h.closure
    exact Scope.Within.of_has hp hscope

theorem Scope.Within.of_has : ∀ {scope : Scope} {part : Value}, scope.Has part →
    scope.Within kind → part.Within kind
  | _, _, .word hm hp, .intro hwords _ => Value.Within.of_has hp (hwords _ hm)
  | _, _, .parent he hp, .intro _ hparent => Scope.Within.of_has hp (hparent _ he)

end

theorem Value.Within.of_has_mem {values : List Value} (h : ∀ value ∈ values, value.Within kind)
    {part : Value} (hp : ∃ value ∈ values, value.Has part) : part.Within kind := by
  obtain ⟨value, hm, hp⟩ := hp
  exact (h value hm).of_has hp

end

/-! ## What occurs in an evaluation -/

/-- A value occurs in the scope or in the arguments of a call. -/
def Context.Has (context : Context) (part : Value) : Prop :=
  context.scope.Has part ∨
    ∃ values, context.arguments = some values ∧ ∃ value ∈ values, value.Has part

/-- A value occurs in the function that is called for all items, where it is called from, or in
the values so far. -/
def Iteration.Has (i : Iteration) (part : Value) : Prop :=
  (Value.function i.closure).Has part ∨ i.context.Has part ∨ (∃ value ∈ i.values, value.Has part) ∨
    i.accumulator.Has part

/-- A value occurs in what waits for values. -/
def EvalFrame.Has (part : Value) : EvalFrame → Prop
  | .operands _ _ context | .application _ context | .iteration _ _ context
  | .scrutinee _ _ context | .condition _ _ context | .connective _ _ context => context.Has part
  | .surplus _ arguments context => (∃ value ∈ arguments, value.Has part) ∨ context.Has part
  | .item i value rest => i.Has part ∨ value.Has part ∨ ∃ other ∈ rest, other.Has part
  | .last | .truth => False

/-- A value occurs in what an evaluation asks for, or in its output. -/
def EvalAction.Has (part : Value) : EvalAction → Prop
  | .done _ value => value.Has part
  | .abort _ | .endless => False
  | .after _ action => EvalAction.Has part action
  | .visit _ context => context.Has part
  | .gather _ context frame => context.Has part ∨ frame.Has part
  | .capture action frame => EvalAction.Has part action ∨ frame.Has part

section

variable {kind : Kind} {depth : Nat} {part : Value}

theorem Context.Within.of_has {context : Context} (h : context.Within kind depth)
    (hp : context.Has part) : part.Within kind := by
  rcases hp with hp | ⟨values, hv, hp⟩
  · exact h.scope.of_has hp
  · exact Value.Within.of_has_mem (h.arguments values hv) hp

theorem Iteration.Within.of_has {i : Iteration} (h : i.Within kind depth) (hp : i.Has part) :
    part.Within kind := by
  rcases hp with hp | hp | hp | hp
  · exact (Value.Within.function h.closure).of_has hp
  · exact h.context.of_has hp
  · exact Value.Within.of_has_mem h.values hp
  · exact h.accumulator.of_has hp

theorem EvalFrame.within_of_has {node : NodeId → Prop} {frame : EvalFrame}
    (h : frame.Within kind depth node) (hp : frame.Has part) : part.Within kind := by
  cases frame with
  | operands | application | iteration | scrutinee => exact Context.Within.of_has h hp
  | condition => exact Context.Within.of_has h.2.2 hp
  | connective => exact Context.Within.of_has h.2 hp
  | surplus =>
    rcases hp with hp | hp
    · exact Value.Within.of_has_mem h.1 hp
    · exact Context.Within.of_has h.2 hp
  | item =>
    obtain ⟨hi, hvalue, hrest⟩ := h
    rcases hp with hp | hp | hp
    · exact hi.of_has hp
    · exact hvalue.of_has hp
    · exact Value.Within.of_has_mem hrest hp
  | last | truth => exact hp.elim

/-- What occurs in an action within the bounds of an evaluation is within them. -/
theorem EvalAction.within_of_has {e : Evaluator} {action : EvalAction}
    (h : action.Within (e.bounds kind depth)) (hp : EvalAction.Has part action) :
    part.Within kind := by
  induction action with
  | done => exact Value.Within.of_has hp h
  | abort | endless => exact hp.elim
  | after _ _ ih => exact ih h hp
  | visit => exact Context.Within.of_has h.2 hp
  | gather =>
    rcases hp with hp | hp
    · exact Context.Within.of_has h.2.1 hp
    · exact EvalFrame.within_of_has h.2.2 hp
  | capture _ _ ih =>
    rcases hp with hp | hp
    · exact ih h.1 hp
    · exact EvalFrame.within_of_has h.2 hp

end

/-! ## Evaluation -/

theorem Value.Within.orderly {functions : Closure → Prop} {fields : Fields Value}
    (h : (Value.record fields).Within ⟨functions, true⟩) : fields.Orderly :=
  Fields.orderly_of_nodup (h.names rfl)

/-- Every record that occurs in the course of the evaluation of a program that is loaded, however
deep in values, functions and scopes, and every record in its value, has no name twice. Nor has any
object of the data from outside, as it is read from a text (`Json.distinct_of_parse`). -/
theorem records_orderly {config : Config} {snapshot : Snapshot} {store : Store}
    (hload : config.load snapshot = .ok store) {data : Json} (hdata : data.Distinct)
    (scheduling : Scheduling) :
    let e : Evaluator := ⟨store, .ofJson data, config.recursionLimit, config.caseFallthrough⟩
    (∀ action, e.walk.CarriesOut scheduling snapshot.root .global action →
        ∀ fields, EvalAction.Has (.record fields) action → Fields.Orderly fields) ∧
      ∀ steps found value,
        e.walk.run scheduling steps snapshot.root .global = .finished found value →
          ∀ fields, value.Has (.record fields) → Fields.Orderly fields := by
  intro e
  obtain ⟨hgrounded, hroot⟩ := Snapshot.load_grounded (Config.load_eq_ok hload)
  have hknows := ((store.node?_ne_none_iff _).1 hroot).2
  have hwalk : e.walk.Confined (e.bounds ⟨e.Callable, true⟩ 0) :=
    Evaluator.confined (e.admits_callable 0 true) hgrounded (Value.within_ofJson fun _ => hdata)
  have hglobal : Context.Within ⟨e.Callable, true⟩ 0 .global := Context.within_global _
  constructor
  · intro action hcarries fields hfields
    exact (EvalAction.within_of_has (hcarries.within hwalk hknows hglobal) hfields).orderly
  · intro steps found value hrun fields hfields
    have hvalue := hwalk.run_within scheduling steps hknows hglobal
    rw [hrun] at hvalue
    exact (Value.Within.of_has hfields hvalue).orderly

theorem Store.fresh_null : Store.empty.index[(⟨.null, []⟩ : Node)]? = none := by simp [empty]

theorem Store.fresh_data :
    (Store.empty.push ⟨.null, []⟩ none fresh_null).index[Node.branch .data [⟨1⟩]]? = none := by
  simp [empty, push, Node.branch]

/-- The program that asks for the data from outside. -/
def Store.dataOnly : Store :=
  (Store.empty.push ⟨.null, []⟩ none fresh_null).push (.branch .data [⟨1⟩]) none fresh_data

/-- An object in a list in an object. -/
def Json.nested : Json := .obj [("a", .null), ("b", .arr [.obj [("c", .bool true)]])]

/-- The data from outside, and the object in it, as they are handed over by a queue. -/
theorem records_orderly_nested :
    Config.standard.load (Store.dataOnly.snapshot ⟨2⟩) = .ok Store.dataOnly ∧
      Json.nested.Distinct ∧
      Fields.Orderly [("c", .bool true)] ∧
      Fields.Orderly [("a", .null), ("b", .list [.record [("c", .bool true)]])] := by
  have hbuilt : Store.dataOnly.Built := .push (.push .empty fun _ hm => nomatch hm)
    (by simp [Store.Knows, Store.size, Store.push, Store.empty])
  have hsnapshot : (Store.dataOnly.snapshot ⟨2⟩).load = .ok Store.dataOnly :=
    hbuilt.load_snapshot (Option.some_ne_none _)
  have hload : Config.standard.load (Store.dataOnly.snapshot ⟨2⟩) = .ok Store.dataOnly := by
    unfold Config.load
    rw [hsnapshot]
    rfl
  have hdata : Json.nested.Distinct := by
    simp [Json.nested, Json.Distinct.obj_iff, Json.Distinct.arr_iff, Json.Distinct.null,
      Json.Distinct.bool, Fields.names]
  obtain ⟨hcourse, hvalue⟩ := records_orderly hload hdata .queued
  have hrun : (Evaluator.walk ⟨Store.dataOnly, .ofJson .nested, Config.standard.recursionLimit,
      Config.standard.caseFallthrough⟩).run .queued 20 ⟨2⟩ .global =
        .finished [] (.ofJson .nested) := rfl
  refine ⟨hload, hdata, hvalue 20 [] _ hrun _ ?_, ?_⟩
  · exact .field (List.mem_cons_of_mem _ (List.mem_cons_self ..))
      (.item (List.mem_cons_self ..) .self)
  · -- the sixth task, after those for the operand
    exact hcourse (.done [] (.ofJson .nested)) ⟨20, 20, .perform _ .root,
      List.mem_of_getElem? (show _[5]? = _ from rfl), .perform⟩ _ .self

end Juxta
