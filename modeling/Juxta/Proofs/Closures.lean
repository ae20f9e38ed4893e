import Juxta.Evaluation
import Juxta.Proofs.OuterData

/-!
# The functions and the records inside of values

Values are data except for the functions in them. No operation makes a function, so that what
holds of all functions that lambdas and calls make holds of all functions that are ever called. No
operation makes a record with a name twice either.

* `Kind` : what the functions in values are like, and whether the names of records are distinct;
* `Value.Within`, `Closure.Within`, `Scope.Within` : all that is in them is of some kind;
  `Value.Within.map` proves this from the inside out;
* `Scope.Within.get?`, `Scope.Within.call` : names and calls;
* `Computed.Within`, `Tag.operate_within` : operations.
-/

namespace Juxta

/-- What is asked of the functions in values, and whether no record may have a name twice. -/
structure Kind where
  functions : Closure → Prop
  distinct : Bool

instance : Coe (Closure → Prop) Kind := ⟨fun functions => ⟨functions, false⟩⟩

/-- The names of a record, if they must be distinct. -/
def Kind.Names {α : Type} (kind : Kind) (fields : Fields α) : Prop :=
  kind.distinct = true → fields.names.Nodup

mutual

/-- All functions and records in a value are of some kind. -/
inductive Value.Within (kind : Kind) : Value → Prop where
  | null : Value.Within kind .null
  | bool {flag} : Value.Within kind (.bool flag)
  | number {n} : Value.Within kind (.number n)
  | nan : Value.Within kind .nan
  | string {content} : Value.Within kind (.string content)
  | list {items} : (∀ item ∈ items, Value.Within kind item) → Value.Within kind (.list items)
  | record {fields} : (∀ field ∈ fields, Value.Within kind field.2) → kind.Names fields →
      Value.Within kind (.record fields)
  | function {closure} : Closure.Within kind closure → Value.Within kind (.function closure)

/-- A function is of some kind, and so is all that is in its arguments and its scope. -/
inductive Closure.Within (kind : Kind) : Closure → Prop where
  | intro {closure} : kind.functions closure → Scope.Within kind closure.scope →
      (∀ value ∈ closure.applied, Value.Within kind value) → Closure.Within kind closure

/-- All that has a name in a scope is of some kind. -/
inductive Scope.Within (kind : Kind) : Scope → Prop where
  | intro {scope} : (∀ word ∈ scope.words, Value.Within kind word.2) →
      (∀ parent, scope.parent = some parent → Scope.Within kind parent) → Scope.Within kind scope

end

/-! ## Other kinds -/

section

variable {kind kind' : Closure → Prop}

mutual

/-- A function is of another kind if the functions inside of it are; so all functions are. -/
theorem Value.Within.map (h : ∀ closure, kind closure → closure.scope.Within kind' →
    (∀ value ∈ closure.applied, value.Within kind') → kind' closure) :
    ∀ {value : Value}, value.Within kind → value.Within kind'
  | _, .null => .null
  | _, .bool => .bool
  | _, .number => .number
  | _, .nan => .nan
  | _, .string => .string
  | _, .list hitems => .list fun item hm => Value.Within.map h (hitems item hm)
  | _, .record hfields _ => .record (fun field hm => Value.Within.map h (hfields field hm)) nofun
  | _, .function hclosure => .function (Closure.Within.map h hclosure)

theorem Closure.Within.map (h : ∀ closure, kind closure → closure.scope.Within kind' →
    (∀ value ∈ closure.applied, value.Within kind') → kind' closure) :
    ∀ {closure : Closure}, closure.Within kind → closure.Within kind'
  | closure, .intro hkind hscope happlied =>
    have hscope' := Scope.Within.map h hscope
    have happlied' := fun value hm => Value.Within.map h (happlied value hm)
    .intro (h closure hkind hscope' happlied') hscope' happlied'

theorem Scope.Within.map (h : ∀ closure, kind closure → closure.scope.Within kind' →
    (∀ value ∈ closure.applied, value.Within kind') → kind' closure) :
    ∀ {scope : Scope}, scope.Within kind → scope.Within kind'
  | _, .intro hwords hparent => .intro (fun word hm => Value.Within.map h (hwords word hm))
      fun parent he => Scope.Within.map h (hparent parent he)

end

theorem Value.Within.mono (h : ∀ closure, kind closure → kind' closure) {value : Value} :
    value.Within kind → value.Within kind' := Value.Within.map fun closure hk _ _ => h closure hk

theorem Scope.Within.mono (h : ∀ closure, kind closure → kind' closure) {scope : Scope} :
    scope.Within kind → scope.Within kind' := Scope.Within.map fun closure hk _ _ => h closure hk

end

section

variable {kind : Kind}

/-! ## Scopes -/

namespace Scope

theorem within_global : global.Within kind := by
  refine .intro (fun _ hm => ?_) fun _ he => ?_
  · cases hm
  · cases he

/-- What names mean in a scope is within its bounds. -/
theorem Within.get? {name : String} {value : Value} : ∀ {scope : Scope}, scope.Within kind →
    scope.get? name = some value → value.Within kind
  | ⟨_, words, parent, _⟩, .intro hwords hparent, hv => by
    unfold Scope.get? at hv
    split at hv
    · rename_i hget
      cases hv
      exact Fields.of_get? hwords hget
    · split at hv
      · rename_i outer
        exact Within.get? (hparent outer rfl) hv
      · cases hv

/-- The scope of a call is within the bounds of the function and the arguments. -/
theorem Within.call {parent caller scope : Scope} (h : parent.Within kind) {name : String}
    {words : List (String × Value)} (hw : ∀ word ∈ words, word.2.Within kind) {limit : Nat}
    (hc : Scope.call parent caller name words limit = .ok scope) : scope.Within kind := by
  unfold Scope.call at hc
  dsimp only at hc
  split at hc
  · cases hc
  · cases hc
    refine .intro (Fields.forall_ofPairs hw) fun outer he => ?_
    cases he
    exact h

/-- The scope of a call is one deeper than the function and the caller, and not beyond the limit. -/
theorem depth_of_call {parent caller scope : Scope} {name : String}
    {words : List (String × Value)} {limit : Nat}
    (hc : Scope.call parent caller name words limit = .ok scope) :
    scope.depth = max parent.depth caller.depth + 1 ∧ scope.depth ≤ limit := by
  unfold Scope.call at hc
  dsimp only at hc
  split at hc
  · cases hc
  · rename_i hlimit
    cases hc
    exact ⟨rfl, Nat.le_of_not_lt hlimit⟩

end Scope

/-- The arguments that a function has got, with further ones. -/
theorem Closure.Within.supplied {closure : Closure} (h : closure.Within kind)
    {arguments : List Value} (ha : ∀ value ∈ arguments, value.Within kind) :
    ∀ value ∈ closure.applied ++ arguments, value.Within kind := by
  obtain ⟨-, -, happlied⟩ := h
  intro value hm
  rcases List.mem_append.1 hm with hm | hm
  · exact happlied value hm
  · exact ha value hm

/-! ## Parts of values -/

namespace Value

theorem Within.items {items : List Value} (h : (Value.list items).Within kind) :
    ∀ item ∈ items, item.Within kind := by
  cases h
  assumption

theorem Within.fields {fields : List (String × Value)} (h : (Value.record fields).Within kind) :
    ∀ field ∈ fields, field.2.Within kind := by
  cases h
  assumption

theorem Within.names {fields : Fields Value} (h : (Value.record fields).Within kind) :
    kind.Names fields := by
  cases h
  assumption

theorem Within.closure {closure : Closure} (h : (Value.function closure).Within kind) :
    closure.Within kind := by
  cases h
  assumption

/-- The record without fields. -/
theorem within_empty : (Value.record []).Within kind :=
  .record (fun _ hm => nomatch hm) fun _ => List.nodup_nil

theorem within_single {name : String} {value : Value} (h : value.Within kind) :
    (Value.record [(name, value)]).Within kind :=
  .record (List.forall_mem_singleton.2 h) fun _ => List.pairwise_singleton _ name

theorem within_headD {values : List Value} (h : ∀ value ∈ values, value.Within kind) :
    (values.headD .null).Within kind := by
  cases values with
  | nil => exact .null
  | cons value rest => exact h value (List.mem_cons_self ..)

theorem within_getD {values : List Value} (h : ∀ value ∈ values, value.Within kind) (i : Nat) :
    (values[i]?.getD .null).Within kind := by
  cases hv : values[i]? with
  | none => exact .null
  | some value => exact h value (List.mem_of_getElem? hv)

theorem within_getLastD {values : List Value} (h : ∀ value ∈ values, value.Within kind) :
    (values.getLastD .null).Within kind := by
  rw [List.getLastD_eq_getLast?]
  cases hv : values.getLast? with
  | none => exact .null
  | some value => exact h value (List.mem_of_getLast? hv)

mutual

/-- Data from outside has no functions in it, and its records have the names of its objects. -/
theorem within_ofJson : ∀ {json : Json}, (kind.distinct = true → json.Distinct) →
    (ofJson json).Within kind
  | .null, _ => .null
  | .bool _, _ => .bool
  | .whole n, _ => by
    unfold ofJson
    split
    · exact .number
    · exact .nan
  | .real x, _ => by
    unfold ofJson
    split
    · exact .number
    · exact .nan
  | .str _, _ => .string
  | .arr _, h => .list (within_ofJsonItems fun hd => Json.Distinct.arr_iff.1 (h hd))
  | .obj fields, h => by
    refine .record (within_ofJsonFields fun hd => (Json.Distinct.obj_iff.1 (h hd)).2) fun hd => ?_
    rw [names_ofJsonFields]
    exact (Json.Distinct.obj_iff.1 (h hd)).1

theorem within_ofJsonItems : ∀ {items : List Json},
    (kind.distinct = true → ∀ item ∈ items, item.Distinct) →
    ∀ item ∈ ofJsonItems items, item.Within kind
  | [], _ => fun _ hm => nomatch hm
  | _ :: _, h => List.forall_mem_cons.2
    ⟨within_ofJson fun hd => (List.forall_mem_cons.1 (h hd)).1,
      within_ofJsonItems fun hd => (List.forall_mem_cons.1 (h hd)).2⟩

theorem within_ofJsonFields : ∀ {fields : List (String × Json)},
    (kind.distinct = true → ∀ field ∈ fields, field.2.Distinct) →
    ∀ field ∈ ofJsonFields fields, field.2.Within kind
  | [], _ => fun _ hm => nomatch hm
  | (_, _) :: _, h => List.forall_mem_cons.2
    ⟨within_ofJson fun hd => (List.forall_mem_cons.1 (h hd)).1,
      within_ofJsonFields fun hd => (List.forall_mem_cons.1 (h hd)).2⟩

end

/-- Data from outside is of every kind that says something about functions only. -/
theorem within_data (functions : Closure → Prop) (json : Json) : (ofJson json).Within functions :=
  within_ofJson fun hdistinct => absurd hdistinct Bool.false_ne_true

end Value

/-! ## Operations -/

/-- The value of an operation, or the value in its place, is within some bounds. -/
def Computed.Within (kind : Kind) : Computed → Prop
  | .value result => result.Within kind
  | .fallback _ result => result.Within kind
  | .endless => True

theorem arithmetic_within (tag : Tag) (values : List Value) :
    (arithmetic tag values).Within kind := by
  unfold arithmetic
  split
  · exact .nan
  · split
    · exact .nan
    · dsimp only
      split
      · exact .nan
      · exact .number
      · exact .nan

theorem comparison_within (tag : Tag) (values : List Value) :
    (comparison tag values).Within kind := by
  unfold comparison
  split
  · exact .bool
  · split
    · exact .bool
    · split <;> exact .bool
    · exact .bool

theorem progressionFrom_within (step stop : Decimal) (items : List Value) (current : Decimal)
    (h : ∀ item ∈ items, item.Within kind) :
    (progressionFrom step stop items current).Within kind := by
  fun_induction progressionFrom step stop items current with
  | case1 => exact .list fun _ hm => nomatch hm
  | case2 items current ascending before items' next hadd hbefore ih =>
    exact ih (List.forall_mem_cons.2 ⟨.number, h⟩)
  | case3 => exact trivial
  | case4 items current ascending before =>
    exact .list fun item hm => h item (List.mem_reverse.1 hm)

theorem progression_within (values : List Value) : (progression values).Within kind := by
  have nil : (Value.list []).Within kind := .list fun _ hm => nomatch hm
  unfold progression
  split
  · exact nil
  · split
    · exact nil
    · dsimp only
      split
      · split
        · exact progressionFrom_within _ _ _ _ fun item hm => absurd hm List.not_mem_nil
        · exact nil
      · exact nil
  · exact nil

namespace Value

theorem hd_within {value : Value} (h : value.Within kind) : value.hd.Within kind := by
  unfold hd
  split
  · exact h.items _ (List.mem_cons_self ..)
  · exact .null
  · exact .null

theorem tl_within {value : Value} (h : value.Within kind) : value.tl.Within kind := by
  unfold tl
  split
  · exact .list fun item hm => h.items item (List.mem_cons_of_mem _ hm)
  · exact h
  · exact .list fun _ hm => nomatch hm

theorem nth_within {container : Value} (h : container.Within kind) (position : Value) :
    (container.nth position).Within kind := by
  unfold nth
  split
  · split
    · exact .null
    · split
      · rename_i hi
        exact h.items _ (List.mem_of_getElem? hi)
      · exact .null
  · exact .null

theorem within_ofNat (n : Nat) : (ofNat n).Within kind := by
  unfold ofNat
  split
  · exact .number
  · exact .nan

theorem len_within (value : Value) : value.len.Within kind := by
  unfold len
  split
  · exact within_ofNat _
  · exact within_ofNat _
  · exact within_ofNat _
  · exact .number

theorem lookup_within {container : Value} (h : container.Within kind) (tag : Tag) (key : Value) :
    (container.lookup tag key).Within kind := by
  unfold lookup
  split
  · rename_i fields
    show Value.Within kind _
    cases hv : Fields.get? fields key.text with
    | none => exact .null
    | some value => exact Fields.of_get? h.fields hv
  · split
    · rename_i items
      show Value.Within kind _
      cases key.position? with
      | none => exact .null
      | some i => exact within_getD h.items i
    · exact .null

theorem keyAt_within (container position : Value) : (container.keyAt position).Within kind := by
  unfold keyAt
  split
  · show Value.Within kind _
    split
    · exact .string
    · exact .null
  · exact .null

theorem set_within {container value : Value} (h : container.Within kind) (hv : value.Within kind)
    (key : Value) : (container.set key value).Within kind := by
  unfold set
  split
  · exact .record (Fields.forall_set h.fields hv) fun hd => Fields.names_nodup_set (h.names hd) _ _
  · exact within_empty

theorem concat_within (value : Value) : value.concat.Within kind := by
  unfold concat
  split <;> exact .string

theorem readJson_within (value : Value) : value.readJson.Within kind := by
  unfold readJson
  split
  · split
    · rename_i json hparse
      exact within_ofJson fun _ => Json.distinct_of_parse hparse
    · exact .null
  · exact .null

theorem merge_within {records : List Value} (h : ∀ record ∈ records, record.Within kind) :
    (merge records).Within kind := by
  refine .record (Fields.forall_ofPairs fun pair hp => ?_) fun _ => Fields.names_nodup_ofPairs _
  obtain ⟨record, hr, hp⟩ := List.mem_flatMap.1 hp
  cases record with
  | record fields => exact (h _ hr).fields pair hp
  | _ => cases hp

theorem overlay_within {defaults data : Value} (h : defaults.Within kind)
    (hd : data.Within kind) : (defaults.overlay data).Within kind := by
  unfold overlay
  split
  · exact h
  · exact .record (Fields.forall_foldl_set hd.fields h.fields) fun hn =>
      Fields.names_nodup_foldl_set _ (h.names hn)
  · exact hd

end Value

/-- What an operation may read is within some bounds. -/
structure Surroundings.Within (kind : Kind) (s : Surroundings) : Prop where
  data : s.data.Within kind
  arguments : ∀ values, s.arguments = some values → ∀ value ∈ values, value.Within kind

theorem Surroundings.Within.argument {s : Surroundings} (h : s.Within kind) (position : Value) :
    (s.argument position).Within kind := by
  unfold Surroundings.argument
  split
  · exact .null
  · rename_i arguments ha
    split
    · exact .null
    · split
      · rename_i hi
        exact h.arguments _ ha _ (List.mem_of_getElem? hi)
      · exact .null

/-- An operation makes no functions: those in its value come from its operands, from the data from
outside or from the arguments of the call. Nor does it make a record with a name twice. -/
theorem Tag.operate_within (tag : Tag) {s : Surroundings} (h : s.Within kind)
    {values : List Value} (hv : ∀ value ∈ values, value.Within kind) :
    (tag.operate s values).Within kind := by
  have first := Value.within_headD hv
  unfold operate
  split
  · split
    · exact .null
    · exact hv _ (List.mem_cons_self ..)
    · exact .list hv
  · exact .list hv
  · refine Value.within_single (Value.within_headD fun value hm => ?_)
    exact hv value (List.mem_of_mem_drop hm)
  · exact Value.merge_within hv
  · exact .bool
  · split <;> exact .bool
  iterate 6 · exact comparison_within _ values
  iterate 9 · exact arithmetic_within _ values
  · exact Value.concat_within _
  · exact progression_within values
  · exact Value.hd_within first
  · exact Value.tl_within first
  · exact Value.len_within _
  · split
    · exact Value.nth_within (hv _ (by simp)) _
    · exact .null
  iterate 2
    · split
      · exact Value.lookup_within (hv _ (by simp)) _ _
      · exact .null
  · split
    · exact Value.keyAt_within _ _
    · exact .null
  · split
    · exact Value.set_within (hv _ (by simp)) (hv _ (by simp)) _
    · exact Value.within_empty
  · exact Value.overlay_within (Value.within_getLastD hv) h.data
  · exact h.argument _
  · exact Value.readJson_within _
  · exact Value.within_single (Value.within_getLastD hv)
  · exact .null

end

end Juxta
