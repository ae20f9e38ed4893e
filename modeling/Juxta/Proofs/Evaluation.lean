import Juxta.Proofs.Closures
import Juxta.Proofs.Grounded
import Juxta.Proofs.Walk.Confined
import Juxta.Shape

/-!
# What can stop an evaluation

In a grounded store the bodies of all functions are known nodes, so that evaluation never asks for
a node that is missing. Only a call that goes one scope too deep stops it.

* `Context.Within`, `Iteration.Within`, `EvalFrame.Within` : the bounds of what waits;
* `Evaluator.Admits` : a kind of functions that evaluation keeps to; `Evaluator.Callable` is one;
* `Evaluator.confined` : the evaluation of a program stays within them;
* `checking_confined` : nothing stops the check of a program.
-/

namespace Juxta

section

variable (kind : Kind) (depth : Nat)

/-- All that a context gives access to is of some kind, and its scope is not above some
depth. -/
structure Context.Within (c : Context) : Prop where
  scope : c.scope.Within kind
  arguments : ∀ values, c.arguments = some values → ∀ value ∈ values, value.Within kind
  deep : depth ≤ c.scope.depth

/-- The function that is called for all items, and the values so far, are within some bounds. -/
structure Iteration.Within (i : Iteration) : Prop where
  closure : i.closure.Within kind
  context : i.context.Within kind depth
  values : ∀ value ∈ i.values, value.Within kind
  accumulator : i.accumulator.Within kind

/-- What waits for values is within some bounds. -/
def EvalFrame.Within (node : NodeId → Prop) : EvalFrame → Prop
  | .operands _ _ context => context.Within kind depth
  | .last => True
  | .application _ context => context.Within kind depth
  | .surplus _ arguments context =>
    (∀ value ∈ arguments, value.Within kind) ∧ context.Within kind depth
  | .iteration _ _ context => context.Within kind depth
  | .item i value rest =>
    i.Within kind depth ∧ value.Within kind ∧ ∀ other ∈ rest, other.Within kind
  | .scrutinee _ _ context => context.Within kind depth
  | .condition yes no context => node yes ∧ node no ∧ context.Within kind depth
  | .connective _ right context => node right ∧ context.Within kind depth
  | .truth => True

end

theorem Context.within_global (kind : Kind) : Context.global.Within kind 0 :=
  ⟨Scope.within_global, nofun, Nat.zero_le _⟩

theorem Context.Within.mono {kind : Kind} {depth depth' : Nat} {context : Context}
    (h : context.Within kind depth') (hle : depth ≤ depth') : context.Within kind depth :=
  ⟨h.scope, h.arguments, Nat.le_trans hle h.deep⟩

/-- The context of the body of a function that is called. -/
theorem Context.within_call {kind : Kind} {closure : Closure} {caller scope : Scope}
    {name : String} {own : List Value} {limit : Nat} (hs : closure.scope.Within kind)
    (ho : ∀ value ∈ own, value.Within kind)
    (hc : Scope.call closure.scope caller name (closure.params.zip own) limit = .ok scope) :
    Context.Within kind scope.depth ⟨scope, some own⟩ where
  scope := hs.call (fun word hm => ho word.2 (List.of_mem_zip hm).2) hc
  arguments values hv := by
    cases hv
    exact ho
  deep := Nat.le_refl _

namespace Iteration

section

variable (i : Iteration) (item : Value) (found : List Diagnostic) (value : Value)

end

variable {kind : Kind} {depth : Nat} {i : Iteration}

theorem Within.result (h : i.Within kind depth) : i.result.Within kind := by
  unfold Iteration.result
  split
  · exact h.accumulator
  · exact .list fun value hm => h.values value (List.mem_reverse.1 hm)

theorem Within.arguments (h : i.Within kind depth) {item : Value} (hi : item.Within kind) :
    ∀ value ∈ i.arguments item, value.Within kind := by
  unfold Iteration.arguments
  split
  · exact List.forall_mem_cons.2 ⟨h.accumulator, List.forall_mem_singleton.2 hi⟩
  · exact List.forall_mem_singleton.2 hi

theorem Within.take (h : i.Within kind depth) {item value : Value} (hi : item.Within kind)
    (hv : value.Within kind) (found : List Diagnostic) :
    (i.take item found value).Within kind depth := by
  obtain ⟨hf, hc, hvs, ha⟩ := h
  unfold Iteration.take
  dsimp only
  split
  · exact ⟨hf, hc, List.forall_mem_cons.2 ⟨hv, hvs⟩, ha⟩
  · split
    · exact ⟨hf, hc, List.forall_mem_cons.2 ⟨hi, hvs⟩, ha⟩
    · exact ⟨hf, hc, hvs, ha⟩
  · exact ⟨hf, hc, hvs, hv⟩

end Iteration

namespace Evaluator

/-- A kind that the functions are of that evaluation makes in scopes of some depth or below:
functions with known bodies, lambdas, and functions that have got some of their arguments. -/
structure Admits (e : Evaluator) (kind : Kind) (depth : Nat) : Prop where
  body : ∀ closure, kind.functions closure → e.store.Knows closure.body
  lambda : ∀ id params body scope, e.store.Knows body → scope.Within kind →
    depth ≤ scope.depth → kind.functions ⟨id, params, body, scope, []⟩
  part : ∀ closure applied, kind.functions closure → (∀ value ∈ applied, value.Within kind) →
    applied.length < closure.params.length → kind.functions { closure with applied }

/-- A function with a known body that waits for an argument, unless it is as its lambda made it. -/
def Callable (e : Evaluator) (closure : Closure) : Prop :=
  e.store.Knows closure.body ∧
    (closure.applied = [] ∨ closure.applied.length < closure.params.length)

theorem admits_callable (e : Evaluator) (depth : Nat) (distinct : Bool := false) :
    e.Admits ⟨e.Callable, distinct⟩ depth where
  body _ h := h.1
  lambda _ _ _ _ hbody _ _ := ⟨hbody, Or.inl rfl⟩
  part _ _ h _ hlt := ⟨h.1, Or.inr hlt⟩

/-- The bounds of an evaluation: known nodes, functions and records of some kind, and no errors but
that of a call one scope too deep. -/
def bounds (e : Evaluator) (kind : Kind) (depth : Nat) :
    Walk.Bounds Context Value EvalFrame where
  node := e.store.Knows
  context := Context.Within kind depth
  output := Value.Within kind
  frame := EvalFrame.Within kind depth e.store.Knows
  error error := ∃ place, error = .runaway ⟨e.limit, "lambda"⟩ place

variable {e : Evaluator} {kind : Kind} {depth : Nat}

theorem settle_within (site : NodeId) (found : List Diagnostic) {result : Computed}
    (h : result.Within kind) : (e.settle site found result).Within (e.bounds kind depth) := by
  unfold settle
  split
  · exact h
  · exact h
  · exact h
  · exact trivial

theorem literal_within (node : Node) : (literal node).Within kind := by
  unfold literal
  split
  · dsimp only
    split
    · exact .number
    · exact .nan
  · exact .string
  · exact .bool
  · exact .null

theorem ident_within {context : Context} (h : context.Within kind depth) (node : Node) :
    (ident node context).Within kind := by
  unfold ident
  dsimp only
  cases hv : context.scope.get? (node.text?.getD "") with
  | none => exact .string
  | some value => exact h.scope.get? hv

theorem terms_known (h : e.store.Grounded) {id : NodeId} (hid : e.store.Knows id) :
    ∀ term ∈ e.terms id, e.store.Knows term := by
  unfold terms
  split
  · rename_i node hn
    split
    · exact fun term hm => h.knows_of_mem hn hm
    · exact List.forall_mem_singleton.2 hid
  · exact List.forall_mem_singleton.2 hid

/-! ## Calls -/

theorem call_within (hk : e.Admits kind depth) (site : NodeId) {closure : Closure}
    {arguments : List Value} {context : Context} (hf : closure.Within kind)
    (ha : ∀ value ∈ arguments, value.Within kind) (hc : context.Within kind depth) :
    (e.call site closure arguments context).Within (e.bounds kind depth) := by
  have hall := hf.supplied ha
  obtain ⟨hkind, hscope, -⟩ := hf
  unfold call
  dsimp only
  split
  · rename_i hlt
    exact .function (.intro (hk.part closure _ hkind hall hlt) hscope hall)
  · split
    · rename_i cause hcall
      unfold Scope.call at hcall
      dsimp only at hcall
      split at hcall
      · cases hcall
        exact ⟨_, rfl⟩
      · cases hcall
    · rename_i scope hcall
      have hown : ∀ value ∈ (closure.applied ++ arguments).take closure.params.length,
          value.Within kind := fun value hm => hall value (List.mem_of_mem_take hm)
      have hcaller := hc.deep
      have hnew := (Scope.depth_of_call hcall).1
      exact ⟨List.forall_mem_singleton.2 (hk.body closure hkind),
        (Context.within_call hscope hown hcall).mono (by omega),
        fun value hm => hall value (List.mem_of_mem_drop hm), hc⟩

theorem surplus_within (hk : e.Admits kind depth) (site : NodeId) {arguments : List Value}
    {context : Context}
    (ha : ∀ value ∈ arguments, value.Within kind) (hc : context.Within kind depth)
    (found : List Diagnostic) {value : Value} (hv : value.Within kind) :
    (e.surplus site arguments context found value).Within (e.bounds kind depth) := by
  unfold surplus
  split
  · split
    · exact hv
    · exact call_within hk site hv.closure ha hc
  · exact hv

theorem argumentsOf_within {value : Value} (h : value.Within kind) :
    ∀ argument ∈ argumentsOf value, argument.Within kind := by
  unfold argumentsOf
  split
  · exact h.items
  · exact fun argument hm => absurd hm List.not_mem_nil
  · exact List.forall_mem_singleton.2 h

theorem apply_within (hk : e.Admits kind depth) (site : NodeId) {context : Context}
    (hc : context.Within kind depth)
    (found : List Diagnostic) {function arguments : Value}
    (hf : function.Within kind) (ha : arguments.Within kind) :
    (e.apply site context found function arguments).Within (e.bounds kind depth) := by
  unfold apply
  split
  · exact call_within hk site hf.closure (argumentsOf_within ha) hc
  · have hnull : Value.null.Within kind := .null
    exact settle_within site found hnull

/-! ## Calls for all items of a list -/

theorem advance_within (hk : e.Admits kind depth) {i : Iteration} (h : i.Within kind depth)
    {items : List Value}
    (hi : ∀ item ∈ items, item.Within kind) : (e.advance i items).Within (e.bounds kind depth) := by
  cases items with
  | nil => exact h.result
  | cons item rest =>
    obtain ⟨hitem, hrest⟩ := List.forall_mem_cons.1 hi
    exact ⟨call_within hk i.site h.closure (h.arguments hitem) h.context, h, hitem, hrest⟩

/-- The initial value of REDUCE, or some other value in its place. -/
theorem initial_within (tag : Tag) {values : List Value}
    (hv : ∀ value ∈ values, value.Within kind) {default : Value} (hd : default.Within kind) :
    ((if tag = .reduce then values[1]? else none).getD default).Within kind := by
  split
  · cases hi : values[1]? with
    | none => exact hd
    | some value => exact hv value (List.mem_of_getElem? hi)
  · exact hd

theorem each_within (hk : e.Admits kind depth) (site : NodeId) (tag : Tag) {context : Context}
    (hc : context.Within kind depth) (found : List Diagnostic) {values : List Value}
    (hv : ∀ value ∈ values, value.Within kind) :
    (e.each site tag context found values).Within (e.bounds kind depth) := by
  have hfallback := initial_within tag hv (.list fun value hm => absurd hm List.not_mem_nil)
  have hitems := Value.within_getD hv (if tag = .reduce then 2 else 1)
  have hfirst := Value.within_headD hv
  unfold each
  dsimp only
  split
  · rename_i closure hclosure
    rw [hclosure] at hfirst
    split
    · rename_i items hlist
      rw [hlist] at hitems
      refine advance_within hk ⟨hfirst.closure, hc, ?_, initial_within tag hv .null⟩ hitems.items
      exact fun value hm => absurd hm List.not_mem_nil
    · exact settle_within site found hfallback
  · exact settle_within site found hfallback

/-! ## Cases -/

/-- The body that is selected is that of one of the clauses. -/
theorem exists_clause_of_selectFrom {scope : Scope} {target body : NodeId}
    {clauses : List NodeId} {table : PatternTable}
    (hs : e.selectFrom scope target clauses table = some body) :
    ∃ id ∈ clauses, ∃ clause, e.store.node? id = some clause ∧ body = clause.child 1 := by
  induction clauses generalizing table with
  | nil => cases hs
  | cons id rest ih =>
    have later : ∀ table, e.selectFrom scope target rest table = some body →
        ∃ other ∈ id :: rest, ∃ clause,
          e.store.node? other = some clause ∧ body = clause.child 1 := by
      intro table hs
      obtain ⟨other, hm, hclause⟩ := ih hs
      exact ⟨other, List.mem_cons_of_mem id hm, hclause⟩
    unfold selectFrom at hs
    split at hs
    · exact later _ hs
    · rename_i clause hn
      dsimp only at hs
      generalize table.intern _ = interned at hs
      split at hs
      · cases hs
        exact ⟨id, List.mem_cons_self .., clause, hn, rfl⟩
      · exact later _ hs

theorem unmatched_within (value : Value) : (e.unmatched value).Within kind := by
  unfold unmatched
  split
  · exact Value.within_empty
  · exact Value.within_empty

/-! ## All nodes -/

theorem enter_within (hk : e.Admits kind depth) (h : e.store.Grounded) {id : NodeId} {node : Node}
    {context : Context}
    (hn : e.store.node? id = some node) (hc : context.Within kind depth) :
    (e.enter id node context).Within (e.bounds kind depth) := by
  have child := h.knows_child hn
  have all : ∀ other ∈ node.children, e.store.Knows other := fun _ hm => h.knows_of_mem hn hm
  have one : ∀ other ∈ [node.child 0], e.store.Knows other :=
    List.forall_mem_singleton.2 (child 0)
  unfold enter
  split
  iterate 5 · exact settle_within id [] (literal_within node)
  · exact ident_within hc node
  · exact ⟨terms_known h (child 0), hc, trivial⟩
  · exact ⟨child 0, hc⟩
  · exact ⟨child 1, hc⟩
  · refine .function (.intro (hk.lambda _ _ _ _ (child 1) hc.scope hc.deep) hc.scope ?_)
    exact fun value hm => absurd hm List.not_mem_nil
  · exact ⟨List.forall_mem_cons.2 ⟨child 0, List.forall_mem_singleton.2 (child 1)⟩, hc, hc⟩
  iterate 3 · exact ⟨all, hc, hc⟩
  · exact ⟨one, hc, hc⟩
  · exact ⟨one, hc, child 1, child 2, hc⟩
  iterate 2 · exact ⟨one, hc, child 1, hc⟩
  · exact ⟨all, hc, hc⟩

theorem resume_within (hk : e.Admits kind depth) (h : e.store.Grounded) (hd : e.data.Within kind)
    {frame : EvalFrame}
    (hf : frame.Within kind depth e.store.Knows) (found : List Diagnostic) {values : List Value}
    (hv : ∀ value ∈ values, value.Within kind) :
    (e.resume frame found values).Within (e.bounds kind depth) := by
  have first := Value.within_headD hv
  cases frame with
  | operands site tag context =>
    exact settle_within site found (tag.operate_within ⟨hd, hf.arguments⟩ hv)
  | last => exact Value.within_getLastD hv
  | application site context =>
    exact apply_within hk site hf found first
      (Value.within_headD fun value hm => hv value (List.mem_of_mem_drop hm))
  | surplus site arguments context => exact surplus_within hk site hf.1 hf.2 found first
  | iteration site tag context => exact each_within hk site tag hf found hv
  | item i item rest =>
    obtain ⟨hi, hitem, hrest⟩ := hf
    exact advance_within hk (hi.take hitem first found) hrest
  | scrutinee site clauses context =>
    unfold resume
    dsimp only
    split
    · rename_i body hs
      obtain ⟨id, -, clause, hn, rfl⟩ := exists_clause_of_selectFrom hs
      exact ⟨h.knows_child hn 1, hf⟩
    · exact settle_within site found (unmatched_within _)
  | condition yes no context =>
    obtain ⟨hyes, hno, hc⟩ := hf
    refine ⟨?_, hc⟩
    split
    · exact hyes
    · exact hno
  | connective tag right context =>
    unfold resume
    dsimp only
    split
    · exact .bool
    · exact ⟨List.forall_mem_singleton.2 hf.1, hf.2, trivial⟩
  | truth => exact .bool

/-- In a grounded store evaluation asks for known nodes only, and a call one scope too deep is all
that can stop it. -/
theorem confined (hk : e.Admits kind depth) (h : e.store.Grounded) (hd : e.data.Within kind) :
    e.walk.Confined (e.bounds kind depth) where
  stored _ hid ha := hid.node?_ne_none ha
  absent := .null
  enter _ _ _ hn hc := enter_within hk h hn hc
  resume _ found _ hf ho := resume_within hk h hd hf found ho

end Evaluator

/-! ## The check -/

/-- The bounds of a check: known nodes, and no error at all. -/
def checkBounds (store : Store) : Walk.Bounds Unit Shape CheckFrame where
  node := store.Knows
  context _ := True
  output _ := True
  frame _ := True
  error _ := False

/-- Nothing stops the check of a program in a grounded store. -/
theorem checking_confined {store : Store} (h : store.Grounded) :
    (checking store).Confined (checkBounds store) where
  stored _ hid ha := hid.node?_ne_none ha
  absent := trivial
  enter _ _ _ hn _ := ⟨fun _ hm => h.knows_of_mem hn hm, trivial, trivial⟩
  resume _ _ _ _ _ := trivial

end Juxta
