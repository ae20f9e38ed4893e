import Juxta.Proofs.AlikeValues
import Juxta.Proofs.SameTree

/-!
# Evaluations that run alike

Two evaluations that start with values that are alike ask for the same nodes and come to values that
are alike. The nodes may have other numbers in the other store. There is one place where numbers are
seen: the text of a function shows the number of its lambda. So evaluation is stated here for any
choice of the numbers that texts show.

* `Context.Alike`, `Iteration.Alike`, `EvalFrame.Alike` : what waits in two evaluations;
* `Store.Alike` : stores that hold the same; `Store.SameTree.alike` : in particular, the same tree;
* `Evaluator.Alike`, `Evaluator.likeness` : two evaluations, and what corresponds in them;
* `Evaluator.Alike.call`, …, `Evaluator.Alike.enter`, `Evaluator.Alike.resume` : one step;
* `Evaluator.showing`, `Evaluator.Alike.showing` : the walks with other numbers in texts.
-/

namespace Juxta

/-! ## What waits in an evaluation -/

/-- Contexts with the same names and the same arguments. -/
structure Context.Alike (l : Value.Likeness) (context context' : Context) : Prop where
  scope : context.scope.Alike l context'.scope
  arguments : Option.Rel (List.Forall₂ (Value.Alike l)) context.arguments context'.arguments

theorem Context.alike_global (l : Value.Likeness) : Context.global.Alike l .global :=
  ⟨Scope.alike_global l, .none⟩

/-- The same calls, after diagnostics that say the same. -/
structure Iteration.Alike (l : Value.Likeness) (i i' : Iteration) : Prop where
  tag : i.tag = i'.tag
  closure : i.closure.Alike l i'.closure
  context : i.context.Alike l i'.context
  found : List.Forall₂ SameGists i.found i'.found
  values : List.Forall₂ (Value.Alike l) i.values i'.values
  accumulator : i.accumulator.Alike l i'.accumulator

/-- Frames that wait for the same; the sites only give places to diagnostics. -/
inductive EvalFrame.Alike (l : Value.Likeness) : EvalFrame → EvalFrame → Prop where
  | operands (site site' : NodeId) (tag : Tag) {context context' : Context} :
      context.Alike l context' → Alike l (.operands site tag context) (.operands site' tag context')
  | last : Alike l .last .last
  | application (site site' : NodeId) {context context' : Context} : context.Alike l context' →
      Alike l (.application site context) (.application site' context')
  | surplus (site site' : NodeId) {arguments arguments' : List Value} {context context' : Context} :
      List.Forall₂ (Value.Alike l) arguments arguments' → context.Alike l context' →
      Alike l (.surplus site arguments context) (.surplus site' arguments' context')
  | iteration (site site' : NodeId) (tag : Tag) {context context' : Context} :
      context.Alike l context' →
      Alike l (.iteration site tag context) (.iteration site' tag context')
  | item {i i' : Iteration} {item item' : Value} {rest rest' : List Value} : i.Alike l i' →
      item.Alike l item' → List.Forall₂ (Value.Alike l) rest rest' →
      Alike l (.item i item rest) (.item i' item' rest')
  | scrutinee (site site' : NodeId) {clauses clauses' : List NodeId} {context context' : Context} :
      List.Forall₂ l.node clauses clauses' → context.Alike l context' →
      Alike l (.scrutinee site clauses context) (.scrutinee site' clauses' context')
  | condition {yes yes' no no' : NodeId} {context context' : Context} : l.node yes yes' →
      l.node no no' → context.Alike l context' →
      Alike l (.condition yes no context) (.condition yes' no' context')
  | connective (tag : Tag) {right right' : NodeId} {context context' : Context} :
      l.node right right' → context.Alike l context' →
      Alike l (.connective tag right context) (.connective tag right' context')
  | truth : Alike l .truth .truth

namespace Iteration.Alike

variable {l : Value.Likeness} {i i' : Iteration}

theorem result (h : i.Alike l i') : i.result.Alike l i'.result := by
  unfold Iteration.result
  rw [h.tag]
  split
  · exact h.accumulator
  · exact .list (List.rel_reverse h.values)

theorem arguments (h : i.Alike l i') {item item' : Value} (hitem : item.Alike l item') :
    List.Forall₂ (Value.Alike l) (i.arguments item) (i'.arguments item') := by
  unfold Iteration.arguments
  rw [h.tag]
  split
  · exact .cons h.accumulator (.cons hitem .nil)
  · exact .cons hitem .nil

theorem take (h : i.Alike l i') {item item' value value' : Value} (hitem : item.Alike l item')
    (hvalue : value.Alike l value') {found found' : List Diagnostic} (hf : SameGists found found') :
    (i.take item found value).Alike l (i'.take item' found' value') := by
  have hfound : List.Forall₂ SameGists (found :: i.found) (found' :: i'.found) := .cons hf h.found
  obtain ⟨htag, hclosure, hcontext, -, hvalues, haccumulator⟩ := h
  unfold Iteration.take
  dsimp only
  rw [htag]
  split
  · exact ⟨rfl, hclosure, hcontext, hfound, .cons hvalue hvalues, haccumulator⟩
  · rw [hvalue.isTruthy]
    split
    · exact ⟨rfl, hclosure, hcontext, hfound, .cons hitem hvalues, haccumulator⟩
    · exact ⟨rfl, hclosure, hcontext, hfound, hvalues, haccumulator⟩
  · exact ⟨rfl, hclosure, hcontext, hfound, hvalues, hvalue⟩

theorem sameGists (h : i.Alike l i') :
    SameGists i.found.reverse.flatten i'.found.reverse.flatten := by
  have hfound := List.rel_reverse h.found
  generalize i.found.reverse = found at hfound ⊢
  generalize i'.found.reverse = found' at hfound ⊢
  induction hfound with
  | nil => exact .refl []
  | cons hfirst _ ih => exact hfirst.append ih

end Iteration.Alike

/-! ## Stores that hold the same -/

/-- Stores that hold the same under ids that are related. -/
structure Store.Alike (R : NodeId → NodeId → Prop) (s t : Store) : Prop where
  absent : R .absent .absent
  isAbsent : ∀ {a b}, R a b → a.isAbsent = b.isAbsent
  node?_ne_none : ∀ {a b}, R a b → a.isAbsent = false → s.node? a ≠ none
  node : ∀ {a b}, R a b → Option.Rel (Node.Corresponds R) (s.node? a) (t.node? b)
  tree : ∀ {a b}, R a b → s.tree? a = t.tree? b

namespace Store.Alike

variable {R : NodeId → NodeId → Prop} {s t : Store} {a b : NodeId}

/-- The nodes of ids that are not absent. -/
theorem nodes (h : Store.Alike R s t) (hab : R a b) (ha : a.isAbsent = false) :
    ∃ node node', s.node? a = some node ∧ t.node? b = some node' ∧ node.Corresponds R node' := by
  have hne := h.node?_ne_none hab ha
  have hnode := h.node hab
  generalize s.node? a = node at hne hnode ⊢
  generalize t.node? b = node' at hnode ⊢
  cases hnode with
  | none => contradiction
  | some hnode => exact ⟨_, _, rfl, rfl, hnode⟩

theorem child (h : Store.Alike R s t) {node node' : Node} (hnode : node.Corresponds R node')
    (position : Nat) : R (node.child position) (node'.child position) :=
  hnode.child h.absent position

/-- The same parameters. -/
theorem params_eq (h : Store.Alike R s t) (hab : R a b) : s.params a = t.params b := by
  have hlist : Option.Rel (Node.Corresponds R)
      ((s.node? a).bind fun node => s.node? (node.child 0))
      ((t.node? b).bind fun node => t.node? (node.child 0)) :=
    optionRel_bind (h.node hab) fun _ _ hnode => h.node (h.child hnode 0)
  have htexts : ∀ c d, R c d →
      Option.Rel Eq ((s.node? c).bind Node.text?) ((t.node? d).bind Node.text?) :=
    fun c d hcd => optionRel_bind (h.node hcd) fun _ _ hnode => by
      rw [hnode.text?]
      cases Node.text? _ with
      | none => exact .none
      | some text => exact .some rfl
  unfold params
  generalize (s.node? a).bind _ = list at hlist ⊢
  generalize (t.node? b).bind _ = list' at hlist ⊢
  cases hlist with
  | none => rfl
  | some hlist => exact List.forall₂_eq_eq_eq ▸ List.rel_filterMap htexts hlist.children

end Store.Alike

/-- Ids for the same tree. -/
theorem Store.SameTree.alike {s t : Store} (hs : s.Grounded) (ht : t.Grounded) (root : NodeId) :
    Store.Alike (s.SameTree t root) s t where
  absent := .absent s t root
  isAbsent h := h.isAbsent hs ht
  node?_ne_none h := h.knows.node?_ne_none
  node h := by
    cases hn : s.node? _ with
    | none =>
      rw [h.node?_eq_none hs ht hn]
      exact .none
    | some node =>
      obtain ⟨node', hn', hnode⟩ := h.node hs ht hn
      rw [hn']
      exact .some hnode
  tree h := h.tree

/-! ## The evaluation -/

namespace Evaluator

/-- Evaluations over stores that hold the same, with data that are alike. -/
structure Alike (l : Value.Likeness) (e e' : Evaluator) : Prop where
  store : Store.Alike l.node e.store e'.store
  data : e.data.Alike l e'.data
  limit : e.limit = e'.limit
  caseFallthrough : e.caseFallthrough = e'.caseFallthrough

/-- What corresponds in evaluations that run alike. -/
def likeness (l : Value.Likeness) :
    Walk.Likeness Context Value EvalFrame Context Value EvalFrame where
  node := l.node
  context := Context.Alike l
  output := Value.Alike l
  frame := EvalFrame.Alike l
  error := CompileError.Alike

variable {l : Value.Likeness} {e e' : Evaluator}

theorem alike_settle (e e' : Evaluator) (site site' : NodeId) {found found' : List Diagnostic}
    (hf : SameGists found found') {result result' : Computed} (hr : result.Alike l result') :
    (e.settle site found result).Alike (likeness l) (e'.settle site' found' result') := by
  cases hr with
  | value h => exact .done hf h
  | fallback message h =>
    cases message with
    | none => exact .done hf h
    | some message => exact .done (hf.append (.of_places [message] _ _ _)) h
  | endless => exact .endless

theorem alike_literal {R : NodeId → NodeId → Prop} {node node' : Node}
    (h : node.Corresponds R node') : (literal node).Alike l (literal node') := by
  unfold literal
  rw [h.tag, h.text?, h.flag?]
  split
  · dsimp only
    split
    · exact .value (.number (l.congruence.refl _))
    · exact .fallback _ .nan
  · exact .value (.string _)
  · exact .value (.bool _)
  · exact .value .null

theorem alike_ident {R : NodeId → NodeId → Prop} {node node' : Node}
    (h : node.Corresponds R node') {context context' : Context} (hc : context.Alike l context') :
    (ident node context).Alike l (ident node' context') := by
  unfold ident
  rw [h.text?]
  exact .getD (hc.scope.get? _) (.string _)

theorem alike_argumentsOf {value value' : Value} (h : value.Alike l value') :
    List.Forall₂ (Value.Alike l) (argumentsOf value) (argumentsOf value') := by
  have hsingle : List.Forall₂ (Value.Alike l) [value] [value'] := .cons h .nil
  cases h with
  | list h => exact h
  | null => exact .nil
  | _ => exact hsingle

namespace Alike

theorem terms (h : e.Alike l e') {id id' : NodeId} (hid : l.node id id') :
    List.Forall₂ l.node (e.terms id) (e'.terms id') := by
  have hnode := h.store.node hid
  unfold Evaluator.terms
  generalize e.store.node? id = node at hnode ⊢
  generalize e'.store.node? id' = node' at hnode ⊢
  cases hnode with
  | none => exact .cons hid .nil
  | some hnode =>
    dsimp only
    rw [hnode.tag]
    split
    · exact hnode.children
    · exact .cons hid .nil

/-! ### Calls -/

theorem call (h : e.Alike l e') (site site' : NodeId) {closure closure' : Closure}
    (hc : closure.Alike l closure') {arguments arguments' : List Value}
    (ha : List.Forall₂ (Value.Alike l) arguments arguments') {context context' : Context}
    (hx : context.Alike l context') :
    (e.call site closure arguments context).Alike (likeness l)
      (e'.call site' closure' arguments' context') := by
  cases hc with
  | @intro lambda params body body' scope scope' applied applied' hbody hscope happlied =>
    have hall : List.Forall₂ (Value.Alike l) (applied ++ arguments) (applied' ++ arguments') :=
      List.rel_append happlied ha
    unfold Evaluator.call
    dsimp only
    rw [hall.length_eq]
    split
    · exact .done rfl (.function (.intro hbody hscope hall))
    · have hown := List.forall₂_take params.length hall
      have hwords : Fields.Rel (Value.Alike l)
          (params.zip ((applied ++ arguments).take params.length))
          (params.zip ((applied' ++ arguments').take params.length)) := Fields.Rel.zip params hown
      rw [← h.limit]
      obtain ⟨cause, hl, hr⟩ | ⟨inner, inner', hl, hr, hinner⟩ :=
        hscope.call hx.scope "lambda" hwords e.limit
      · rw [hl, hr]
        exact .abort (.runaway cause _ _)
      · rw [hl, hr]
        exact .gather (.cons hbody .nil) ⟨hinner, .some hown⟩
          (.surplus site site' (List.forall₂_drop _ hall) hx)

theorem surplus (h : e.Alike l e') (site site' : NodeId) {arguments arguments' : List Value}
    (ha : List.Forall₂ (Value.Alike l) arguments arguments') {context context' : Context}
    (hx : context.Alike l context') {found found' : List Diagnostic} (hf : SameGists found found')
    {value value' : Value} (hv : value.Alike l value') :
    (e.surplus site arguments context found value).Alike (likeness l)
      (e'.surplus site' arguments' context' found' value') := by
  have hdone : (Action.done found value : EvalAction).Alike (likeness l) (.done found' value') :=
    .done hf hv
  cases hv with
  | function hclosure =>
    unfold Evaluator.surplus
    dsimp only
    cases ha with
    | nil => exact hdone
    | cons hfirst hrest => exact .after hf (h.call site site' hclosure (.cons hfirst hrest) hx)
  | _ => exact hdone

theorem apply (h : e.Alike l e') (site site' : NodeId) {context context' : Context}
    (hx : context.Alike l context') {found found' : List Diagnostic} (hf : SameGists found found')
    {function function' arguments arguments' : Value} (hv : function.Alike l function')
    (ha : arguments.Alike l arguments') :
    (e.apply site context found function arguments).Alike (likeness l)
      (e'.apply site' context' found' function' arguments') := by
  have hother := alike_settle e e' site site' hf
    (Computed.alike_expects .apply "a function" hv .null)
  cases hv with
  | function hclosure => exact .after hf (h.call site site' hclosure (alike_argumentsOf ha) hx)
  | _ => exact hother

/-! ### Calls for all items of a list -/

theorem advance (h : e.Alike l e') {i i' : Iteration} (hi : i.Alike l i')
    {items items' : List Value} (hv : List.Forall₂ (Value.Alike l) items items') :
    (e.advance i items).Alike (likeness l) (e'.advance i' items') := by
  cases hv with
  | nil => exact .done hi.sameGists hi.result
  | cons hitem hrest =>
    exact .capture (h.call i.site i'.site hi.closure (hi.arguments hitem) hi.context)
      (.item hi hitem hrest)

theorem each (h : e.Alike l e') (site site' : NodeId) (tag : Tag) {context context' : Context}
    (hx : context.Alike l context') {found found' : List Diagnostic} (hf : SameGists found found')
    {values values' : List Value} (hv : List.Forall₂ (Value.Alike l) values values') :
    (e.each site tag context found values).Alike (likeness l)
      (e'.each site' tag context' found' values') := by
  have hinitial : Option.Rel (Value.Alike l) (if tag = .reduce then values[1]? else none)
      (if tag = .reduce then values'[1]? else none) := by
    split
    · exact forall₂_getElem? hv 1
    · exact .none
  have hitems := Value.Alike.getD (forall₂_getElem? hv (if tag = .reduce then 2 else 1)) .null
  have hfirst := Value.alike_headD hv
  have hfallback := Value.Alike.getD hinitial (.list .nil)
  have haccumulator := Value.Alike.getD hinitial .null
  unfold Evaluator.each
  dsimp only
  generalize values.headD .null = function at hfirst ⊢
  generalize values'.headD .null = function' at hfirst ⊢
  generalize values[if tag = .reduce then 2 else 1]?.getD .null = items at hitems ⊢
  generalize values'[if tag = .reduce then 2 else 1]?.getD .null = items' at hitems ⊢
  have hnoList := alike_settle e e' site site' hf
    (Computed.alike_expects tag "a list" hitems hfallback)
  have hnoFunction := alike_settle e e' site site' hf
    (Computed.alike_expects tag "a function" hfirst hfallback)
  cases hfirst with
  | function hclosure =>
    cases hitems with
    | list hitems =>
      refine h.advance ?_ hitems
      exact ⟨rfl, hclosure, hx, .cons hf .nil, .nil, haccumulator⟩
    | _ => exact hnoList
  | _ => exact hnoFunction

/-! ### Cases -/

theorem selectFrom (h : e.Alike l e') {clauses clauses' : List NodeId}
    (hc : List.Forall₂ l.node clauses clauses') {scope scope' : Scope}
    (hs : scope.Alike l scope') (target : NodeId) (table : PatternTable) :
    Option.Rel l.node (e.selectFrom scope target clauses table)
      (e'.selectFrom scope' target clauses' table) := by
  induction hc generalizing table with
  | nil => exact .none
  | @cons id id' rest rest' hid _ ih =>
    have hnode := h.store.node hid
    unfold Evaluator.selectFrom
    generalize e.store.node? id = clause at hnode ⊢
    generalize e'.store.node? id' = clause' at hnode ⊢
    cases hnode with
    | none => exact ih table
    | some hclause =>
      have hbody := h.store.child hclause 1
      dsimp only
      simp only [h.store.tree (h.store.child hclause 0), Tree.alike_asPattern hs]
      cases e'.store.tree? _
      all_goals
        dsimp only
        split
        · exact .some hbody
        · exact ih _

theorem select? (h : e.Alike l e') {clauses clauses' : List NodeId}
    (hc : List.Forall₂ l.node clauses clauses') {value value' : Value} (hv : value.Alike l value')
    {scope scope' : Scope} (hs : scope.Alike l scope') :
    Option.Rel l.node (e.select? clauses value scope) (e'.select? clauses' value' scope') := by
  unfold Evaluator.select? PatternTable.internValue
  rw [hv.tree]
  exact h.selectFrom hc hs _ _

theorem unmatched (h : e.Alike l e') {value value' : Value} (hv : value.Alike l value') :
    (e.unmatched value).Alike l (e'.unmatched value') := by
  unfold Evaluator.unmatched
  rw [h.caseFallthrough, hv.shown]
  split
  · exact .fallback none (.record .nil)
  · exact .fallback _ (.record .nil)

end Alike

/-! ### All nodes -/

/-- What a node asks for first, where texts of functions show other numbers. -/
def enterShowing (e : Evaluator) (shown : NodeId → NodeId) (id : NodeId) (node : Node)
    (context : Context) : EvalAction :=
  match node.tag with
  | .lambda =>
    .done [] (.function ⟨shown id, e.store.params id, node.child 1, context.scope, []⟩)
  | _ => e.enter id node context

/-- The evaluation of a program in which the text of a function shows `shown` of its lambda. -/
def showing (e : Evaluator) (shown : NodeId → NodeId) : Walk Context Value EvalFrame :=
  { e.walk with enter := e.enterShowing shown }

theorem showing_id (e : Evaluator) : e.showing id = e.walk := by
  have henter : e.enterShowing id = e.enter := by
    funext site node context
    unfold enterShowing
    split
    · rename_i htag
      unfold enter
      rw [htag]
      rfl
    · rfl
  unfold showing
  rw [henter]
  rfl

namespace Alike

theorem enter (h : e.Alike l e') (id id' : NodeId) {node node' : Node}
    (hnode : node.Corresponds l.node node') (htag : node.tag ≠ .lambda)
    {context context' : Context} (hx : context.Alike l context') :
    (e.enter id node context).Alike (likeness l) (e'.enter id' node' context') := by
  have child := h.store.child hnode
  have all := hnode.children
  have first : List.Forall₂ l.node [node.child 0] [node'.child 0] := .cons (child 0) .nil
  unfold Evaluator.enter
  rw [← hnode.tag]
  split
  iterate 5 · exact alike_settle e e' id id' rfl (alike_literal hnode)
  · exact .done rfl (alike_ident hnode hx)
  · exact .gather (h.terms (child 0)) hx .last
  · exact .visit (child 0) hx
  · exact .visit (child 1) hx
  · contradiction
  · exact .gather (.cons (child 0) (.cons (child 1) .nil)) hx (.application id id' hx)
  iterate 3 · exact .gather all hx (.iteration id id' _ hx)
  · exact .gather first hx (.scrutinee id id' (List.forall₂_drop 1 all) hx)
  · exact .gather first hx (.condition (child 1) (child 2) hx)
  iterate 2 · exact .gather first hx (.connective _ (child 1) hx)
  · exact .gather all hx (.operands id id' _ hx)

theorem resume (h : e.Alike l e') {frame frame' : EvalFrame} (hframe : frame.Alike l frame')
    {found found' : List Diagnostic} (hf : SameGists found found') {values values' : List Value}
    (hv : List.Forall₂ (Value.Alike l) values values') :
    (e.resume frame found values).Alike (likeness l) (e'.resume frame' found' values') := by
  have first := Value.alike_headD hv
  cases hframe with
  | operands site site' tag hx =>
    exact alike_settle e e' site site' hf (tag.operate_alike ⟨h.data, hx.arguments⟩ hv)
  | last => exact .done hf (Value.alike_getLastD hv)
  | application site site' hx =>
    exact h.apply site site' hx hf first (Value.alike_headD (List.forall₂_drop 1 hv))
  | surplus site site' ha hx => exact h.surplus site site' ha hx hf first
  | iteration site site' tag hx => exact h.each site site' tag hx hf hv
  | item hi hitem hrest => exact h.advance (hi.take hitem first hf) hrest
  | @scrutinee site site' clauses clauses' context context' hc hx =>
    have hselect := h.select? hc first hx.scope
    unfold Evaluator.resume
    dsimp only
    generalize e.select? clauses _ _ = body at hselect ⊢
    generalize e'.select? clauses' _ _ = body' at hselect ⊢
    cases hselect with
    | none => exact alike_settle e e' site site' hf (h.unmatched first)
    | some hbody => exact .after hf (.visit hbody hx)
  | condition hyes hno hx =>
    unfold Evaluator.resume
    dsimp only
    rw [first.isTruthy]
    refine .after hf (.visit ?_ hx)
    split
    · exact hyes
    · exact hno
  | connective tag hright hx =>
    unfold Evaluator.resume
    dsimp only
    rw [first.isTruthy]
    split
    · exact .done hf (.bool _)
    · exact .after hf (.gather (.cons hright .nil) hx .truth)
  | truth =>
    unfold Evaluator.resume
    dsimp only
    rw [first.isTruthy]
    exact .done hf (.bool _)

/-- Evaluations run alike if texts of functions show the same numbers. -/
theorem showing (h : e.Alike l e') {shown shown' : NodeId → NodeId}
    (hshown : ∀ a b, l.node a b → e.store.tag? a = some .lambda → shown a = shown' b) :
    (e.showing shown).Alike (e'.showing shown') (likeness l) where
  isAbsent _ _ hid := h.store.isAbsent hid
  absent := .null
  enter id id' hid ha := by
    obtain ⟨node, node', hn, hn', hnode⟩ := h.store.nodes hid ha
    refine ⟨node, node', hn, hn', fun context context' hx => ?_⟩
    show (e.enterShowing shown id node context).Alike _ (e'.enterShowing shown' id' node' context')
    unfold enterShowing
    rw [← hnode.tag]
    split
    · rename_i htag
      have hlambda : e.store.tag? id = some .lambda := by
        rw [Store.tag?, hn, Option.map_some, htag]
      rw [hshown id id' hid hlambda, h.store.params_eq hid]
      exact .done rfl (.function (.intro (h.store.child hnode 1) hx.scope .nil))
    · rename_i htag
      exact h.enter id id' hnode htag hx
  resume _ _ hframe _ _ hf _ _ hv := h.resume hframe hf hv

/-- Evaluations run alike if the ids of lambdas are the same. -/
theorem walk (h : e.Alike l e') (hids : ∀ a b, l.node a b → e.store.tag? a = some .lambda → a = b) :
    e.walk.Alike e'.walk (likeness l) := by
  rw [← e.showing_id, ← e'.showing_id]
  exact h.showing hids

end Alike

end Evaluator

end Juxta
