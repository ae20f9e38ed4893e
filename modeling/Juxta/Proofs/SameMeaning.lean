import Juxta.Proofs.FreeNames
import Juxta.Proofs.Literals
import Juxta.Proofs.Lockstep
import Juxta.Proofs.Scheduling
import Juxta.Proofs.UnsignedZeros
import Juxta.Proofs.Walk.Results

/-!
# Nodes that come to the same

Two nodes of a store agree if they come to the same in every evaluation, but for the scales of
numbers and the places of diagnostics. They may be evaluated in contexts of their own, say in the
scope of a call and around it, and one of them may report more. Nodes of the same kind agree if what
stands below them does, and if their contexts are alike where the kind depends on them.

* `Store.rescaling` : values that differ in the scales of numbers only;
* `Evaluator.Serves` : evaluations over a store or a larger one;
* `Comparison`, `Tag.readers` : how two nodes are compared, and the kinds of nodes that depend on
  contexts;
* `Evaluator.Follows`, `Store.Agree` : one id comes to what another one does, and both ways;
* `Evaluator.leads_enter`, `Store.Agree.of_corresponds` : nodes of the same kind;
* `Store.Agree.unwrap`, `Store.agree_single`, `Store.agree_paren` : sequences and parentheses;
* `Store.agree_decided`, `Store.agree_computed` : conditions and operations on literals;
* `Evaluator.Serves.sameMeaning` : the outcomes of ids that agree.
-/

namespace Juxta

/-! ## Nodes that correspond -/

theorem Slot.Corresponds.flip {R : NodeId → NodeId → Prop} {slot slot' : Slot}
    (h : slot.Corresponds R slot') : slot'.Corresponds (fun b a => R a b) slot := by
  cases h with
  | node hid => exact .node hid
  | text content => exact .text content
  | flag value => exact .flag value

theorem Slot.Corresponds.imp {R S : NodeId → NodeId → Prop} (hRS : ∀ a b, R a b → S a b)
    {slot slot' : Slot} (h : slot.Corresponds R slot') : slot.Corresponds S slot' := by
  cases h with
  | node hid => exact .node (hRS _ _ hid)
  | text content => exact .text content
  | flag value => exact .flag value

namespace Node.Corresponds

variable {R S : NodeId → NodeId → Prop} {node node' : Node}

theorem flip (h : node.Corresponds R node') : node'.Corresponds (fun b a => R a b) node :=
  ⟨h.tag.symm, h.slots.flip.imp fun _ _ hslot => hslot.flip⟩

theorem imp (hRS : ∀ a b, R a b → S a b) (h : node.Corresponds R node') :
    node.Corresponds S node' := ⟨h.tag, h.slots.imp fun _ _ hslot => hslot.imp hRS⟩

theorem of_children (h : ∀ child ∈ node.children, R child child) : node.Corresponds R node where
  tag := rfl
  slots := List.forall₂_same.2 fun slot hm => by
    cases slot with
    | node child => exact .node (h child (Node.mem_children.2 hm))
    | text content => exact .text content
    | flag value => exact .flag value

theorem branch (tag : Tag) {ids ids' : List NodeId} (h : List.Forall₂ R ids ids') :
    (Node.branch tag ids).Corresponds R (.branch tag ids') :=
  ⟨rfl, List.rel_map (fun _ _ hid => .node hid) h⟩

end Node.Corresponds

/-! ## Comparisons -/

/-- How two nodes are compared: the contexts in which they are evaluated, and what may become of
their diagnostics. -/
structure Comparison where
  contexts : Evaluator → Context → Context → Prop
  said : List Diagnostic → List Diagnostic → Prop
  of_gists : ∀ {found found'}, SameGists found found' → said found found'
  append : ∀ {found found' more more'}, said found found' → said more more' →
    said (found ++ more) (found' ++ more')

namespace Comparison

/-- Both nodes are evaluated in the same context, and their diagnostics say the same. -/
def same : Comparison where
  contexts e context context' := context = context' ∧ context.Within e.Callable 0
  said := SameGists
  of_gists := id
  append := SameGists.append

/-- The nodes are compared the other way round. -/
def flip (R : Comparison) : Comparison where
  contexts e context context' := R.contexts e context' context
  said found found' := R.said found' found
  of_gists h := R.of_gists h.symm
  append := R.append

end Comparison

/-- The kinds of nodes whose values may depend on more than those of their children. -/
def Tag.readers : List Tag := [.ident, .arg, .apply, .map, .filter, .reduce]

/-- Other operations do without the arguments of the current call. -/
theorem Tag.operate_arguments {tag : Tag} (h : tag ≠ .arg) (data : Value)
    (arguments arguments' : Option (List Value)) (values : List Value) :
    tag.operate ⟨data, arguments⟩ values = tag.operate ⟨data, arguments'⟩ values := by
  cases tag <;> first | rfl | contradiction

/-! ## Numbers at other scales -/

/-- The same functions, and decimals at whatever scale. -/
def Store.rescaling (s : Store) : Value.Likeness where
  node a b := a = b ∧ s.Knows a
  number := Decimal.Rescaled
  congruence := Decimal.congruence_rescaled

theorem Store.rescaling_symm {s t : Store} (he : s.Extends t) {v w : Value}
    (h : v.Alike s.rescaling w) : w.Alike t.rescaling v := by
  have hnode : ∀ {a b}, s.rescaling.node a b → t.rescaling.node b a := by
    rintro a _ ⟨rfl, ha⟩
    exact ⟨rfl, he.knows ha⟩
  exact h.symm hnode Decimal.Rescaled.symm

theorem Store.rescaling_trans {s : Store} {u v w : Value} (h : u.Alike s.rescaling v)
    (k : v.Alike s.rescaling w) : u.Alike s.rescaling w := by
  have hnode : ∀ {a b c}, s.rescaling.node a b → s.rescaling.node b c → s.rescaling.node a c := by
    rintro a _ _ ⟨rfl, ha⟩ ⟨rfl, -⟩
    exact ⟨rfl, ha⟩
  exact h.trans hnode Decimal.Rescaled.trans k

/-- A larger store holds the same. -/
theorem Store.alike_extends {s t : Store} (hs : s.Grounded) (ht : t.Grounded) (he : s.Extends t) :
    Store.Alike s.rescaling.node s t where
  absent := ⟨rfl, s.knows_absent⟩
  isAbsent h := congrArg NodeId.isAbsent h.1
  node?_ne_none h := h.2.node?_ne_none
  node := by
    rintro id _ ⟨rfl, hid⟩
    cases hn : s.node? id with
    | none =>
      rw [hid.eq_absent ((hs.tree?_eq_none_iff id).2 hn)]
      exact .none
    | some node =>
      rw [he.node?_of_some hn]
      exact .some (.of_children fun child hm => ⟨rfl, hs.knows_of_mem hn hm⟩)
  tree := by
    rintro id _ ⟨rfl, hid⟩
    exact (hs.tree?_extends ht he hid).symm

namespace Evaluator

variable {e : Evaluator} {s t : Store} {a b : NodeId} {R : Comparison} {context context' : Context}

/-- An evaluation over a store or a larger one. -/
structure Serves (e : Evaluator) (t : Store) : Prop where
  holds : t.Extends e.store
  grounded : e.store.Grounded
  data : e.data.Within e.Callable

theorem Serves.mono (h : e.Serves t) (hs : s.Extends t) : e.Serves s :=
  ⟨hs.trans h.holds, h.grounded, h.data⟩

/-- What can be called can be called in an evaluation over a larger store. -/
theorem Callable.extend (he : e.store.Extends s) {closure : Closure} (h : e.Callable closure) :
    Callable { e with store := s } closure := ⟨he.knows h.1, h.2⟩

theorem Serves.extend (h : e.Serves t) (hs : s.Grounded) (he : e.store.Extends s) :
    Evaluator.Serves { e with store := s } s where
  holds := .refl s
  grounded := hs
  data := h.data.mono fun _ => Callable.extend he

theorem within_extend (he : e.store.Extends s) (hc : context.Within e.Callable 0) :
    context.Within (Callable { e with store := s }) 0 where
  scope := hc.scope.mono fun _ => Callable.extend he
  arguments values hv value hm := (hc.arguments values hv value hm).mono fun _ => Callable.extend he
  deep := hc.deep

theorem bodies_alike (e : Evaluator) (closure : Closure) (h : e.Callable closure) :
    e.store.rescaling.node closure.body closure.body := ⟨rfl, h.1⟩

/-- An evaluation runs alike over a larger store. -/
theorem Serves.alike (h : e.Serves t) (hs : s.Grounded) (he : e.store.Extends s) :
    e.walk.Alike { e with store := s }.walk (likeness e.store.rescaling) := by
  have hsame : e.Alike e.store.rescaling { e with store := s } :=
    ⟨Store.alike_extends h.grounded hs he, h.data.alike e.bodies_alike, rfl, rfl⟩
  exact hsame.walk fun _ _ hab _ => hab.1

theorem alike_context (h : context.Within e.Callable 0) :
    context.Alike e.store.rescaling context where
  scope := h.scope.alike e.bodies_alike
  arguments := by
    have hvalues := h.arguments
    generalize context.arguments = arguments at hvalues ⊢
    cases arguments with
    | none => exact .none
    | some values => exact .some <| List.forall₂_same.2 fun value hm =>
        (hvalues values rfl value hm).alike e.bodies_alike

/-! ## What follows -/

/-- Values that differ in the scales of numbers only, and what may become of diagnostics. -/
abbrev SameResult (e : Evaluator) (R : Comparison) (r r' : Walk.Result Value) : Prop :=
  R.said r.1 r'.1 ∧ r.2.Alike e.store.rescaling r'.2

/-- If the one action comes to a result, the other one comes to the same. -/
def Leads (e : Evaluator) (R : Comparison) (action action' : EvalAction) : Prop :=
  ∀ r, e.walk.Yields action r → ∃ r', e.walk.Yields action' r' ∧ e.SameResult R r r'

/-- If the one id comes to a result, the other one comes to the same in its own context. -/
def Follows (e : Evaluator) (R : Comparison) (a b : NodeId) : Prop :=
  ∀ context context' : Context, R.contexts e context context' →
    e.Leads R (.visit a context) (.visit b context')

theorem Serves.leads (h : e.Serves t) {action action' : EvalAction}
    (ha : action.Alike (likeness e.store.rescaling) action') : e.Leads R action action' := by
  intro r hr
  obtain ⟨r', hr', hf, hv⟩ := (h.alike h.grounded (.refl _)).yields ha hr
  exact ⟨r', hr', R.of_gists hf, hv⟩

theorem Follows.reaches (h : e.Follows R a b) (hR : R.contexts e context context')
    {r : Walk.Result Value} (hr : e.walk.Reaches context a r) :
    ∃ r', e.walk.Reaches context' b r' ∧ e.SameResult R r r' := by
  obtain ⟨r', hr', hsame⟩ := h context context' hR r ((Walk.yields_visit_iff _ _ _ _).2 hr)
  exact ⟨r', (Walk.yields_visit_iff _ _ _ _).1 hr', hsame⟩

/-- A known id comes to the same as itself. -/
theorem Serves.follows_self (h : e.Serves t) (ha : e.store.Knows a) : e.Follows .same a a := by
  rintro context _ ⟨rfl, hc⟩
  exact h.leads (.visit ⟨rfl, ha⟩ (alike_context hc))

/-- Two ids that come to the same result in all contexts. -/
theorem follows_of_reaches (h : ∀ context context' : Context, R.contexts e context context' →
    ∃ r r', e.walk.Reaches context a r ∧ e.walk.Reaches context' b r' ∧ e.SameResult R r r') :
    e.Follows R a b := by
  intro context context' hR r hr
  obtain ⟨first, second, hfirst, hsecond, hsame⟩ := h context context' hR
  rw [Walk.yields_visit_iff] at hr
  obtain rfl := Walk.Reaches.unique hr hfirst
  exact ⟨second, (Walk.yields_visit_iff _ _ _ _).2 hsecond, hsame⟩

theorem reaches_absent_iff {r : Walk.Result Value} :
    e.walk.Reaches context .absent r ↔ r = ([], .null) := by
  rw [Walk.reaches_iff]
  exact Iff.rfl

theorem reaches_node_iff {id : NodeId} {node : Node} {r : Walk.Result Value}
    (hn : e.store.node? id = some node) :
    e.walk.Reaches context id r ↔ e.walk.Yields (e.enter id node context) r := by
  rw [Walk.reaches_iff, Store.isAbsent_of_node? hn]
  constructor
  · rintro ⟨found, hfound, hr⟩
    obtain rfl := Option.some.inj (hn.symm.trans hfound)
    exact hr
  · exact fun hr => ⟨node, hn, hr⟩

theorem follows_absent : e.Follows R .absent .absent :=
  follows_of_reaches fun _ _ _ => ⟨_, _, reaches_absent_iff.2 rfl, reaches_absent_iff.2 rfl,
    R.of_gists rfl, .null⟩

/-! ## Actions -/

theorem leads_done {found found' : List Diagnostic} (hf : R.said found found')
    {value value' : Value} (hv : value.Alike e.store.rescaling value') :
    e.Leads R (.done found value) (.done found' value') := by
  intro r hr
  obtain rfl := (Walk.yields_done_iff _ _ _ _).1 hr
  exact ⟨_, (Walk.yields_done_iff _ _ _ _).2 rfl, hf, hv⟩

theorem Leads.after {found found' : List Diagnostic} (hf : R.said found found')
    {action action' : EvalAction} (h : e.Leads R action action') :
    e.Leads R (.after found action) (.after found' action') := by
  rintro ⟨first, value⟩ hr
  obtain ⟨more, hmore, rfl⟩ := (Walk.yields_after_iff _ _ _ _).1 hr
  obtain ⟨⟨more', value'⟩, hmore', hsame⟩ := h _ hmore
  exact ⟨(found' ++ more', value'), (Walk.yields_after_iff _ _ _ _).2 ⟨more', hmore', rfl⟩,
    R.append hf hsame.1, hsame.2⟩

theorem Serves.leads_settle (h : e.Serves t) (site site' : NodeId) {found found' : List Diagnostic}
    (hf : R.said found found') {result result' : Computed}
    (hr : result.Alike e.store.rescaling result') :
    e.Leads R (e.settle site found result) (e.settle site' found' result') := by
  cases hr with
  | value hv => exact leads_done hf hv
  | fallback message hv =>
    cases message with
    | none => exact leads_done hf hv
    | some message => exact leads_done (R.append hf (R.of_gists (.of_places [message] _ _ _))) hv
  | endless => exact h.leads .endless

/-- The results of several ids. -/
theorem exists_results_of_follows {ids ids' : List NodeId}
    (h : List.Forall₂ (e.Follows R) ids ids') (hR : R.contexts e context context')
    {results : List (Walk.Result Value)}
    (hr : List.Forall₂ (e.walk.Reaches context) ids results) :
    ∃ results', List.Forall₂ (e.walk.Reaches context') ids' results' ∧
      R.said (results.flatMap Prod.fst) (results'.flatMap Prod.fst) ∧
      List.Forall₂ (Value.Alike e.store.rescaling) (results.map Prod.snd)
        (results'.map Prod.snd) := by
  induction h generalizing results with
  | nil =>
    cases hr
    exact ⟨[], .nil, R.of_gists rfl, .nil⟩
  | cons hid _ ih =>
    obtain ⟨r, rest, hfirst, hrest, rfl⟩ := List.forall₂_cons_left_iff.1 hr
    obtain ⟨r', hfirst', hf, hv⟩ := hid.reaches hR hfirst
    obtain ⟨rest', hrest', hmore, hothers⟩ := ih hrest
    exact ⟨r' :: rest', .cons hfirst' hrest', R.append hf hmore, .cons hv hothers⟩

theorem leads_gather {ids ids' : List NodeId} (h : List.Forall₂ (e.Follows R) ids ids')
    (hR : R.contexts e context context') {frame frame' : EvalFrame}
    (k : ∀ found found' values values', R.said found found' →
      List.Forall₂ (Value.Alike e.store.rescaling) values values' →
      e.Leads R (e.resume frame found values) (e.resume frame' found' values')) :
    e.Leads R (.gather ids context frame) (.gather ids' context' frame') := by
  intro r hr
  obtain ⟨results, hresults, hr⟩ := (Walk.yields_gather_iff _ _ _ _ _).1 hr
  obtain ⟨results', hresults', hf, hv⟩ := exists_results_of_follows h hR hresults
  obtain ⟨r', hr', hlast⟩ := k _ _ _ _ hf hv r hr
  exact ⟨r', (Walk.yields_gather_iff _ _ _ _ _).2 ⟨results', hresults', hr'⟩, hlast⟩

theorem Serves.alike_self (h : e.Serves t) : e.Alike e.store.rescaling e :=
  ⟨Store.alike_extends h.grounded h.grounded (.refl _), h.data.alike e.bodies_alike, rfl, rfl⟩

/-- An operation goes on alike in any contexts, unless it asks for an argument. -/
theorem Serves.leads_operands (h : e.Serves t) (site site' : NodeId) {tag : Tag}
    (hx : tag ∈ Tag.readers → context.Alike e.store.rescaling context')
    {found found' : List Diagnostic} (hf : R.said found found') {values values' : List Value}
    (hv : List.Forall₂ (Value.Alike e.store.rescaling) values values') :
    e.Leads R (e.resume (.operands site tag context) found values)
      (e.resume (.operands site' tag context') found' values') := by
  have hdata := h.alike_self.data
  refine h.leads_settle site site' hf ?_
  by_cases harg : tag = .arg
  · have hx := hx (harg ▸ List.mem_cons_of_mem _ List.mem_cons_self)
    exact tag.operate_alike ⟨hdata, hx.arguments⟩ hv
  · rw [tag.operate_arguments harg _ context.arguments none,
      tag.operate_arguments harg _ context'.arguments none]
    exact tag.operate_alike ⟨hdata, .none⟩ hv

/-! ## Nodes of the same kind -/

/-- Nodes of the same kind come to the same if their children do. Closures are left out, and so
are cases. The terms of a program count one by one. -/
theorem leads_enter (h : e.Serves t) (site site' : NodeId) {node node' : Node}
    (hnode : node.Corresponds (e.Follows R) node') (hl : node.tag ≠ .lambda)
    (hs : node.tag ≠ .case)
    (hp : node.tag = .prog →
      List.Forall₂ (e.Follows R) (e.terms (node.child 0)) (e.terms (node'.child 0)))
    (hR : R.contexts e context context')
    (hx : node.tag ∈ Tag.readers → context.Alike e.store.rescaling context' ∧
      ∀ found found', R.said found found' → SameGists found found') :
    e.Leads R (e.enter site node context) (e.enter site' node' context') := by
  have child := hnode.child (follows_absent (e := e) (R := R))
  have all := hnode.children
  have first : List.Forall₂ (e.Follows R) [node.child 0] [node'.child 0] := .cons (child 0) .nil
  -- where the contexts matter, diagnostics say the same
  have goesOn : ∀ {ids ids' : List NodeId} {frame frame' : EvalFrame}, node.tag ∈ Tag.readers →
      List.Forall₂ (e.Follows R) ids ids' → frame.Alike e.store.rescaling frame' →
      e.Leads R (.gather ids context frame) (.gather ids' context' frame') :=
    fun hreads hids hframe => leads_gather hids hR fun _ _ _ _ hf hv =>
      h.leads (h.alike_self.resume hframe ((hx hreads).2 _ _ hf) hv)
  unfold Evaluator.enter
  rw [← hnode.tag]
  split
  iterate 5 · exact h.leads_settle site site' (R.of_gists rfl) (alike_literal hnode)
  · rename_i htag
    exact h.leads (.done rfl (alike_ident hnode (hx (htag ▸ List.mem_cons_self)).1))
  · rename_i hprog
    exact leads_gather (hp hprog) hR fun _ _ _ _ hf hv => leads_done hf (Value.alike_getLastD hv)
  · exact child 0 context context' hR
  · exact child 1 context context' hR
  · contradiction
  · rename_i htag
    have hreads : node.tag ∈ Tag.readers := htag ▸ by decide
    exact goesOn hreads (.cons (child 0) (.cons (child 1) .nil))
      (.application site site' (hx hreads).1)
  iterate 3
    · rename_i htag
      have hreads : node.tag ∈ Tag.readers := htag ▸ by decide
      exact goesOn hreads all (.iteration site site' _ (hx hreads).1)
  · contradiction
  · refine leads_gather first hR fun found found' values values' hf hv => ?_
    have htruth := (Value.alike_headD hv).isTruthy
    unfold Evaluator.resume
    dsimp only
    rw [htruth]
    refine .after hf ?_
    split
    · exact child 1 context context' hR
    · exact child 2 context context' hR
  iterate 2
    · refine leads_gather first hR fun found found' values values' hf hv => ?_
      have htruth := (Value.alike_headD hv).isTruthy
      unfold Evaluator.resume
      dsimp only
      rw [htruth]
      split
      · exact leads_done hf (.bool _)
      · refine .after hf (leads_gather (.cons (child 1) .nil) hR fun _ _ values values' hf hv => ?_)
        have htruth := (Value.alike_headD hv).isTruthy
        unfold Evaluator.resume
        dsimp only
        rw [htruth]
        exact leads_done hf (.bool _)
  · exact leads_gather all hR fun _ _ _ _ hf hv =>
      h.leads_operands site site' (fun hreads => (hx hreads).1) hf hv

theorem follows_of_corresponds (h : e.Serves t) {node node' : Node} (hn : t.node? a = some node)
    (hn' : t.node? b = some node') (hnode : node.Corresponds (e.Follows R) node')
    (hl : node.tag ≠ .lambda) (hs : node.tag ≠ .case)
    (hp : node.tag = .prog →
      List.Forall₂ (e.Follows R) (e.terms (node.child 0)) (e.terms (node'.child 0)))
    (hx : node.tag ∈ Tag.readers → ∀ context context', R.contexts e context context' →
      context.Alike e.store.rescaling context' ∧
        ∀ found found', R.said found found' → SameGists found found') : e.Follows R a b := by
  intro context context' hR r hr
  rw [Walk.yields_visit_iff, reaches_node_iff (h.holds.node?_of_some hn)] at hr
  obtain ⟨r', hr', hsame⟩ :=
    leads_enter h a b hnode hl hs hp hR (fun htag => hx htag context context' hR) r hr
  rw [← reaches_node_iff (h.holds.node?_of_some hn'), ← Walk.yields_visit_iff] at hr'
  exact ⟨r', hr', hsame⟩

end Evaluator

/-! ## Ids that agree -/

namespace Comparison

variable {R : Comparison} {tag : Tag}

/-- Nodes of a kind can be compared: if it depends on the contexts, these are alike, and
diagnostics say the same. -/
def Admits (R : Comparison) (tag : Tag) : Prop :=
  tag ∈ Tag.readers → (∀ found found', R.said found found' → SameGists found found') ∧
    ∀ e context context', R.contexts e context context' →
      context.Alike e.store.rescaling context' ∧ context'.Alike e.store.rescaling context

theorem admits_of_not_mem (h : tag ∉ Tag.readers) : R.Admits tag := fun htag => absurd htag h

theorem admits_same (tag : Tag) : Comparison.same.Admits tag := by
  refine fun _ => ⟨fun _ _ => id, ?_⟩
  rintro e context _ ⟨rfl, hc⟩
  exact ⟨Evaluator.alike_context hc, Evaluator.alike_context hc⟩

/-- Without diagnostics on the other side there are none. -/
def Silent (R : Comparison) : Prop := ∀ found, R.said found [] → found = []

theorem silent_same : Comparison.same.Silent := fun _ h => List.map_eq_nil_iff.1 h

end Comparison

namespace Store

open Evaluator

variable {s t : Store} {R : Comparison} {a b c : NodeId} {node node' : Node}
  {ids ids' : List NodeId}

/-- Two ids come to the same in every evaluation over the store or a larger one. -/
def Agree (t : Store) (R : Comparison) (a b : NodeId) : Prop :=
  ∀ e : Evaluator, e.Serves t → e.Follows R a b ∧ e.Follows R.flip b a

theorem Agree.extend (h : s.Agree R a b) (he : s.Extends t) : t.Agree R a b :=
  fun e hserves => h e (hserves.mono he)

theorem agree_self (ha : t.Knows a) : t.Agree .same a a := by
  intro e he
  have hself := he.follows_self (he.holds.knows ha)
  refine ⟨hself, ?_⟩
  rintro _ context ⟨rfl, hc⟩ r hr
  obtain ⟨r', hr', hf, hv⟩ := hself context context ⟨rfl, hc⟩ r hr
  exact ⟨r', hr', hf.symm, hv⟩

theorem Agree.symm (h : t.Agree R a b) : t.Agree R.flip b a := fun e he => (h e he).symm

/-- Two ids that come to the same result in all contexts. -/
theorem agree_of_reaches (h : ∀ e : Evaluator, e.Serves t → ∀ context context' : Context,
    R.contexts e context context' → ∃ r r', e.walk.Reaches context a r ∧
      e.walk.Reaches context' b r' ∧ e.SameResult R r r') : t.Agree R a b := by
  intro e he
  constructor
  · exact follows_of_reaches fun context context' hR => h e he context context' hR
  · refine follows_of_reaches fun context' context hR => ?_
    obtain ⟨r, r', hr, hr', hf, hv⟩ := h e he context context' hR
    exact ⟨r', r, hr', hr, hf, rescaling_symm (.refl _) hv⟩

/-- An id that comes to the very results of another one. -/
theorem Agree.of_reaches_iff (h : t.Agree R b c)
    (hab : ∀ e : Evaluator, e.Serves t → ∀ context context' : Context,
      R.contexts e context context' → ∀ r,
        e.walk.Reaches context a r ↔ e.walk.Reaches context b r) : t.Agree R a c := by
  intro e he
  constructor
  · intro context context' hR r hr
    rw [Walk.yields_visit_iff, hab e he context context' hR, ← Walk.yields_visit_iff] at hr
    exact (h e he).1 context context' hR r hr
  · intro context' context hR r hr
    obtain ⟨r', hr', hsame⟩ := (h e he).2 context' context hR r hr
    rw [Walk.yields_visit_iff, ← hab e he context context' hR, ← Walk.yields_visit_iff] at hr'
    exact ⟨r', hr', hsame⟩

/-- Nodes of the same kind agree if their children do. -/
theorem Agree.of_corresponds (hn : t.node? a = some node) (hn' : t.node? b = some node')
    (h : node.Corresponds (t.Agree R) node') (hl : node.tag ≠ .lambda) (hs : node.tag ≠ .case)
    (hp : node.tag ≠ .prog) (hx : R.Admits node.tag) : t.Agree R a b := by
  intro e he
  refine ⟨follows_of_corresponds he hn hn' (h.imp fun _ _ hid => (hid e he).1) hl hs
    (fun hprog => absurd hprog hp)
    fun htag _ _ hR => ⟨((hx htag).2 e _ _ hR).1, (hx htag).1⟩, ?_⟩
  rw [h.tag] at hl hs hp hx
  exact follows_of_corresponds he hn' hn (h.flip.imp fun _ _ hid => (hid e he).2) hl hs
    (fun hprog => absurd hprog hp)
    fun htag _ _ hR => ⟨((hx htag).2 e _ _ hR).2, fun _ _ hf => ((hx htag).1 _ _ hf).symm⟩

theorem Agree.of_branches {tag : Tag} (hn : t.node? a = some (.branch tag ids))
    (hn' : t.node? b = some (.branch tag ids')) (h : List.Forall₂ (t.Agree R) ids ids')
    (ht : tag ∈ [Tag.exprs, .paren, .binding, .ifThen]) : t.Agree R a b := by
  have hall : ∀ tag ∈ [Tag.exprs, .paren, .binding, .ifThen],
      tag ≠ .lambda ∧ tag ≠ .case ∧ tag ≠ .prog ∧ tag ∉ Tag.readers := by decide
  obtain ⟨hl, hs, hp, hx⟩ := hall tag ht
  exact .of_corresponds hn hn' (.branch tag h) hl hs hp (Comparison.admits_of_not_mem hx)

/-- The terms of a program are evaluated one by one. -/
theorem agree_prog {row row' : NodeId} (hn : t.node? a = some (.branch .prog [row]))
    (hn' : t.node? b = some (.branch .prog [row'])) (hr : t.node? row = some (.branch .exprs ids))
    (hr' : t.node? row' = some (.branch .exprs ids')) (h : List.Forall₂ (t.Agree R) ids ids') :
    t.Agree R a b := by
  have hrow : t.Agree R row row' :=
    .of_branches hr hr' h (by decide)
  have hterms : ∀ e : Evaluator, e.Serves t → ∀ {row : NodeId} {ids : List NodeId},
      t.node? row = some (.branch .exprs ids) → e.terms row = ids := by
    intro e he row ids hrow
    unfold Evaluator.terms
    rw [he.holds.node?_of_some hrow]
    exact Node.children_branch .exprs ids
  have hx : Tag.prog ∉ Tag.readers := by decide
  intro e he
  have hfollows := hrow e he
  have hforward : List.Forall₂ (e.Follows R) (e.terms row) (e.terms row') := by
    rw [hterms e he hr, hterms e he hr']
    exact h.imp fun _ _ hid => (hid e he).1
  have hback : List.Forall₂ (e.Follows R.flip) (e.terms row') (e.terms row) := by
    rw [hterms e he hr, hterms e he hr']
    exact h.flip.imp fun _ _ hid => (hid e he).2
  exact ⟨follows_of_corresponds he hn hn' (.branch .prog (.cons hfollows.1 .nil)) nofun nofun
      (fun _ => hforward) fun htag => absurd htag hx,
    follows_of_corresponds he hn' hn (.branch .prog (.cons hfollows.2 .nil)) nofun nofun
      (fun _ => hback) fun htag => absurd htag hx⟩

/-- A literal comes to the same everywhere. -/
theorem agree_scalar (hn : t.node? a = some node) (hr : node.tag.role = .scalar) :
    t.Agree R a a := by
  have henter : ∀ (e : Evaluator) (context : Context),
      e.enter a node context = e.settle a [] (literal node) := by
    obtain ⟨tag, slots⟩ := node
    intro e context
    cases tag <;> first | rfl | cases hr
  have hself : ∀ (e : Evaluator) (R : Comparison), e.Serves t → e.Follows R a a := by
    intro e R he context context' _ r hr
    rw [Walk.yields_visit_iff, reaches_node_iff (he.holds.node?_of_some hn), henter] at hr
    have hnode : node.Corresponds (fun _ _ => True) node := .of_children fun _ _ => trivial
    obtain ⟨r', hr', hsame⟩ := he.leads_settle a a (R.of_gists rfl) (alike_literal hnode) r hr
    rw [← henter e context', ← reaches_node_iff (he.holds.node?_of_some hn),
      ← Walk.yields_visit_iff] at hr'
    exact ⟨r', hr', hsame⟩
  exact fun e he => ⟨hself e R he, hself e R.flip he⟩

theorem agree_absent : t.Agree R .absent .absent := fun _ _ => ⟨follows_absent, follows_absent⟩

end Store

/-! ## Sequences -/

namespace Evaluator

variable {e : Evaluator} {t : Store} {id only inner : NodeId} {context : Context}
  {r : Walk.Result Value}

/-- A sequence of one term comes to what the term comes to. -/
theorem reaches_single_iff (hn : e.store.node? id = some (.branch .exprs [only])) :
    e.walk.Reaches context id r ↔ e.walk.Reaches context only r := by
  have henter : e.enter id (.branch .exprs [only]) context =
      .gather [only] context (.operands id .exprs context) := rfl
  have hresume : ∀ single : Walk.Result Value, e.walk.resume (.operands id .exprs context)
      (List.flatMap Prod.fst [single]) (List.map Prod.snd [single]) =
        .done single.1 single.2 := fun single =>
    congrArg (Action.done · single.2) (List.flatMap_singleton Prod.fst single)
  rw [reaches_node_iff hn, henter, Walk.yields_gather_iff]
  constructor
  · rintro ⟨results, hresults, hr⟩
    obtain ⟨first, rest, hfirst, hrest, rfl⟩ := List.forall₂_cons_left_iff.1 hresults
    cases hrest
    rw [hresume, Walk.yields_done_iff] at hr
    rwa [hr]
  · intro hr
    refine ⟨[r], .cons hr .nil, ?_⟩
    rw [hresume, Walk.yields_done_iff]

/-- A sequence without terms is null. -/
theorem reaches_empty_iff {slots : List Slot} (hn : e.store.node? id = some ⟨.exprs, slots⟩)
    (hc : (⟨.exprs, slots⟩ : Node).children = []) :
    e.walk.Reaches context id r ↔ r = ([], .null) := by
  have henter : e.enter id ⟨.exprs, slots⟩ context =
      .gather (⟨.exprs, slots⟩ : Node).children context (.operands id .exprs context) := rfl
  rw [reaches_node_iff hn, henter, hc, Walk.yields_gather_iff]
  constructor
  · rintro ⟨results, hresults, hr⟩
    cases hresults
    exact (Walk.yields_done_iff _ _ _ _).1 hr
  · rintro rfl
    exact ⟨[], .nil, (Walk.yields_done_iff _ _ _ _).2 rfl⟩

theorem Serves.reaches_unwrap_iff (h : e.Serves t) (id : NodeId) :
    e.walk.Reaches context (t.unwrap id) r ↔ e.walk.Reaches context id r := by
  unfold Store.unwrap
  split
  · rename_i only hn
    exact (reaches_single_iff (h.holds.node?_of_some hn)).symm
  · rename_i slot hnot hn
    rw [reaches_absent_iff, reaches_empty_iff (h.holds.node?_of_some hn)]
    cases slot with
    | node child => exact absurd rfl (hnot child)
    | text content => rfl
    | flag value => rfl
  · exact Iff.rfl

/-- Parentheses come to what stands in them. -/
theorem reaches_paren_iff (hn : e.store.node? id = some (.branch .paren [inner])) :
    e.walk.Reaches context id r ↔ e.walk.Reaches context inner r := by
  rw [reaches_node_iff hn, ← Walk.yields_visit_iff]
  exact Iff.rfl

end Evaluator

/-! ## What takes the place of a node -/

namespace Store

open Evaluator

variable {t : Store} {R : Comparison} {a b c : NodeId} {ids ids' : List NodeId}

theorem Agree.unwrap (h : t.Agree R a b) : t.Agree R a (t.unwrap b) :=
  .symm <| h.symm.of_reaches_iff fun _ he _ _ _ _ => he.reaches_unwrap_iff b

/-- The only term of a sequence takes its place. -/
theorem agree_single (hn : t.node? a = some (.branch .exprs [b])) (h : t.Agree R b c) :
    t.Agree R a c :=
  h.of_reaches_iff fun _ he _ _ _ _ => reaches_single_iff (he.holds.node?_of_some hn)

/-- What stands in parentheses takes their place. -/
theorem agree_paren (hn : t.node? a = some (.branch .paren [b])) (h : t.Agree R b c) :
    t.Agree R a c :=
  h.of_reaches_iff fun _ he _ _ _ _ => reaches_paren_iff (he.holds.node?_of_some hn)

/-- A branch that is missing comes to null. -/
theorem agree_null (hn : t.node? b = some ⟨.null, []⟩) : t.Agree R .absent b :=
  (agree_scalar hn rfl).of_reaches_iff fun e he context _ _ r => by
    have henter : e.enter b ⟨.null, []⟩ context = .done [] .null := rfl
    rw [reaches_absent_iff, reaches_node_iff (he.holds.node?_of_some hn), henter,
      Walk.yields_done_iff]

/-- So does a sequence without terms. -/
theorem agree_empty (hn : t.node? b = some (.branch .exprs [])) : t.Agree R .absent b := by
  have hflip : t.Agree R.flip b .absent := agree_absent.of_reaches_iff fun e he context _ _ r => by
    rw [reaches_absent_iff, reaches_empty_iff (he.holds.node?_of_some hn) rfl]
  exact hflip.symm

/-! ### Decided conditions -/

theorem exists_of_literalTruth? {id : NodeId} {truth : Bool}
    (h : t.literalTruth? id = some truth) {e : Evaluator} (he : e.Serves t) (context : Context) :
    ∃ value, e.walk.Reaches context id ([], value) ∧ value.isTruthy = truth := by
  unfold literalTruth? at h
  cases hn : t.node? id with
  | none =>
    rw [hn] at h
    cases h
  | some node =>
    obtain ⟨tag, slots⟩ := node
    rw [hn] at h
    have hreaches : ∀ {value : Value}, literal ⟨tag, slots⟩ = .value value →
        tag.isLiteral = true → e.walk.Reaches context id ([], value) := by
      intro value hvalue htag
      have henter : e.enter id ⟨tag, slots⟩ context = e.settle id [] (literal ⟨tag, slots⟩) := by
        cases tag <;> first | rfl | cases htag
      rw [reaches_node_iff (he.holds.node?_of_some hn), henter, hvalue]
      exact (Walk.yields_done_iff _ _ _ _).2 rfl
    dsimp only at h
    split at h
    · refine ⟨.bool truth, hreaches ?_ rfl, rfl⟩
      unfold literal
      dsimp only
      rw [h]
      rfl
    · cases h
      exact ⟨.null, hreaches rfl rfl, rfl⟩
    · obtain ⟨n, hparse, rfl⟩ := Option.map_eq_some_iff.1 h
      obtain ⟨text, htext, hparse⟩ := Option.bind_eq_some_iff.1 hparse
      refine ⟨.number n, hreaches ?_ rfl, rfl⟩
      unfold literal
      dsimp only
      rw [htext, Option.getD_some, hparse]
    · obtain ⟨text, htext, rfl⟩ := Option.map_eq_some_iff.1 h
      refine ⟨.string text, hreaches ?_ rfl, rfl⟩
      unfold literal
      dsimp only
      rw [htext, Option.getD_some]
    · cases h

/-- The branch that a condition decides on takes the place of the conditional. -/
theorem agree_decided {s : Store} (hR : R.Silent) (hst : s.Extends t)
    {condition folded yes no : NodeId} {truth : Bool}
    (hn : t.node? a = some (.branch .ifThen [condition, yes, no]))
    (hc : t.Agree R condition folded) (htruth : s.literalTruth? (s.unwrap folded) = some truth)
    (h : t.Agree R (if truth then yes else no) c) : t.Agree R a c := by
  refine h.of_reaches_iff fun e he context context' hcontexts r => ?_
  obtain ⟨value, hliteral, rfl⟩ := exists_of_literalTruth? htruth (he.mono hst) context'
  rw [(he.mono hst).reaches_unwrap_iff] at hliteral
  obtain ⟨⟨found, value'⟩, hcondition, hf, hv⟩ := (hc e he).2.reaches hcontexts hliteral
  obtain rfl : found = [] := hR found hf
  rw [hv.isTruthy]
  have henter : e.enter a (.branch .ifThen [condition, yes, no]) context =
      .gather [condition] context (.condition yes no context) := rfl
  rw [reaches_node_iff (he.holds.node?_of_some hn), henter, Walk.yields_gather_iff]
  have hresume : e.walk.resume (.condition yes no context)
      (List.flatMap Prod.fst [(([], value') : Walk.Result Value)]) [value'] =
        .after [] (.visit (if value'.isTruthy then yes else no) context) := rfl
  have hiff : e.walk.Yields (.after [] (.visit (if value'.isTruthy then yes else no) context)) r ↔
      e.walk.Reaches context (if value'.isTruthy then yes else no) r := by
    rw [Walk.yields_after_iff]
    simp only [Walk.yields_visit_iff, List.nil_append]
    constructor
    · rintro ⟨more, hmore, hfirst⟩
      rwa [← hfirst] at hmore
    · exact fun hr => ⟨_, hr, rfl⟩
  rw [← hiff, ← hresume]
  constructor
  · rintro ⟨results, hresults, hr⟩
    obtain ⟨first, rest, hfirst, hrest, rfl⟩ := List.forall₂_cons_left_iff.1 hresults
    cases hrest
    obtain rfl := Walk.Reaches.unique hfirst hcondition
    exact hr
  · exact fun hr => ⟨[([], value')], .cons hcondition .nil, hr⟩

/-! ### Operations on literals -/

theorem literalNumber?_extend {s : Store} (he : s.Extends t) {id : NodeId} {n : Decimal}
    (h : s.literalNumber? id = some n) : t.literalNumber? id = some n := by
  obtain ⟨node, hn, -, -⟩ := node?_of_literalNumber? h
  unfold literalNumber? at h ⊢
  rwa [he.node?_of_some hn, ← hn]

theorem noMinusZero_of_literalNumber? {id : NodeId} {n : Decimal}
    (h : t.literalNumber? id = some n) : n.NoMinusZero := by
  obtain ⟨node, -, -, hn⟩ := node?_of_literalNumber? h
  obtain ⟨text, -, hparse⟩ := Option.bind_eq_some_iff.1 hn
  exact Number.noMinusZero_of_parse? hparse

/-- Operands that agree with literals of numbers come to such numbers. -/
theorem exists_numbers_of_agree (hR : R.Silent) (h : List.Forall₂ (t.Agree R) ids ids')
    {ns : List Decimal} (hns : List.Forall₂ (fun id n => t.literalNumber? id = some n) ids' ns)
    {e : Evaluator} (he : e.Serves t) {context context' : Context}
    (hc : R.contexts e context context') :
    ∃ ms, List.Forall₂ (fun id m => e.walk.Reaches context id ([], .number m)) ids ms ∧
      List.Forall₂ Decimal.Rescaled ns ms := by
  induction h generalizing ns with
  | nil =>
    cases hns
    exact ⟨[], .nil, .nil⟩
  | cons hid _ ih =>
    obtain ⟨n, rest, hn, hrest, rfl⟩ := List.forall₂_cons_left_iff.1 hns
    obtain ⟨ms, hms, hsame⟩ := ih hrest
    have hliteral : e.walk.Reaches context' _ ([], .number n) :=
      reaches_of_literalNumber? (literalNumber?_extend he.holds hn)
    obtain ⟨⟨found, value⟩, hr, hf, hv⟩ := (hid e he).2.reaches hc hliteral
    obtain rfl : found = [] := hR found hf
    have hv : (Value.number n).Alike e.store.rescaling value := hv
    cases hv with
    | @number _ m hm => exact ⟨m :: ms, .cons hr hms, .cons hm hsame⟩

/-- The result of an operation on literals takes its place, unless that is the negation of a
zero. -/
theorem agree_computed {s : Store} (hR : R.Silent) (hst : s.Extends t) {tag : Tag}
    {result : Node} (hn : t.node? a = some (.branch tag ids))
    (hids : List.Forall₂ (t.Agree R) ids ids')
    (hr : s.computed? tag ids' = some result)
    (hz : tag = .neg → ∀ id ∈ ids', ∀ n, s.literalNumber? id = some n → n.isZero = false)
    (hb : t.node? b = some result) : t.Agree R a b := by
  obtain ⟨ns, value, hns, hwrites, hoperate⟩ := exists_value_of_computed? hr
  have htag := mem_operators_of_computed? hr
  have hsigns : ∀ n, value = .number n → n.NoMinusZero := by
    rintro n rfl
    refine noMinusZero_of_operate htag (hoperate ⟨.null, none⟩) (fun m hm => ?_) fun hneg m hm => ?_
    · obtain ⟨id, -, hid⟩ := exists_of_mem_right hns hm
      exact noMinusZero_of_literalNumber? hid
    · obtain ⟨id, hm, hid⟩ := exists_of_mem_right hns hm
      exact hz hneg id hm m hid
  -- what the operation comes to, and what its result is written as
  refine agree_of_reaches fun e he context context' hc => ?_
  obtain ⟨ms, hms, hsame⟩ := exists_numbers_of_agree hR hids
    (hns.imp fun _ _ => literalNumber?_extend hst) he hc
  have haround : Surroundings.Alike e.store.rescaling ⟨e.data, none⟩ ⟨e.data, none⟩ :=
    ⟨he.data.alike e.bodies_alike, .none⟩
  have hvalues : List.Forall₂ (Value.Alike e.store.rescaling) (ns.map Value.number)
      (ms.map Value.number) := List.rel_map (fun _ _ h => .number h) hsame
  have hresult := tag.operate_alike haround hvalues
  have harg : tag ≠ .arg := by
    rintro rfl
    revert htag
    decide
  rw [hoperate, tag.operate_arguments harg _ _ context.arguments] at hresult
  generalize hright : tag.operate _ (ms.map Value.number) = right at hresult
  cases hresult with
  | @value _ first hfirst =>
    have hn := he.holds.node?_of_some hn
    have hb := he.holds.node?_of_some hb
    have ha := reaches_operator hn htag hms hright
    cases hwrites with
    | number n =>
      cases hfirst with
      | @number _ m hm =>
        have htrim := (hsigns n rfl).rescaled_trim
        refine ⟨_, ([], .number n.trim), ha, reaches_of_literalNumber? ?_, R.of_gists rfl,
          .number (hm.symm.trans htrim)⟩
        unfold literalNumber?
        rw [hb]
        exact Number.parse?_format n
    | flag holds =>
      cases hfirst
      refine ⟨_, ([], .bool holds), ha, ?_, R.of_gists rfl, .bool holds⟩
      rw [reaches_node_iff hb]
      exact (Walk.yields_done_iff _ _ _ _).2 rfl

end Store

/-! ## Outcomes -/

namespace Evaluator

variable {e : Evaluator} {t : Store} {a b : NodeId} {context : Context}

/-- Equal values with diagnostics that say the same, or calls one scope too deep. -/
abbrev SameOutcome (e : Evaluator) (outcome outcome' : Outcome Value) : Prop :=
  outcome.Alike (fun cause cause' => ∃ place place', cause = .runaway ⟨e.limit, "lambda"⟩ place ∧
      cause' = .runaway ⟨e.limit, "lambda"⟩ place')
    (fun value value' => value.Alike e.store.rescaling value' ∧ value.eq value' = true) outcome'

/-- Evaluating two nodes comes to the same under either way of scheduling: one of them comes to a
value if the other one does, and whatever both end with is the same. -/
structure SameMeaning (e : Evaluator) (context : Context) (a b : NodeId) : Prop where
  finishes : ∀ scheduling,
    (∃ steps found value, e.walk.run scheduling steps a context = .finished found value) ↔
      ∃ steps found value, e.walk.run scheduling steps b context = .finished found value
  outcomes : ∀ scheduling steps steps',
    e.walk.run scheduling steps a context ≠ .unfinished →
      e.walk.run scheduling steps' b context ≠ .unfinished →
        e.SameOutcome (e.walk.run scheduling steps a context)
          (e.walk.run scheduling steps' b context)

theorem Follows.finishes {R : Comparison} {context' : Context} (h : e.Follows R a b)
    (hR : R.contexts e context context') {scheduling : Scheduling}
    (ha : ∃ steps found value, e.walk.run scheduling steps a context = .finished found value) :
    ∃ steps found value, e.walk.run scheduling steps b context' = .finished found value := by
  obtain ⟨steps, found, value, hrun⟩ := ha
  obtain ⟨⟨found', value'⟩, hr, -⟩ := h.reaches hR (Walk.reaches_of_finished hrun)
  obtain ⟨steps', hrun'⟩ := Walk.exists_finished_of_reaches hr
  exact ⟨steps', found', value', hrun'⟩

/-- Ids that agree mean the same. -/
theorem Serves.sameMeaning (he : e.Serves t) (h : t.Agree .same a b) (ha : t.Knows a)
    (hb : t.Knows b) (hc : context.Within e.Callable 0) : e.SameMeaning context a b := by
  obtain ⟨hforward, hback⟩ := h e he
  have hwalk : e.walk.Confined (e.bounds e.Callable 0) :=
    confined (e.admits_callable 0) he.grounded he.data
  have hsame : Comparison.same.contexts e context context := ⟨rfl, hc⟩
  refine ⟨fun scheduling => ⟨hforward.finishes hsame, hback.finishes hsame⟩, ?_⟩
  intro scheduling steps steps' hne hne'
  have hwithin := hwalk.run_within scheduling steps (he.holds.knows ha) hc
  have hwithin' := hwalk.run_within scheduling steps' (he.holds.knows hb) hc
  cases hrun : e.walk.run scheduling steps a context with
  | unfinished => exact absurd hrun hne
  | finished found value =>
    obtain ⟨⟨found', value'⟩, hr, hf, hv⟩ :=
      hforward.reaches hsame (Walk.reaches_of_finished hrun)
    cases hrun' : e.walk.run scheduling steps' b context with
    | unfinished => exact absurd hrun' hne'
    | finished more other =>
      cases Walk.Reaches.unique hr (Walk.reaches_of_finished hrun')
      exact .finished hf ⟨hv, Value.Alike.eq hv⟩
    | aborted cause => exact absurd hr (Walk.not_reaches_of_aborted hrun' _)
  | aborted cause =>
    cases hrun' : e.walk.run scheduling steps' b context with
    | unfinished => exact absurd hrun' hne'
    | finished found value =>
      obtain ⟨r, hr, -⟩ := hback.reaches hsame (Walk.reaches_of_finished hrun')
      exact absurd hr (Walk.not_reaches_of_aborted hrun _)
    | aborted cause' =>
      rw [hrun] at hwithin
      rw [hrun'] at hwithin'
      obtain ⟨place, rfl⟩ := hwithin
      obtain ⟨place', rfl⟩ := hwithin'
      exact .aborted ⟨place, place', rfl, rfl⟩

end Evaluator

end Juxta
