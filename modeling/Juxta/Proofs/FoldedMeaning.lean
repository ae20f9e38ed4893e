import Juxta.Proofs.PlainFolding
import Juxta.Proofs.SameMeaning
import Juxta.Proofs.Walk.Results

/-!
# Folding keeps what nodes come to

Where nothing is applied to anything, folding a node succeeds, and the node that it gives comes to
the same in every evaluation, as long as no zero is negated below it. The text of a number keeps
neither its scale nor the sign of a zero.

* `Store.Unapplied` : nodes without functions and cases, where names stand for themselves;
* `Store.AlwaysZero`, `Store.NegatesZero` : zeros with a sign in front;
* `Store.FoldsTo` : what folding may make of a node;
* `Descent.builds_kept_term` : one term of each kind;
* `builds_kept_sequence`, `builds_kept_within` : terms in a row, and a node by itself;
* `fold_keeps_meaning` : the outcomes of both nodes.
-/

namespace Juxta

open Fold

/-! ## Nodes in which nothing is applied -/

/-- The names that may stand in a node, and the kinds of the nodes whose children are terms. -/
structure Manner where
  names : String → Prop
  kinds : Tag → Prop

theorem NodeId.eq_absent_of_isAbsent {id : NodeId} (h : id.isAbsent = true) : id = .absent := by
  obtain ⟨index⟩ := id
  exact congrArg NodeId.mk (beq_iff_eq.1 h)

namespace Store

variable {s t : Store} {m m' : Manner} {id : NodeId}

/-- Nodes without functions and cases. The keys of records are literals. -/
inductive Unapplied (s : Store) (m : Manner) : NodeId → Prop where
  | scalar {id : NodeId} {node : Node} (hn : s.node? id = some node)
      (hr : node.tag.role = .scalar) (hc : node.children = []) : Unapplied s m id
  | name {id : NodeId} {name : String} (hn : s.node? id = some (.leaf .ident name))
      (hm : m.names name) : Unapplied s m id
  | terms {id : NodeId} {tag : Tag} {ids : List NodeId} (hn : s.node? id = some (.branch tag ids))
      (hr : tag.role = .terms) (hp : tag ≠ .prog) (hk : m.kinds tag)
      (hi : ∀ child ∈ ids, Unapplied s m child) : Unapplied s m id
  | prog {id row : NodeId} {terms : List NodeId} (hn : s.node? id = some (.branch .prog [row]))
      (hr : s.node? row = some (.branch .exprs terms)) (hi : Unapplied s m row) : Unapplied s m id
  | paren {id inner : NodeId} (hn : s.node? id = some (.branch .paren [inner]))
      (hi : inner.isAbsent = false → Unapplied s m inner) : Unapplied s m id
  | binding {id key value : NodeId} {node : Node}
      (hn : s.node? id = some (.branch .binding [key, value])) (hk : s.node? key = some node)
      (hr : node.tag.role = .scalar) (hc : node.children = []) (hv : Unapplied s m value) :
      Unapplied s m id
  | choice {id condition yes no : NodeId}
      (hn : s.node? id = some (.branch .ifThen [condition, yes, no]))
      (hc : Unapplied s m condition) (hy : yes.isAbsent = false → Unapplied s m yes)
      (hno : no.isAbsent = false → Unapplied s m no) : Unapplied s m id

namespace Unapplied

theorem exists_node (h : s.Unapplied m id) : ∃ node, s.node? id = some node := by
  cases h with
  | scalar hn | name hn | terms hn | prog hn | paren hn | binding hn | choice hn => exact ⟨_, hn⟩

theorem isAbsent (h : s.Unapplied m id) : id.isAbsent = false :=
  have ⟨_, hn⟩ := h.exists_node
  isAbsent_of_node? hn

theorem knows (h : s.Unapplied m id) : s.Knows id :=
  have ⟨_, hn⟩ := h.exists_node
  knows_of_node? hn

theorem extend (h : s.Unapplied m id) (he : s.Extends t) : t.Unapplied m id := by
  induction h with
  | scalar hn hr hc => exact .scalar (he.node?_of_some hn) hr hc
  | name hn hm => exact .name (he.node?_of_some hn) hm
  | terms hn hr hp hk _ ih => exact .terms (he.node?_of_some hn) hr hp hk ih
  | prog hn hr _ ih => exact .prog (he.node?_of_some hn) (he.node?_of_some hr) ih
  | paren hn _ ih => exact .paren (he.node?_of_some hn) ih
  | binding hn hk hr hc _ ih =>
    exact .binding (he.node?_of_some hn) (he.node?_of_some hk) hr hc ih
  | choice hn _ _ _ ihc ihy ihn => exact .choice (he.node?_of_some hn) ihc ihy ihn

/-- Its kind is none that takes terms. -/
theorem tag_ne_lambda (h : s.Unapplied m id) : s.tag? id ≠ some .lambda := by
  cases h with
  | scalar hn hr =>
    rw [tag?_of_node? hn]
    intro htag
    rw [Option.some.inj htag] at hr
    cases hr
  | @terms _ tag _ hn hr =>
    rw [tag?_of_node? hn]
    intro htag
    obtain rfl : tag = .lambda := Option.some.inj htag
    cases hr
  | name hn | prog hn | paren hn | binding hn | choice hn =>
    rw [tag?_of_node? hn]
    nofun

/-- The children of a node. -/
theorem of_mem (h : s.Unapplied m id) {node : Node} (hn : s.node? id = some node) {child : NodeId}
    (hm : child ∈ node.children) (ha : child.isAbsent = false) : s.Unapplied m child := by
  have same : ∀ {found : Node}, s.node? id = some found → child ∈ found.children := fun hn' =>
    Option.some.inj (hn.symm.trans hn') ▸ hm
  cases h with
  | scalar hn' _ hc =>
    have hm := same hn'
    rw [hc] at hm
    cases hm
  | name hn' => cases same hn'
  | terms hn' _ _ _ hi =>
    have hm := same hn'
    rw [Node.children_branch] at hm
    exact hi child hm
  | prog hn' _ hi =>
    obtain rfl := List.mem_singleton.1 (same hn')
    exact hi
  | paren hn' hi =>
    obtain rfl := List.mem_singleton.1 (same hn')
    exact hi ha
  | binding hn' hk hr hc hv =>
    rcases List.mem_cons.1 (same hn') with rfl | hm
    · exact .scalar hk hr hc
    · obtain rfl := List.mem_singleton.1 hm
      exact hv
  | choice hn' hc hy hno =>
    rcases List.mem_cons.1 (same hn') with rfl | hm
    · exact hc
    · rcases List.mem_cons.1 hm with rfl | hm
      · exact hy ha
      · obtain rfl := List.mem_singleton.1 hm
        exact hno ha

theorem of_terms (h : s.Unapplied m id) {tag : Tag} {ids : List NodeId}
    (hn : s.node? id = some (.branch tag ids)) (hr : tag.role = .terms) :
    ∀ child ∈ ids, s.Unapplied m child := by
  have same : ∀ {node : Node}, s.node? id = some node → .branch tag ids = node := fun hn' =>
    Option.some.inj (hn.symm.trans hn')
  have children : ∀ {tag' : Tag} {ids' : List NodeId}, s.node? id = some (.branch tag' ids') →
      ids = ids' := fun hn' => by
    have hchildren := congrArg Node.children (same hn')
    rwa [Node.children_branch, Node.children_branch] at hchildren
  have role : ∀ {node : Node}, s.node? id = some node → node.tag.role = .terms := fun hn' =>
    same hn' ▸ hr
  cases h with
  | scalar hn' hr' => cases hr'.symm.trans (role hn')
  | terms hn' _ _ _ hi =>
    rw [children hn']
    exact hi
  | prog hn' _ hi =>
    rw [children hn']
    exact List.forall_mem_singleton.2 hi
  | name hn' | paren hn' | binding hn' | choice hn' => cases role hn'

theorem exists_terms (h : s.Unapplied m id) {node : Node} (hn : s.node? id = some node)
    (ht : node.tag = .exprs) : ∃ ids, node = .branch .exprs ids := by
  have same : ∀ {found : Node}, s.node? id = some found → found = node := fun hn' =>
    Option.some.inj (hn'.symm.trans hn)
  cases h with
  | scalar hn' hr =>
    rw [same hn', ht] at hr
    cases hr
  | @terms _ tag ids hn' =>
    obtain rfl := same hn'
    obtain rfl : tag = .exprs := ht
    exact ⟨ids, rfl⟩
  | name hn' | prog hn' | paren hn' | binding hn' | choice hn' =>
    obtain rfl := same hn'
    cases ht

theorem unwrap (h : s.Unapplied m id) : s.Unapplied m (s.unwrap id) := by
  unfold Store.unwrap
  split
  · rename_i only hn
    have hn : s.node? id = some (.branch .exprs [only]) := hn
    exact h.of_terms hn rfl only List.mem_cons_self
  · rename_i slot hnot hn
    obtain ⟨ids, hids⟩ := h.exists_terms hn rfl
    obtain ⟨only, rfl⟩ : ∃ only, slot = .node only := by
      have hslots := congrArg Node.slots hids
      cases ids with
      | nil => cases hslots
      | cons only rest => exact ⟨only, (List.cons.inj hslots).1⟩
    exact absurd rfl (hnot only)
  · exact h

/-- So is everything below. -/
theorem beneath (h : s.Unapplied m id) {below : NodeId} (hb : s.Beneath id below)
    (ha : below.isAbsent = false) : s.Unapplied m below := by
  induction hb with
  | root => exact h
  | @child parent child node hparent hn hm ih =>
    exact (ih (isAbsent_of_node? hn)).of_mem hn hm ha
  | absent => cases ha

/-- The kinds of nodes with terms. -/
theorem kinds (h : s.Unapplied m id) {tag : Tag} {slots : List Slot}
    (hn : s.node? id = some ⟨tag, slots⟩) (hr : tag.role = .terms) (hp : tag ≠ .prog) :
    m.kinds tag := by
  have same : ∀ {found : Node}, s.node? id = some found → found.tag = tag := fun hn' =>
    congrArg Node.tag (Option.some.inj (hn'.symm.trans hn))
  cases h with
  | scalar hn' hr' =>
    rw [same hn', hr] at hr'
    cases hr'
  | @terms _ tag' _ hn' _ _ hk =>
    obtain rfl : tag' = tag := same hn'
    exact hk
  | prog hn' => exact absurd (same hn').symm hp
  | name hn' | paren hn' | binding hn' | choice hn' =>
    obtain rfl := same hn'
    cases hr

end Unapplied

/-! ## Terms in parentheses -/

/-- The terms that parentheses around a node group: those of a sequence, or the node itself. -/
def termsIn (s : Store) (inner : NodeId) : List NodeId :=
  match s.node? inner with
  | some sequence => if sequence.tag = .exprs then sequence.children else [inner]
  | none => []

theorem termsIn_exprs {ids : List NodeId} (hn : s.node? id = some (.branch .exprs ids)) :
    s.termsIn id = ids := by
  unfold termsIn
  rw [hn]
  exact Node.children_branch .exprs ids

theorem termsIn_other {node : Node} (hn : s.node? id = some node) (ht : node.tag ≠ .exprs) :
    s.termsIn id = [id] := by
  unfold termsIn
  rw [hn]
  exact if_neg ht

/-! ## Zeros with a sign -/

/-- A node that comes to a zero in all contexts. -/
def AlwaysZero (s : Store) (R : Comparison) (id : NodeId) : Prop :=
  ∀ e : Evaluator, e.store = s → e.data.Within e.Callable →
    ∀ context context' : Context, R.contexts e context context' →
      ∃ n, n.isZero = true ∧ e.walk.Reaches context id ([], .number n)

/-- A zero with a sign in front stands below. -/
def NegatesZero (s : Store) (R : Comparison) (id : NodeId) : Prop :=
  ∃ negation node operand, s.Beneath id negation ∧ s.node? negation = some node ∧
    node.tag = .neg ∧ operand ∈ node.children ∧ s.AlwaysZero R operand

end Store

/-- Comparisons in contexts that remain what they are when nodes are stored. -/
structure Comparison.Stable (R : Comparison) : Prop where
  silent : R.Silent
  within : ∀ {e context context'}, R.contexts e context context' → context.Within e.Callable 0
  extend : ∀ {e context context'} {t : Store}, e.Serves e.store → R.contexts e context context' →
    e.store.Extends t → t.Grounded → R.contexts { e with store := t } context context'

theorem Comparison.stable_same : Comparison.same.Stable where
  silent := silent_same
  within h := h.2
  extend _ h he _ := ⟨h.1, Evaluator.within_extend he h.2⟩

namespace Store

variable {s t : Store} {R : Comparison} {m m' : Manner} {env : Environment} {id : NodeId}

theorem not_alwaysZero_of_literalNumber? {n : Decimal} (hn : s.literalNumber? id = some n)
    (hzero : n.isZero = false) : ¬ s.AlwaysZero .same id := by
  intro h
  let e : Evaluator := ⟨s, .null, 0, .empty⟩
  obtain ⟨m, hm, hr⟩ := h e rfl .null .global .global ⟨rfl, Context.within_global _⟩
  have hliteral : e.walk.Reaches .global id ([], .number n) :=
    Evaluator.reaches_of_literalNumber? hn
  cases Walk.Reaches.unique hr hliteral
  rw [hzero] at hm
  cases hm

/-- A node that comes to the same as a literal of zero is always zero. -/
theorem alwaysZero_of_agree (hR : R.Silent) (ht : t.Grounded) {literal : NodeId}
    (ha : t.Agree R id literal)
    {n : Decimal} (hn : t.literalNumber? literal = some n) (hzero : n.isZero = true) :
    t.AlwaysZero R id := by
  rintro e rfl hdata context context' hc
  obtain ⟨⟨found, value⟩, hr, hf, hv⟩ := (ha e ⟨.refl _, ht, hdata⟩).2.reaches hc
    (Evaluator.reaches_of_literalNumber? hn)
  obtain rfl : found = [] := hR found hf
  have hv : (Value.number n).Alike e.store.rescaling value := hv
  cases hv with
  | @number _ m hm =>
    have hm : n.Rescaled m := hm
    exact ⟨m, hm.isZero ▸ hzero, hr⟩

/-! ### Larger stores -/

/-- What stands below a known node in a larger store stood below it before. -/
theorem Beneath.restrict (hs : s.Grounded) (he : s.Extends t) {root : NodeId} (hr : s.Knows root)
    (h : t.Beneath root id) : s.Beneath root id ∧ s.Knows id := by
  induction h with
  | root => exact ⟨.root, hr⟩
  | @child parent child node _ hn hm ih =>
    obtain ⟨hbeneath, hknows⟩ := ih
    obtain ⟨found, hfound⟩ := Option.ne_none_iff_exists'.1
      (hknows.node?_ne_none (isAbsent_of_node? hn))
    obtain rfl := Option.some.inj (hn.symm.trans (he.node?_of_some hfound))
    exact ⟨.child hbeneath hfound hm, hs.knows_of_mem hfound hm⟩
  | absent => exact ⟨.absent, s.knows_absent⟩

theorem AlwaysZero.restrict (hR : R.Stable) (hs : s.Grounded) (ht : t.Grounded) (he : s.Extends t)
    (hid : s.Knows id) (h : t.AlwaysZero R id) : s.AlwaysZero R id := by
  rintro e rfl hdata context context' hc
  have hserves : e.Serves e.store := ⟨.refl _, hs, hdata⟩
  obtain ⟨n, hzero, hr⟩ := h _ rfl (hserves.extend ht he).data context context'
    (hR.extend hserves hc he ht)
  obtain ⟨⟨found, value⟩, hr', hf, hv⟩ := (hserves.alike ht he).yields_of
    (.visit ⟨rfl, hid⟩ (Evaluator.alike_context (hR.within hc)))
    ((Walk.yields_visit_iff _ _ _ _).2 hr)
  obtain rfl : found = [] := List.map_eq_nil_iff.1 hf
  have hv : value.Alike e.store.rescaling (.number n) := hv
  cases hv with
  | @number m _ hm =>
    have hm : m.Rescaled n := hm
    exact ⟨m, hm.isZero.trans hzero, (Walk.yields_visit_iff _ _ _ _).1 hr'⟩

theorem NegatesZero.restrict (hR : R.Stable) (hs : s.Grounded) (ht : t.Grounded)
    (he : s.Extends t) (hid : s.Knows id) (h : t.NegatesZero R id) : s.NegatesZero R id := by
  obtain ⟨negation, node, operand, hbelow, hn, htag, hm, hzero⟩ := h
  obtain ⟨hbelow, hknows⟩ := hbelow.restrict hs he hid
  obtain ⟨found, hfound⟩ := Option.ne_none_iff_exists'.1
    (hknows.node?_ne_none (isAbsent_of_node? hn))
  obtain rfl := Option.some.inj (hn.symm.trans (he.node?_of_some hfound))
  exact ⟨negation, node, operand, hbelow, hfound, htag, hm,
    hzero.restrict hR hs ht he (hs.knows_of_mem hfound hm)⟩

/-! ## What folding relies on, and what it gives -/

/-- A node in which nothing is applied and no zero is negated. -/
structure Foldable (s : Store) (R : Comparison) (m : Manner) (id : NodeId) : Prop where
  unapplied : s.Unapplied m id
  signs : ¬ s.NegatesZero R id

theorem Foldable.child (h : s.Foldable R m id) {node : Node} (hn : s.node? id = some node)
    {child : NodeId} (hm : child ∈ node.children) (ha : child.isAbsent = false) :
    s.Foldable R m child := by
  refine ⟨h.unapplied.of_mem hn hm ha, fun ⟨negation, negated, operand, hbelow, hzero⟩ => ?_⟩
  exact h.signs ⟨negation, negated, operand, (Beneath.child .root hn hm).trans hbelow, hzero⟩

theorem Foldable.children (h : s.Foldable R m id) {tag : Tag} {ids : List NodeId}
    (hn : s.node? id = some (.branch tag ids)) (hi : ∀ child ∈ ids, s.Unapplied m child) :
    ∀ child ∈ ids, s.Foldable R m child := fun child hm =>
  h.child hn (by rwa [Node.children_branch]) (hi child hm).isAbsent

theorem Foldable.extend (h : s.Foldable R m id) (hR : R.Stable) (hs : s.Grounded)
    (ht : t.Grounded) (he : s.Extends t) : t.Foldable R m id :=
  ⟨h.unapplied.extend he, fun hz => h.signs (hz.restrict hR hs ht he h.unapplied.knows)⟩

/-- What may take the place of a node: one that comes to the same, where nothing is applied
either. -/
structure FoldsTo (t : Store) (R : Comparison) (m : Manner) (id folded : NodeId) : Prop where
  unapplied : t.Unapplied m folded
  agree : t.Agree R id folded

variable {folded : NodeId} {ids results : List NodeId}

theorem FoldsTo.extend (h : s.FoldsTo R m id folded) (he : s.Extends t) :
    t.FoldsTo R m id folded := ⟨h.unapplied.extend he, h.agree.extend he⟩

theorem FoldsTo.unwrap (h : s.FoldsTo R m id folded) : s.FoldsTo R m id (s.unwrap folded) :=
  ⟨h.unapplied.unwrap, h.agree.unwrap⟩

/-- What takes in a larger store the place of a node. The terms of a sequence stay its terms. -/
structure KeptBy (s t : Store) (R : Comparison) (m : Manner) (id folded : NodeId) : Prop
    extends t.FoldsTo R m id folded where
  terms : ∀ {ids}, s.node? id = some (.branch .exprs ids) →
    ∃ results, t.node? folded = some (.branch .exprs results) ∧
      List.Forall₂ (t.Agree R) ids results

theorem FoldsTo.kept {node : Node} (h : t.FoldsTo R m id folded) (hn : s.node? id = some node)
    (ht : node.tag ≠ .exprs) : s.KeptBy t R m id folded :=
  ⟨h, fun hn' => absurd (congrArg Node.tag (Option.some.inj (hn.symm.trans hn'))) ht⟩

theorem KeptBy.extend {u : Store} (h : s.KeptBy t R m id folded) (he : t.Extends u) :
    s.KeptBy u R m id folded := by
  refine ⟨h.toFoldsTo.extend he, fun hn => ?_⟩
  obtain ⟨results, hresults, hagree⟩ := h.terms hn
  exact ⟨results, he.node?_of_some hresults, hagree.imp fun _ _ hid => hid.extend he⟩

theorem unapplied_of_foldsTo (h : List.Forall₂ (s.FoldsTo R m) ids results) :
    ∀ id ∈ results, s.Unapplied m id := fun _ hm =>
  have ⟨_, _, hid⟩ := exists_of_mem_right h hm
  hid.unapplied

theorem agree_of_foldsTo (h : List.Forall₂ (s.FoldsTo R m) ids results) :
    List.Forall₂ (s.Agree R) ids results := h.imp fun _ _ hid => hid.agree

end Store

/-- Names stand for themselves or for nodes that come to the same in the other context. Where kinds
of nodes depend on their contexts, these are alike. -/
structure Environment.Reads (env : Environment) (s : Store) (R : Comparison) (m m' : Manner) :
    Prop where
  stable : R.Stable
  sequences : m'.kinds .exprs
  kinds : ∀ tag, m.kinds tag → m'.kinds tag
  admits : ∀ tag, m.kinds tag → R.Admits tag
  name : ∀ {t : Store} {id : NodeId} {name : String}, s.Extends t → t.Grounded → m.names name →
    t.node? id = some (.leaf .ident name) →
      (¬ env.Means name ∧ t.FoldsTo R m' id id) ∨ ∃ word number bound,
        env.find? name = some (word, number) ∧ word.kind = .value bound ∧
          t.FoldsTo R m' id bound

/-! ## New nodes -/

namespace Fold

variable {s : Store} {R : Comparison} {m m' : Manner} {id : NodeId} {ids results : List NodeId}
  {tag : Tag}

/-- A node that is stored. -/
theorem builds_stored (hs : s.Grounded) (node : Node) (coord : Option Coord)
    (hk : ∀ child ∈ node.children, s.Knows child) :
    Builds s (intern node coord) fun t id => t.node? id = some node :=
  ⟨_, _, rfl, s.extends_intern _ _, hs.intern hk, s.node?_intern _ _⟩

/-- A node in the place of another one. -/
theorem builds_branch (hs : s.Grounded) (origin : NodeId) (tag : Tag)
    (h : ∀ child ∈ ids, s.Knows child) :
    Builds s (rebuild origin tag ids) fun t id => t.node? id = some (.branch tag ids) := by
  have hk : ∀ child ∈ (Node.branch tag ids).children, s.Knows child := by
    rwa [Node.children_branch]
  exact ⟨_, _, rfl, s.extends_intern _ _, hs.intern hk, s.node?_intern _ _⟩

theorem builds_branch_unapplied (hs : s.Grounded) (origin : NodeId) (tag : Tag)
    (h : ∀ child ∈ ids, s.Unapplied m child) :
    Builds s (rebuild origin tag ids) fun t id => t.node? id = some (.branch tag ids) :=
  builds_branch hs origin tag fun child hm => (h child hm).knows

/-- The same kind of node over what takes the place of its children. -/
theorem builds_kept_branch (hs : s.Grounded) (hn : s.node? id = some (.branch tag ids))
    (hr : tag.role = .terms) (hp : tag ≠ .prog) (hk : m.kinds tag) (ha : R.Admits tag)
    (h : List.Forall₂ (s.FoldsTo R m) ids results) :
    Builds s (rebuild id tag results) fun t folded =>
      t.FoldsTo R m id folded ∧ t.node? folded = some (.branch tag results) := by
  have hi := Store.unapplied_of_foldsTo h
  refine (builds_branch_unapplied hs id tag hi).imp fun t folded he _ hfolded => ?_
  refine ⟨⟨.terms hfolded hr hp hk fun child hm => (hi child hm).extend he, ?_⟩, hfolded⟩
  refine .of_corresponds (he.node?_of_some hn) hfolded (.branch tag ?_) ?_ ?_ hp ha
  · exact (Store.agree_of_foldsTo h).imp fun _ _ hid => hid.extend he
  · rintro rfl
    cases hr
  · rintro rfl
    cases hr

/-- An operation, or its result if its operands are literals. -/
theorem builds_kept_operation (hR : R.Silent) (hs : s.Grounded)
    (hn : s.node? id = some (.branch tag ids)) (hr : tag.role = .terms) (hp : tag ≠ .prog)
    (hk : m.kinds tag) (ha : R.Admits tag)
    (h : List.Forall₂ (s.FoldsTo R m) ids results)
    (hz : tag = .neg → ∀ id ∈ results, ∀ n, s.literalNumber? id = some n → n.isZero = false) :
    Builds s (operation id tag results) fun t folded => t.FoldsTo R m id folded := by
  unfold operation
  refine .get ?_
  cases hresult : s.computed? tag results with
  | none => exact (builds_kept_branch hs hn hr hp hk ha h).imp fun _ _ _ _ hkept => hkept.1
  | some result =>
    have hchildren := Store.children_of_computed? hresult
    refine (builds_stored hs result none (by simp [hchildren])).imp fun t folded he _ hfolded => ?_
    have hagree := (Store.agree_of_foldsTo h).imp fun _ _ hid => hid.extend he
    exact ⟨.scalar hfolded (scalar_of_computed? hresult) hchildren,
      Store.agree_computed hR he (he.node?_of_some hn) hagree hresult hz hfolded⟩

end Fold

/-! ## Terms -/

namespace Descent

/-- What a term relies on: sequences below it are folded to sequences that come to the same. -/
structure Preserves (d : Descent) (s : Store) (R : Comparison) (m m' : Manner) : Prop
    extends d.env.Reads s R m m' where
  below : ∀ t ids, s.Extends t → t.Grounded → (∀ id ∈ ids, s.Foldable R m id) →
    (∀ id ∈ ids, d.Below id) →
      Builds t (d.below ids) fun u => List.Forall₂ (s.KeptBy u R m') ids

/-- What takes the place of a term that takes no others. -/
abbrev Keeps (s : Store) (R : Comparison) (m : Manner) (id : NodeId) (t : Store)
    (result : NodeId × Nat) : Prop := s.KeptBy t R m id result.1 ∧ result.2 = 0

variable {d : Descent} {s t : Store} {R : Comparison} {m m' : Manner} {id : NodeId} {tag : Tag}
  {ids : List NodeId} {stand : Stand} {take : Nat → Fold (List NodeId × Nat)}

theorem builds_kept_child (hd : d.Preserves s R m m') (he : s.Extends t) (ht : t.Grounded)
    (hid : s.Foldable R m id) (hb : d.Below id) :
    Builds t (d.child id) fun u => s.KeptBy u R m' id := by
  unfold child
  rw [hid.unapplied.isAbsent]
  refine (hd.below t [id] he ht (List.forall_mem_singleton.2 hid)
    (List.forall_mem_singleton.2 hb)).bind fun u results _ hu hresults => ?_
  obtain ⟨folded, rest, hfolded, hrest, rfl⟩ := List.forall₂_cons_left_iff.1 hresults
  exact .pure hu hfolded

theorem builds_kept_children (hd : d.Preserves s R m m') (he : s.Extends t) (ht : t.Grounded)
    (hids : ∀ id ∈ ids, s.Foldable R m id) (hb : ∀ id ∈ ids, d.Below id) :
    Builds t (d.children ids) fun u => List.Forall₂ (s.KeptBy u R m') ids := by
  induction ids generalizing t with
  | nil => exact .pure ht .nil
  | cons id rest ih =>
    obtain ⟨hid, hrest⟩ := List.forall_mem_cons.1 hids
    obtain ⟨hlt, hlater⟩ := List.forall_mem_cons.1 hb
    refine (builds_kept_child hd he ht hid hlt).bind fun u folded hu hug hfolded => ?_
    refine (ih (he.trans hu) hug hrest hlater).bind fun v others hv hvg hothers => ?_
    exact .pure hvg (.cons (hfolded.extend hv) hothers)

/-- A sequence or a list. -/
theorem builds_kept_row (hd : d.Preserves s R m m') (hs : s.Grounded) (he : s.Extends t)
    (ht : t.Grounded) (hid : s.Foldable R m id) (hlt : id.index < d.bound)
    (hn : s.node? id = some (.branch tag ids)) (htag : tag = .exprs ∨ tag = .list)
    (hk : m.kinds tag) (hi : ∀ child ∈ ids, s.Unapplied m child) :
    Builds t (d.single id (.branch tag ids)) fun u => s.KeptBy u R m' id := by
  have hsingle : d.single id (.branch tag ids) = (do
      rebuild id tag (← d.below (Node.branch tag ids).children)) := by
    rcases htag with rfl | rfl <;> rfl
  have hrole : tag.role = .terms ∧ tag ≠ .prog := by
    rcases htag with rfl | rfl <;> exact ⟨rfl, nofun⟩
  rw [hsingle, Node.children_branch]
  refine (hd.below t ids he ht (hid.children hn hi) (below_of_branch hs hn hlt)).bind
    fun u results hu hug hresults => ?_
  have hfolded := hresults.imp fun _ _ h => h.toFoldsTo
  refine (builds_kept_branch hug (hu.node?_of_some (he.node?_of_some hn)) hrole.1 hrole.2
    (hd.kinds tag hk) (hd.admits tag hk) hfolded).imp
    fun v folded hv _ ⟨hkept, hnode⟩ => ⟨hkept, fun hn' => ?_⟩
  have hsame := Option.some.inj (hn.symm.trans hn')
  obtain rfl : tag = .exprs := congrArg Node.tag hsame
  have hids := congrArg Node.children hsame
  rw [Node.children_branch, Node.children_branch] at hids
  subst hids
  exact ⟨results, hnode, (Store.agree_of_foldsTo hfolded).imp fun _ _ h => h.extend hv⟩

/-- An operation. -/
theorem builds_kept_operands (hd : d.Preserves s R m m') (hs : s.Grounded) (he : s.Extends t)
    (ht : t.Grounded) (hid : s.Foldable R m id) (hlt : id.index < d.bound)
    (hn : s.node? id = some (.branch tag ids)) (htag : tag.IsOperation) (hp : tag ≠ .prog)
    (hk : m.kinds tag) (hi : ∀ child ∈ ids, s.Unapplied m child) :
    Builds t (d.single id (.branch tag ids)) fun u => u.FoldsTo R m' id := by
  have hsingle : d.single id (.branch tag ids) = (do
      operation id tag (← d.children (Node.branch tag ids).children)) := by
    obtain ⟨hrole, hexprs, hlist⟩ := htag
    cases tag <;> first | rfl | contradiction
  rw [hsingle, Node.children_branch]
  refine (builds_kept_children hd he ht (hid.children hn hi) (below_of_branch hs hn hlt)).bind
    fun u results hu hug hresults => ?_
  have hfolded := hresults.imp fun _ _ h => h.toFoldsTo
  refine builds_kept_operation hd.stable.silent hug (hu.node?_of_some (he.node?_of_some hn))
    htag.role hp (hd.kinds tag hk) (hd.admits tag hk) hfolded
    fun hneg literal hm n hnumber => ?_
  -- otherwise the operand is always zero, and it is negated
  obtain ⟨operand, hoperand, hsame⟩ := exists_of_mem_right hfolded hm
  by_contra hzero
  refine hid.signs ⟨id, _, operand, .root, hn, hneg, by rwa [Node.children_branch], ?_⟩
  have halways := Store.alwaysZero_of_agree hd.stable.silent hug hsame.agree hnumber
    (Bool.not_eq_false _ ▸ hzero)
  exact halways.restrict hd.stable hs hug (he.trans hu) (hi operand hoperand).knows

/-- A whole program. -/
theorem builds_kept_prog (hd : d.Preserves s R m m') (hs : s.Grounded) (he : s.Extends t)
    (ht : t.Grounded) (hid : s.Foldable R m id) (hlt : id.index < d.bound) {row : NodeId}
    (hn : s.node? id = some (.branch .prog [row])) (hr : s.node? row = some (.branch .exprs ids))
    (hi : s.Unapplied m row) :
    Builds t (d.single id (.branch .prog [row])) fun u => u.FoldsTo R m' id := by
  have hrow : ∀ child ∈ [row], s.Unapplied m child := List.forall_mem_singleton.2 hi
  show Builds t (do operation id .prog (← d.children (Node.branch .prog [row]).children)) _
  rw [Node.children_branch]
  refine (builds_kept_children hd he ht (hid.children hn hrow) (below_of_branch hs hn hlt)).bind
    fun u results hu hug hresults => ?_
  obtain ⟨row', rest, hkept, hrest, rfl⟩ := List.forall₂_cons_left_iff.1 hresults
  cases hrest
  obtain ⟨terms, hterms, hagree⟩ := hkept.terms hr
  have hnone : u.computed? .prog [row'] = none := rfl
  unfold operation
  refine .get ?_
  rw [hnone]
  refine (builds_branch_unapplied hug id .prog (List.forall_mem_singleton.2 hkept.unapplied)).imp
    fun v folded hv _ hfolded => ?_
  have hsv := (he.trans hu).trans hv
  refine ⟨.prog hfolded (hv.node?_of_some hterms) (hkept.unapplied.extend hv), ?_⟩
  exact Store.agree_prog (hsv.node?_of_some hn) hfolded (hsv.node?_of_some hr)
      (hv.node?_of_some hterms) (hagree.imp fun _ _ h => h.extend hv)

/-- A field of a record. -/
theorem builds_kept_binding (hd : d.Preserves s R m m') (hs : s.Grounded) (he : s.Extends t)
    (ht : t.Grounded) (hid : s.Foldable R m id) (hlt : id.index < d.bound) {key value : NodeId}
    {node : Node} (hn : s.node? id = some (.branch .binding [key, value]))
    (hk : s.node? key = some node) (hr : node.tag.role = .scalar) (hc : node.children = [])
    (hv : s.Unapplied m value) :
    Builds t (d.single id (.branch .binding [key, value])) fun u => u.FoldsTo R m' id := by
  have hvalue : value ∈ [key, value] := List.mem_cons_of_mem _ List.mem_cons_self
  refine (builds_kept_child hd he ht (hid.child hn (by rwa [Node.children_branch]) hv.isAbsent)
    (below_of_branch hs hn hlt value hvalue)).bind fun u folded hu hug hfolded => .get ?_
  have hsu := he.trans hu
  have hkept := hfolded.toFoldsTo.unwrap
  have hi : ∀ child ∈ [key, u.unwrap folded], u.Unapplied m' child :=
    List.forall_mem_cons.2 ⟨.scalar (hsu.node?_of_some hk) hr hc,
      List.forall_mem_singleton.2 hkept.unapplied⟩
  refine (builds_branch_unapplied hug id .binding hi).imp fun v result hv _ hresult => ?_
  have hsv := hsu.trans hv
  have hk := hsv.node?_of_some hk
  refine ⟨.binding hresult hk hr hc (hkept.unapplied.extend hv), ?_⟩
  exact .of_branches (hsv.node?_of_some hn) hresult
    (.cons (Store.agree_scalar hk hr) (.cons (hkept.agree.extend hv) .nil)) (by decide)

/-! ### Conditionals -/

/-- A branch in the place of the whole. -/
theorem builds_kept_branch_of (hd : d.Preserves s R m m') (he : s.Extends t) (ht : t.Grounded)
    {branch : NodeId} (hid : branch.isAbsent = false → s.Foldable R m branch)
    (hb : d.Below branch) :
    Builds t (if branch.isAbsent then Fold.intern ⟨.null, []⟩ none else do
      let folded ← d.child branch
      return (← get).unwrap folded) fun u => u.FoldsTo R m' branch := by
  cases habsent : branch.isAbsent with
  | true =>
    obtain rfl := NodeId.eq_absent_of_isAbsent habsent
    refine (builds_stored ht ⟨.null, []⟩ none nofun).imp fun u folded _ _ hfolded => ?_
    exact ⟨.scalar hfolded rfl rfl, Store.agree_null hfolded⟩
  | false =>
    refine (builds_kept_child hd he ht (hid habsent) hb).bind fun u folded _ hu hfolded => .get ?_
    exact .pure hu hfolded.toFoldsTo.unwrap

/-- A branch that is left. -/
theorem builds_kept_last (hd : d.Preserves s R m m') (he : s.Extends t) (ht : t.Grounded)
    {branch : NodeId} (hid : branch.isAbsent = false → s.Foldable R m branch)
    (hb : d.Below branch) :
    Builds t (d.child branch) fun u folded => u.Knows folded ∧ u.Agree R branch folded ∧
      (folded.isAbsent = false → u.Unapplied m' folded) := by
  cases habsent : branch.isAbsent with
  | true =>
    obtain rfl := NodeId.eq_absent_of_isAbsent habsent
    exact .pure ht ⟨t.knows_absent, Store.agree_absent, nofun⟩
  | false =>
    exact (builds_kept_child hd he ht (hid habsent) hb).imp fun u folded _ _ hfolded =>
      ⟨hfolded.unapplied.knows, hfolded.agree, fun _ => hfolded.unapplied⟩

theorem builds_kept_conditional (hd : d.Preserves s R m m') (hs : s.Grounded) (he : s.Extends t)
    (ht : t.Grounded) (hid : s.Foldable R m id) (hlt : id.index < d.bound)
    {condition yes no : NodeId} (hn : s.node? id = some (.branch .ifThen [condition, yes, no]))
    (hc : s.Unapplied m condition) :
    Builds t (d.single id (.branch .ifThen [condition, yes, no])) fun u => u.FoldsTo R m' id := by
  have hbelow := below_of_branch hs hn hlt
  have hfoldable : ∀ child ∈ [condition, yes, no], child.isAbsent = false →
      s.Foldable R m child := fun child hm ha =>
    hid.child hn (by rwa [Node.children_branch]) ha
  simp only [List.forall_mem_cons] at hbelow hfoldable
  obtain ⟨hbc, hby, hbn, -⟩ := hbelow
  obtain ⟨hfc, hfy, hfn, -⟩ := hfoldable
  show Builds t (d.conditional id (.branch .ifThen [condition, yes, no])) _
  unfold conditional
  refine (builds_kept_child hd he ht (hfc hc.isAbsent) hbc).bind fun u folded hu hug hfolded =>
    .get ?_
  have hsu := he.trans hu
  cases htruth : u.literalTruth? (u.unwrap folded) with
  | some truth =>
    have hbranch : ((if truth then yes else no).isAbsent = false →
        s.Foldable R m (if truth then yes else no)) ∧ d.Below (if truth then yes else no) := by
      cases truth
      · exact ⟨hfn, hbn⟩
      · exact ⟨hfy, hby⟩
    refine (builds_kept_branch_of hd hsu hug hbranch.1 hbranch.2).imp
      fun v result hv _ hresult => ?_
    exact ⟨hresult.unapplied, Store.agree_decided hd.stable.silent hv
      ((hsu.trans hv).node?_of_some hn) (hfolded.agree.extend hv) htruth hresult.agree⟩
  | none =>
    dsimp only
    refine (builds_kept_last hd hsu hug hfy hby).bind fun v yes' hv hvg ⟨hky, hay, huy⟩ => ?_
    refine (builds_kept_last hd (hsu.trans hv) hvg hfn hbn).bind
      fun w no' hw hwg ⟨hkn, han, hun⟩ => ?_
    have hcondition := (hfolded.extend hv).extend hw
    have hk : ∀ child ∈ [folded, yes', no'], w.Knows child :=
      List.forall_mem_cons.2 ⟨hcondition.unapplied.knows, List.forall_mem_cons.2
        ⟨hw.knows hky, List.forall_mem_singleton.2 hkn⟩⟩
    refine (builds_branch hwg id .ifThen hk).imp fun x result hx _ hresult => ?_
    refine ⟨.choice hresult (hcondition.unapplied.extend hx)
      (fun ha => (huy ha).extend (hw.trans hx)) fun ha => (hun ha).extend hx, ?_⟩
    have hn := (((hsu.trans hv).trans hw).trans hx).node?_of_some hn
    exact .of_branches hn hresult (.cons (hcondition.agree.extend hx)
      (.cons (hay.extend (hw.trans hx)) (.cons (han.extend hx) .nil))) (by decide)

/-! ### Parentheses -/

/-- What stands in parentheses, once each of its terms has a term in its place. -/
theorem builds_kept_group (hd : d.Preserves s R m m') (he : s.Extends t) (ht : t.Grounded)
    {inner : NodeId} {terms : List NodeId} (hlt : id.index < d.bound)
    (hn : s.node? id = some (.branch .paren [inner])) (hterms : t.termsIn inner = terms)
    (hfoldable : ∀ term ∈ terms, s.Foldable R m term) (hb : ∀ term ∈ terms, d.Below term)
    (honly : ∀ u only, t.Extends u → List.Forall₂ (u.Agree R) terms [only] →
      u.Agree R inner only)
    (hrow : ∀ u row results, t.Extends u → u.node? row = some (.branch .exprs results) →
      List.Forall₂ (u.Agree R) terms results → u.Agree R inner row) :
    Builds t (d.term stand take id) (Keeps s R m' id) := by
  subst hterms
  have hnt := he.node?_of_some hn
  unfold term
  refine .get ?_
  rw [hnt]
  dsimp only
  rw [if_neg (Nat.not_le_of_lt hlt)]
  show Builds t (d.paren stand take id (.branch .paren [inner])) _
  unfold paren
  refine .get ((hd.below t (t.termsIn inner) he ht hfoldable hb).bind
    fun u results hu hug hresults => .get ?_)
  have hfolded := hresults.imp fun _ _ h => h.toFoldsTo
  have hkeep : Builds u (do
      let sequence ← rebuild inner .exprs results
      return (← rebuild id .paren [sequence], 0)) (Keeps s R m' id) := by
    have hi := Store.unapplied_of_foldsTo hfolded
    refine (builds_branch_unapplied hug inner .exprs hi).bind fun v row hv hvg hvrow => ?_
    have hurow : v.Unapplied m' row :=
      .terms hvrow rfl nofun hd.sequences fun child hm => (hi child hm).extend hv
    refine (builds_branch_unapplied hvg id .paren (List.forall_mem_singleton.2 hurow)).bind
      fun w folded hw hwg hwfolded => .pure hwg ⟨?_, rfl⟩
    have hagree := (Store.agree_of_foldsTo hfolded).imp fun _ _ h => (h.extend hv).extend hw
    have htw := hu.trans (hv.trans hw)
    refine Store.FoldsTo.kept ⟨.paren hwfolded fun _ => hurow.extend hw, ?_⟩ hn nofun
    exact .of_branches (htw.node?_of_some hnt) hwfolded
      (.cons (hrow w row results htw (hw.node?_of_some hvrow) hagree) .nil) (by decide)
  split
  · rename_i only
    have hunapplied := Store.unapplied_of_foldsTo hfolded only List.mem_cons_self
    split
    · rename_i hlambda
      exact absurd hlambda hunapplied.tag_ne_lambda
    iterate 4 · exact hkeep
    · refine .pure hug ⟨Store.FoldsTo.kept ⟨hunapplied, ?_⟩ hn nofun, rfl⟩
      exact Store.agree_paren (hu.node?_of_some hnt)
        (honly u only hu (Store.agree_of_foldsTo hfolded))
  · exact hkeep

theorem builds_kept_paren (hd : d.Preserves s R m m') (hs : s.Grounded) (he : s.Extends t)
    (ht : t.Grounded) (hid : s.Foldable R m id) (hlt : id.index < d.bound) {inner : NodeId}
    (hn : s.node? id = some (.branch .paren [inner]))
    (hi : inner.isAbsent = false → s.Unapplied m inner) :
    Builds t (d.term stand take id) (Keeps s R m' id) := by
  have hbelow := below_of_branch hs hn hlt inner List.mem_cons_self
  cases hin : s.node? inner with
  | none =>
    have habsent : inner.isAbsent = true := by
      by_contra hpresent
      obtain ⟨node, hnode⟩ := (hi (Bool.not_eq_true _ ▸ hpresent)).exists_node
      cases hin.symm.trans hnode
    obtain rfl := NodeId.eq_absent_of_isAbsent habsent
    have hterms : t.termsIn .absent = [] := rfl
    refine builds_kept_group hd he ht hlt hn hterms nofun nofun nofun
      fun u row results _ hrow hresults => ?_
    cases hresults
    exact Store.agree_empty hrow
  | some node =>
    have hint := he.node?_of_some hin
    have hi := hi (Store.isAbsent_of_node? hin)
    have hinner : s.Foldable R m inner := hid.child hn List.mem_cons_self hi.isAbsent
    by_cases htag : node.tag = .exprs
    · obtain ⟨ids, rfl⟩ := hi.exists_terms hin htag
      have hbefore : inner.index < d.bound := Nat.lt_of_succ_lt hbelow
      refine builds_kept_group hd he ht hlt hn (Store.termsIn_exprs hint)
        (hinner.children hin (hi.of_terms hin rfl)) (below_of_branch hs hin hbefore) ?_ ?_
      · intro u only hu honly
        obtain ⟨first, rest, hfirst, hrest, rfl⟩ := List.forall₂_cons_right_iff.1 honly
        cases hrest
        exact Store.agree_single (hu.node?_of_some hint) hfirst
      · exact fun u row results hu hrow hresults =>
          .of_branches (hu.node?_of_some hint) hrow hresults (by decide)
    · refine builds_kept_group hd he ht hlt hn (Store.termsIn_other hint htag)
        (List.forall_mem_singleton.2 hinner) (List.forall_mem_singleton.2 hbelow) ?_ ?_
      · exact fun u only _ honly => (List.forall₂_cons.1 honly).1
      · intro u row results hu hrow hresults
        obtain ⟨only, rest, honly, hrest, rfl⟩ := List.forall₂_cons_left_iff.1 hresults
        cases hrest
        exact (Store.agree_single hrow honly.symm).symm

/-! ### Terms of each kind -/

/-- A name, or the node that it stands for. -/
theorem builds_kept_name (hd : d.Preserves s R m m') (he : s.Extends t) (ht : t.Grounded)
    (hlt : id.index < d.bound) {name : String} (hn : s.node? id = some (.leaf .ident name))
    (hm : m.names name) : Builds t (d.term stand take id) (Keeps s R m' id) := by
  have hnt := he.node?_of_some hn
  obtain ⟨hmeans, hself⟩ | ⟨⟨_, kind, _⟩, number, bound, hfind, rfl, hbound⟩ :=
    hd.name he ht hm hnt
  · exact (gives_name hnt hlt hmeans).builds ht ⟨hself.kept hn nofun, rfl⟩
  · have htext : (Node.leaf .ident name).text?.getD "" = name := rfl
    have hpresent := hbound.unapplied.isAbsent
    unfold term
    refine .get ?_
    rw [hnt]
    dsimp only
    rw [if_neg (Nat.not_le_of_lt hlt)]
    show Builds t (d.ident stand take id (.leaf .ident name)) _
    unfold ident
    rw [htext]
    dsimp only
    rw [hfind]
    dsimp only
    rw [hpresent]
    refine .get ?_
    rw [if_neg hbound.unapplied.tag_ne_lambda]
    exact .pure ht ⟨hbound.kept hn nofun, rfl⟩

/-- One term. -/
theorem builds_kept_term (hd : d.Preserves s R m m') (hs : s.Grounded) (he : s.Extends t)
    (ht : t.Grounded) (hid : s.Foldable R m id) (hlt : id.index < d.bound) :
    Builds t (d.term stand take id) (Keeps s R m' id) := by
  -- a node that is none of the names, the lambdas and the parentheses
  have alone : ∀ {node : Node}, s.node? id = some node →
      (node.tag ≠ .ident ∧ node.tag ≠ .lambda ∧ node.tag ≠ .paren) → node.tag ≠ .exprs →
      Builds t (d.single id node) (fun u folded => u.FoldsTo R m' id folded) →
      Builds t (d.term stand take id) (Keeps s R m' id) := fun hn htag hexprs h =>
    builds_single (he.node?_of_some hn) hlt htag (h.imp fun _ _ _ _ hfolded =>
      hfolded.kept hn hexprs)
  cases hid.unapplied with
  | @scalar _ node hn hr hc =>
    have hnt := he.node?_of_some hn
    obtain ⟨tag, slots⟩ := node
    have hsingle : d.single id ⟨tag, slots⟩ = Pure.pure id := by
      unfold single
      cases tag <;> first | rfl | cases hr
    have hself : t.FoldsTo R m' id id := ⟨.scalar hnt hr hc, Store.agree_scalar hnt hr⟩
    refine alone hn ⟨?_, ?_, ?_⟩ ?_ (hsingle ▸ .pure ht hself) <;>
      · rintro rfl
        cases hr
  | name hn hm => exact builds_kept_name hd he ht hlt hn hm
  | @terms _ tag ids hn hr hp hk hi =>
    have htag : tag ≠ .ident ∧ tag ≠ .lambda ∧ tag ≠ .paren := by
      refine ⟨?_, ?_, ?_⟩ <;> rintro rfl <;> cases hr
    by_cases hrow : tag = .exprs ∨ tag = .list
    · exact builds_single (he.node?_of_some hn) hlt htag
        (builds_kept_row hd hs he ht hid hlt hn hrow hk hi)
    · obtain ⟨hexprs, hlist⟩ := not_or.1 hrow
      exact alone hn htag hexprs
        (builds_kept_operands hd hs he ht hid hlt hn ⟨hr, hexprs, hlist⟩ hp hk hi)
  | prog hn hr hi =>
    exact alone hn ⟨nofun, nofun, nofun⟩ nofun (builds_kept_prog hd hs he ht hid hlt hn hr hi)
  | paren hn hi => exact builds_kept_paren hd hs he ht hid hlt hn hi
  | binding hn hk hr hc hv =>
    exact alone hn ⟨nofun, nofun, nofun⟩ nofun
      (builds_kept_binding hd hs he ht hid hlt hn hk hr hc hv)
  | choice hn hc =>
    exact alone hn ⟨nofun, nofun, nofun⟩ nofun
      (builds_kept_conditional hd hs he ht hid hlt hn hc)

/-- Terms in a row. -/
theorem builds_kept_terms (hd : d.Preserves s R m m') (hs : s.Grounded) (he : s.Extends t)
    (ht : t.Grounded) (hids : ∀ id ∈ ids, s.Foldable R m id)
    (hlt : ∀ id ∈ ids, id.index < d.bound) (stand : Stand) :
    Builds t (d.terms ids stand ids.length 0) fun u result =>
      List.Forall₂ (s.KeptBy u R m') ids result.1 ∧ result.2 = ids.length := by
  induction ids generalizing t with
  | nil => exact .pure ht ⟨.nil, rfl⟩
  | cons id rest ih =>
    obtain ⟨hid, hrest⟩ := List.forall_mem_cons.1 hids
    obtain ⟨hbefore, hlater⟩ := List.forall_mem_cons.1 hlt
    refine (builds_kept_term hd hs he ht hid hbefore).bind fun u result hu hug hresult => ?_
    obtain ⟨folded, taken⟩ := result
    obtain ⟨hkept, rfl⟩ : s.KeptBy u R m' id folded ∧ taken = 0 := hresult
    refine (ih (he.trans hu) hug hrest hlater).bind fun v others hv hvg ⟨hothers, hmore⟩ => ?_
    refine .pure hvg ⟨.cons (hkept.extend hv) hothers, ?_⟩
    dsimp only
    rw [hmore, List.length_cons, Nat.add_zero, Nat.add_comm]

end Descent

/-! ## Nodes -/

section

variable {s t : Store} {env : Environment} {R : Comparison} {m m' : Manner} {id : NodeId}
  {ids : List NodeId}

theorem builds_kept_sequence (hs : s.Grounded) (hr : env.Reads s R m m')
    (inside : (name : String) → (parent : Option Nat) → List Word → NodeId → Fold NodeId)
    (bound : Nat) (he : s.Extends t) (ht : t.Grounded) (hids : ∀ id ∈ ids, s.Foldable R m id)
    (hlt : ∀ id ∈ ids, id.index < bound) :
    Builds t (foldSequence env inside bound ids)
      fun u => List.Forall₂ (s.KeptBy u R m') ids := by
  induction bound generalizing t ids with
  | zero =>
    cases ids with
    | nil => exact .pure ht .nil
    | cons => exact absurd (hlt _ List.mem_cons_self) (Nat.not_lt_zero _)
  | succ bound ih =>
    have hd : Descent.Preserves ⟨env, bound + 1, foldSequence env inside bound, inside⟩ s R m m' :=
      ⟨hr, fun t ids he ht hids hb => ih he ht hids fun id hm => Nat.lt_of_succ_lt_succ (hb id hm)⟩
    exact (Descent.builds_kept_terms hd hs he ht hids hlt .head).bind fun u result _ hu hall =>
      .pure hu hall.1

/-- A node by itself. -/
theorem builds_kept_within (hs : s.Grounded) (hr : env.Reads s R m m') (room : Nat)
    (hid : s.Foldable R m id) :
    Builds s (foldWithin room env id) fun t => t.FoldsTo R m' id := by
  have honly : ∀ inside, Builds s (do
      if id.isAbsent then return id
      return (← foldSequence env inside (id.index + 1) [id]).headD id)
      fun t => t.FoldsTo R m' id := by
    intro inside
    rw [hid.unapplied.isAbsent]
    refine (builds_kept_sequence hs hr inside _ (.refl s) hs (List.forall_mem_singleton.2 hid)
      (List.forall_mem_singleton.2 (Nat.lt_succ_self _))).bind fun t ids _ ht hkept => ?_
    obtain ⟨folded, rest, hfolded, hrest, rfl⟩ := List.forall₂_cons_left_iff.1 hkept
    exact .pure ht hfolded.toFoldsTo
  cases room with
  | zero => exact honly _
  | succ room => exact honly _

/-- Names without a meaning stand for themselves. -/
theorem Environment.reads_same (h : ∀ name, m.names name → ¬ env.Means name)
    (hk : m.kinds .exprs) : env.Reads s .same m m where
  stable := Comparison.stable_same
  sequences := hk
  kinds _ := id
  admits tag _ := Comparison.admits_same tag
  name _ _ hm hn := .inl ⟨h _ hm, .name hn hm, Store.agree_self (Store.knows_of_node? hn)⟩

/-- Nodes in which names have no meaning. -/
def Environment.unmeant (env : Environment) : Manner where
  names name := ¬ env.Means name
  kinds _ := True

/-- Where nothing is applied and no zero is negated, folding a node succeeds, and evaluation comes
to the same for the node that it gives. -/
theorem fold_keeps_meaning (hs : s.Grounded) (hid : s.Unapplied env.unmeant id)
    (hz : ¬ s.NegatesZero .same id) :
    ∃ folded t, Gives s (fold env id) folded t ∧ s.Extends t ∧ t.Grounded ∧
      ∀ e : Evaluator, e.Serves t → ∀ context : Context, context.Within e.Callable 0 →
        e.SameMeaning context id folded := by
  have hr : env.Reads s .same env.unmeant env.unmeant :=
    Environment.reads_same (fun _ hm => hm) trivial
  obtain ⟨folded, t, hfold, he, ht, hkept⟩ := builds_kept_within hs hr env.room ⟨hid, hz⟩
  exact ⟨folded, t, hfold, he, ht, fun e hserves context hc =>
    hserves.sameMeaning hkept.agree (he.knows hid.knows) hkept.unapplied.knows hc⟩

end

/-! ### The negation of one -/

theorem Store.fresh_numeral : Store.empty.index[Node.leaf .num "1"]? = none := by simp [empty]

theorem Store.fresh_negation :
    (Store.empty.push (.leaf .num "1") none fresh_numeral).index[Node.branch .neg [⟨1⟩]]? =
      none := by
  simp [empty, push, Node.branch, Node.leaf]

def Store.negatedOne : Store :=
  (Store.empty.push (.leaf .num "1") none fresh_numeral).push (.branch .neg [⟨1⟩]) none
    fresh_negation

theorem Store.not_negatesZero_negatedOne : ¬ negatedOne.NegatesZero .same ⟨2⟩ := by
  have hone : negatedOne.node? ⟨1⟩ = some (.leaf .num "1") := rfl
  have hneg : negatedOne.node? ⟨2⟩ = some (.branch .neg [⟨1⟩]) := rfl
  rintro ⟨negation, node, operand, -, hn, htag, hm, hzero⟩
  -- the one negation is the second node
  have hnode : node = .branch .neg [⟨1⟩] := by
    obtain ⟨index⟩ := negation
    match index with
    | 0 => cases hn
    | 1 =>
      obtain rfl := Option.some.inj (hone.symm.trans hn)
      cases htag
    | 2 => exact (Option.some.inj (hneg.symm.trans hn)).symm
    | index + 3 => cases hn
  subst hnode
  obtain rfl : operand = ⟨1⟩ := List.mem_singleton.1 hm
  exact not_alwaysZero_of_literalNumber? (n := .one) rfl rfl hzero

theorem fold_keeps_meaning_negatedOne :
    Store.negatedOne.Grounded ∧
      Store.negatedOne.Unapplied (Environment.ofLexicon .bare 8).unmeant ⟨2⟩ ∧
      ¬ Store.negatedOne.NegatesZero .same ⟨2⟩ ∧
      ∃ folded t, Gives .negatedOne (fold (.ofLexicon .bare 8) ⟨2⟩) folded t ∧
        Store.negatedOne.Extends t ∧ t.Grounded ∧
        ∀ e : Evaluator, e.Serves t → ∀ context : Context, context.Within e.Callable 0 →
          e.SameMeaning context ⟨2⟩ folded := by
  have hs : Store.negatedOne.Grounded := by
    refine (Store.grounded_empty.push fun child hm => absurd hm List.not_mem_nil).push ?_
    exact List.forall_mem_singleton.2 (Nat.le_refl 1)
  have hid : Store.negatedOne.Unapplied (Environment.ofLexicon .bare 8).unmeant ⟨2⟩ :=
    .terms rfl rfl nofun trivial (List.forall_mem_singleton.2 (.scalar rfl rfl rfl))
  have hz := Store.not_negatesZero_negatedOne
  exact ⟨hs, hid, hz, fold_keeps_meaning hs hid hz⟩

end Juxta
