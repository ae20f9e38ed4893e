import Juxta.Pattern
import Juxta.Proofs.Canonical

/-!
# Patterns as trees

A table of patterns compares ids. What it decides depends on the trees alone, whatever else has
been stored.

* `Tree.children` : the subtrees of a tree, and the places where one is absent;
* `Tree.Fits`, `Tree.ChildrenFit`, `Tree.RestFits` : trees of the form that a pattern describes,
  said without ids;
* `PatternTable.Leads` : what storing further trees makes of a table;
* `PatternTable.Sound` : a table in which equal trees have equal ids; `Sound.matchesOne_iff` and
  `Sound.matchesRest_iff` compare the two sides level by level;
* `PatternTable.fits_interned_iff` : a table says of a pattern and a value what their trees say.
-/

namespace Juxta

/-! ## Forms of trees -/

namespace Tree

/-- The tree of the wildcard. -/
def wildcard : Tree := .node .wildcard []

/-- The child at one position, `none` where it is absent; a scalar is no child. -/
def Part.child? : Part → Option (Option Tree)
  | .tree t => some (some t)
  | .absent => some none
  | .text _ | .flag _ => none

/-- The children of a tree in order, `none` for an absent one. -/
def children (tree : Tree) : List (Option Tree) := tree.parts.filterMap Part.child?

mutual

/-- A tree is of the form that a pattern describes: they are equal, the pattern is the wildcard, or
both are branches of one kind and the children are of the forms that those of the pattern
describe. -/
inductive Fits : Option Tree → Option Tree → Prop where
  | same (tree : Option Tree) : Fits tree tree
  | wildcard (tree : Option Tree) : Fits (some .wildcard) tree
  | branch {p t : Tree} : p.tag = t.tag → p.tag.isLeaf = false →
      ChildrenFit p.tag p.children t.children → Fits (some p) (some t)

/-- Children are of the forms that the children of a pattern of kind `tag` describe: one by one, or,
if there are more than two of them, as a head and a rest. -/
inductive ChildrenFit : Tag → List (Option Tree) → List (Option Tree) → Prop where
  | each {tag : Tag} {ps ts : List (Option Tree)} : List.Forall₂ Fits ps ts → ChildrenFit tag ps ts
  | rest {tag : Tag} {head rest first : Option Tree} {others : List (Option Tree)} :
      1 < others.length → Fits head first → RestFits tag rest others →
      ChildrenFit tag [head, rest] (first :: others)

/-- Children are of the form that a pattern for the rest describes: the wildcard, or a pattern of
kind `tag` whose own children describe them. -/
inductive RestFits : Tag → Option Tree → List (Option Tree) → Prop where
  | wildcard {tag : Tag} (ts : List (Option Tree)) : RestFits tag (some .wildcard) ts
  | more {tag : Tag} {p : Tree} {ts : List (Option Tree)} : p.tag = tag →
      ChildrenFit tag p.children ts → RestFits tag (some p) ts

end

/-- Children of equal number are compared one by one. -/
theorem childrenFit_iff_of_length_eq {tag : Tag} {ps ts : List (Option Tree)}
    (h : ps.length = ts.length) : ChildrenFit tag ps ts ↔ List.Forall₂ Fits ps ts := by
  constructor
  · intro hfit
    cases hfit with
    | each hall => exact hall
    | rest hmore =>
      simp only [List.length_cons, List.length_nil] at h
      omega
  · exact .each

/-- Otherwise the pattern has two children, a head and a rest, and there are more to compare. -/
theorem childrenFit_iff_of_length_ne {tag : Tag} {ps ts : List (Option Tree)}
    (h : ps.length ≠ ts.length) : ChildrenFit tag ps ts ↔ ∃ head rest first others,
      ps = [head, rest] ∧ ts = first :: others ∧ 1 < others.length ∧ Fits head first ∧
        RestFits tag rest others := by
  constructor
  · intro hfit
    cases hfit with
    | each hall => exact absurd hall.length_eq h
    | rest hmore hhead hrest => exact ⟨_, _, _, _, rfl, rfl, hmore, hhead, hrest⟩
  · rintro ⟨head, rest, first, others, rfl, rfl, hmore, hhead, hrest⟩
    exact .rest hmore hhead hrest

end Tree

/-- The children of a stored tree are the trees under the children of its node. -/
theorem Store.filterMap_child?_part (s : Store) (slots : List Slot) :
    (slots.map s.part).filterMap Tree.Part.child? = (slots.filterMap Slot.id?).map s.tree? := by
  induction slots with
  | nil => rfl
  | cons slot rest ih =>
    cases slot with
    | node child =>
      have hpart : (s.part (.node child)).child? = some (s.tree? child) := by
        unfold part
        dsimp only
        split <;> simp_all [Tree.Part.child?]
      rw [List.map_cons, List.filterMap_cons_some hpart, ih]
      rfl
    | text content => exact ih
    | flag value => exact ih

namespace PatternTable

variable {t u : PatternTable}

/-! ## Tables -/

/-- What storing trees one after the other makes of a table. A value is stored as its tree. -/
inductive Leads : PatternTable → PatternTable → Prop where
  | refl (t : PatternTable) : Leads t t
  | intern {t u : PatternTable} (h : Leads t u) (tree : Tree) : Leads t (u.intern tree).2

theorem Leads.internValue (h : t.Leads u) (value : Value) : t.Leads (u.internValue value).2 :=
  h.intern value.tree

theorem Leads.trans {v : PatternTable} (h : t.Leads u) (h' : u.Leads v) : t.Leads v := by
  induction h' with
  | refl => exact h
  | intern _ tree ih => exact ih.intern tree

/-- A table in which children come before their parents, and which knows its wildcard. -/
structure Sound (t : PatternTable) : Prop where
  grounded : t.store.Grounded
  wildcard : t.store.node? t.wildcard = some ⟨.wildcard, []⟩

theorem sound_empty : empty.Sound := by
  have hfresh : Store.empty.index[(⟨.wildcard, []⟩ : Node)]? = none := by simp [Store.empty]
  exact ⟨Store.grounded_empty.intern fun _ hm => absurd hm List.not_mem_nil,
    Store.empty.node?_intern ⟨.wildcard, []⟩ none⟩

theorem Sound.extends_intern (h : t.Sound) (tree : Tree) :
    t.store.Extends (t.intern tree).2.store :=
  (h.grounded.stored_internTree tree).extended

theorem Sound.intern (h : t.Sound) (tree : Tree) : (t.intern tree).2.Sound where
  grounded := (h.grounded.stored_internTree tree).grounded
  wildcard := by
    have hknown : t.store.node? t.wildcard ≠ none := by rw [h.wildcard]; nofun
    exact (h.extends_intern tree t.wildcard hknown).1.trans h.wildcard

theorem Leads.sound (h : t.Leads u) (ht : t.Sound) : u.Sound := by
  induction h with
  | refl => exact ht
  | intern _ tree ih => exact ih.intern tree

theorem Leads.extends (h : t.Leads u) (ht : t.Sound) : t.store.Extends u.store := by
  induction h with
  | refl => exact .refl _
  | intern h tree ih => exact ih.trans ((h.sound ht).extends_intern tree)

/-! ## One level of a comparison -/

/-- Whether a value is of the form of a pattern, where `depth` levels are enough for their
children. -/
def matchesOne (t : PatternTable) (depth : Nat) (p v : NodeId) : Bool :=
  p == v || p == t.wildcard ||
    match t.store.node? p, t.store.node? v with
    | some p, some v => p.tag == v.tag && !p.tag.isLeaf && t.childrenMatch depth p v.children
    | _, _ => false

/-- Whether values are of the form of a pattern for the rest of a node of kind `tag`. -/
def matchesRest (t : PatternTable) (depth : Nat) (tag : Tag) (p : NodeId) (vs : List NodeId) :
    Bool :=
  p == t.wildcard ||
    match t.store.node? p with
    | some p => p.tag == tag && t.childrenMatch depth p vs
    | none => false

theorem fits_eq (t : PatternTable) (p v : NodeId) : t.fits p v = t.matchesOne p.index p v := rfl

theorem childrenMatch_of_length_eq (t : PatternTable) (depth : Nat) {pattern : Node}
    {values : List NodeId} (h : pattern.children.length = values.length) :
    t.childrenMatch (depth + 1) pattern values =
      (pattern.children.zip values).all fun pair => t.matchesOne depth pair.1 pair.2 :=
  if_pos h

theorem childrenMatch_of_length_ne (t : PatternTable) (depth : Nat) (pattern : Node)
    (values : List NodeId) : pattern.children.length ≠ values.length →
    t.childrenMatch (depth + 1) pattern values =
      match pattern.children, values with
      | [head, rest], first :: others =>
        decide (1 < others.length) && t.matchesOne depth head first &&
          t.matchesRest depth pattern.tag rest others
      | _, _ => false :=
  fun h => if_neg h

/-! ## Ids and trees -/

section Levels

variable {depth : Nat} (h : t.Sound)

include h

theorem Sound.tree?_wildcard : t.store.tree? t.wildcard = some .wildcard := by
  rw [h.grounded.tree?_eq, h.wildcard]
  rfl

/-- A tree that is stored under an id is that of its node: it has the same tag, and its children are
the trees under the children. -/
theorem Sound.exists_node {id : NodeId} {tree : Tree} (ht : t.store.tree? id = some tree) :
    ∃ node, t.store.node? id = some node ∧ tree.tag = node.tag ∧
      tree.children = node.children.map t.store.tree? := by
  rw [h.grounded.tree?_eq, Option.map_eq_some_iff] at ht
  obtain ⟨node, hn, rfl⟩ := ht
  exact ⟨node, hn, rfl, t.store.filterMap_child?_part node.slots⟩

theorem Sound.exists_tree {id : NodeId} {node : Node} (hn : t.store.node? id = some node) :
    ∃ tree : Tree, t.store.tree? id = some tree ∧ tree.tag = node.tag ∧
      tree.children = node.children.map t.store.tree? := by
  refine ⟨_, by rw [h.grounded.tree?_eq, hn]; rfl, rfl, ?_⟩
  exact t.store.filterMap_child?_part node.slots

theorem Sound.eq_iff {a b : NodeId} (ha : t.store.Knows a) (hb : t.store.Knows b) :
    a = b ↔ t.store.tree? a = t.store.tree? b :=
  ⟨fun e => e ▸ rfl, h.grounded.tree?_inj ha hb⟩

theorem Sound.knows_wildcard : t.store.Knows t.wildcard := Store.knows_of_node? h.wildcard

theorem Sound.eq_wildcard_iff {a : NodeId} (ha : t.store.Knows a) :
    a = t.wildcard ↔ t.store.tree? a = some .wildcard := by
  rw [h.eq_iff ha h.knows_wildcard, h.tree?_wildcard]

/-- The comparison of children agrees with their trees, `depth` levels deep. -/
def Agrees (t : PatternTable) (depth : Nat) : Prop :=
  ∀ (pattern : Node) (values : List NodeId), 0 < depth →
    (∀ child ∈ pattern.children, child.index < depth ∧ t.store.Knows child) →
    (∀ value ∈ values, t.store.Knows value) →
    (t.childrenMatch depth pattern values = true ↔
      Tree.ChildrenFit pattern.tag (pattern.children.map t.store.tree?)
        (values.map t.store.tree?))

variable {p v : NodeId}

/-- The children of a stored node, as the comparison of its children needs them. -/
theorem Sound.below {node : Node} (hn : t.store.node? p = some node) (hd : p.index ≤ depth) :
    0 < depth ∧ ∀ child ∈ node.children, child.index < depth ∧ t.store.Knows child := by
  obtain ⟨hpos, -⟩ := (t.store.node?_ne_none_iff p).1 (by rw [hn]; nofun)
  refine ⟨by omega, fun child hm => ⟨?_, h.grounded.knows_of_mem hn hm⟩⟩
  have := h.grounded p node hn child hm
  omega

theorem Sound.matchesOne_iff (ih : t.Agrees depth) (hd : p.index ≤ depth)
    (hp : t.store.Knows p) (hv : t.store.Knows v) :
    t.matchesOne depth p v = true ↔ Tree.Fits (t.store.tree? p) (t.store.tree? v) := by
  unfold matchesOne
  rw [Bool.or_eq_true, Bool.or_eq_true, beq_iff_eq, beq_iff_eq, h.eq_iff hp hv,
    h.eq_wildcard_iff hp]
  constructor
  · rintro ((hsame | hwild) | hbranch)
    · rw [hsame]
      exact .same _
    · rw [hwild]
      exact .wildcard _
    · split at hbranch
      · rename_i pattern value hnp hnv
        simp only [Bool.and_eq_true, beq_iff_eq, Bool.not_eq_true'] at hbranch
        obtain ⟨⟨htag, hleaf⟩, hchildren⟩ := hbranch
        obtain ⟨ptree, hptree, hptag, hpchildren⟩ := h.exists_tree hnp
        obtain ⟨vtree, hvtree, hvtag, hvchildren⟩ := h.exists_tree hnv
        obtain ⟨hpos, hbelow⟩ := h.below hnp hd
        rw [hptree, hvtree]
        refine .branch (by rw [hptag, hvtag, htag]) (by rw [hptag, hleaf]) ?_
        rw [hptag, hpchildren, hvchildren]
        exact (ih pattern value.children hpos hbelow
          fun child hm => h.grounded.knows_of_mem hnv hm).1 hchildren
      · cases hbranch
  · intro hfits
    generalize hp' : t.store.tree? p = ptree at hfits
    generalize hv' : t.store.tree? v = vtree at hfits
    cases hfits with
    | same => exact Or.inl (Or.inl rfl)
    | wildcard => exact Or.inl (Or.inr rfl)
    | @branch ptree vtree htag hleaf hchildren =>
      obtain ⟨pattern, hnp, hptag, hpchildren⟩ := h.exists_node hp'
      obtain ⟨value, hnv, hvtag, hvchildren⟩ := h.exists_node hv'
      obtain ⟨hpos, hbelow⟩ := h.below hnp hd
      rw [hpchildren, hvchildren, hptag] at hchildren
      refine Or.inr ?_
      rw [hnp, hnv]
      simp only [Bool.and_eq_true, beq_iff_eq, Bool.not_eq_true']
      refine ⟨⟨by rw [← hptag, ← hvtag, htag], by rw [← hptag, hleaf]⟩, ?_⟩
      exact (ih pattern value.children hpos hbelow
        fun child hm => h.grounded.knows_of_mem hnv hm).2 hchildren

theorem Sound.matchesRest_iff (ih : t.Agrees depth) (hd : p.index ≤ depth)
    (hp : t.store.Knows p) {tag : Tag} {vs : List NodeId} (hv : ∀ v ∈ vs, t.store.Knows v) :
    t.matchesRest depth tag p vs = true ↔
      Tree.RestFits tag (t.store.tree? p) (vs.map t.store.tree?) := by
  unfold matchesRest
  rw [Bool.or_eq_true, beq_iff_eq, h.eq_wildcard_iff hp]
  constructor
  · rintro (hwild | hmore)
    · rw [hwild]
      exact .wildcard _
    · split at hmore
      · rename_i pattern hnp
        simp only [Bool.and_eq_true, beq_iff_eq] at hmore
        obtain ⟨ptree, hptree, hptag, hpchildren⟩ := h.exists_tree hnp
        obtain ⟨hpos, hbelow⟩ := h.below hnp hd
        rw [hptree]
        refine .more (hptag.trans hmore.1) ?_
        rw [hpchildren, ← hmore.1]
        exact (ih pattern vs hpos hbelow hv).1 hmore.2
      · cases hmore
  · intro hfits
    generalize hp' : t.store.tree? p = ptree at hfits
    cases hfits with
    | wildcard => exact Or.inl rfl
    | more htag hchildren =>
      obtain ⟨pattern, hnp, hptag, hpchildren⟩ := h.exists_node hp'
      obtain ⟨hpos, hbelow⟩ := h.below hnp hd
      have htag' : pattern.tag = tag := hptag ▸ htag
      rw [hpchildren, ← htag'] at hchildren
      refine Or.inr ?_
      rw [hnp]
      simp only [Bool.and_eq_true, beq_iff_eq]
      exact ⟨htag', (ih pattern vs hpos hbelow hv).2 hchildren⟩

/-- Children of equal number are compared one by one. -/
theorem Sound.all_zip_iff (ih : t.Agrees depth) {ps vs : List NodeId}
    (hlength : ps.length = vs.length) (hp : ∀ p ∈ ps, p.index ≤ depth ∧ t.store.Knows p)
    (hv : ∀ v ∈ vs, t.store.Knows v) :
    ((ps.zip vs).all fun pair => t.matchesOne depth pair.1 pair.2) = true ↔
      List.Forall₂ Tree.Fits (ps.map t.store.tree?) (vs.map t.store.tree?) := by
  rw [List.forall₂_map_left_iff, List.forall₂_map_right_iff, List.forall₂_iff_zip, List.all_eq_true]
  constructor
  · intro hall
    refine ⟨hlength, fun {p v} hm => ?_⟩
    obtain ⟨hmp, hmv⟩ := List.of_mem_zip hm
    exact (h.matchesOne_iff ih (hp p hmp).1 (hp p hmp).2 (hv v hmv)).1 (hall (p, v) hm)
  · rintro ⟨-, hall⟩ ⟨p, v⟩ hm
    obtain ⟨hmp, hmv⟩ := List.of_mem_zip hm
    exact (h.matchesOne_iff ih (hp p hmp).1 (hp p hmp).2 (hv v hmv)).2 (hall hm)

/-- Enough levels compare children as their trees compare. -/
theorem Sound.agrees (depth : Nat) : t.Agrees depth := by
  induction depth with
  | zero => exact fun _ _ hpos => absurd hpos (Nat.lt_irrefl 0)
  | succ depth ih =>
    intro pattern values _ hbelow hv
    have hp : ∀ p ∈ pattern.children, p.index ≤ depth ∧ t.store.Knows p :=
      fun p hm => ⟨Nat.le_of_lt_succ (hbelow p hm).1, (hbelow p hm).2⟩
    by_cases hlength : pattern.children.length = values.length
    · rw [t.childrenMatch_of_length_eq depth hlength, h.all_zip_iff ih hlength hp hv,
        Tree.childrenFit_iff_of_length_eq (by simpa using hlength)]
    · rw [t.childrenMatch_of_length_ne depth pattern values hlength,
        Tree.childrenFit_iff_of_length_ne (by simpa using hlength)]
      constructor
      · intro hmatch
        split at hmatch
        · rename_i head rest first others hps
          rw [hps] at hp ⊢
          simp only [Bool.and_eq_true, decide_eq_true_eq] at hmatch
          obtain ⟨⟨hmore, hhead⟩, hrest⟩ := hmatch
          obtain ⟨hph, hpr⟩ := List.forall_mem_cons.1 hp
          obtain ⟨hvf, hvo⟩ := List.forall_mem_cons.1 hv
          have hpr := hpr rest (List.mem_cons_self ..)
          refine ⟨_, _, _, _, rfl, rfl, by simpa using hmore, ?_, ?_⟩
          · exact (h.matchesOne_iff ih hph.1 hph.2 hvf).1 hhead
          · exact (h.matchesRest_iff ih hpr.1 hpr.2 hvo).1 hrest
        · cases hmatch
      · rintro ⟨_, _, _, _, hps, hvs, hmore, hhead, hrest⟩
        obtain ⟨head, tail, hps, rfl, htail⟩ := List.map_eq_cons_iff.1 hps
        obtain ⟨rest, _, rfl, rfl, hnil⟩ := List.map_eq_cons_iff.1 htail
        rw [List.map_eq_nil_iff] at hnil
        subst hnil
        obtain ⟨first, others, rfl, rfl, rfl⟩ := List.map_eq_cons_iff.1 hvs
        rw [hps] at hp ⊢
        obtain ⟨hph, hpr⟩ := List.forall_mem_cons.1 hp
        obtain ⟨hvf, hvo⟩ := List.forall_mem_cons.1 hv
        have hpr := hpr rest (List.mem_cons_self ..)
        simp only [Bool.and_eq_true, decide_eq_true_eq]
        refine ⟨⟨by simpa using hmore, ?_⟩, ?_⟩
        · exact (h.matchesOne_iff ih hph.1 hph.2 hvf).2 hhead
        · exact (h.matchesRest_iff ih hpr.1 hpr.2 hvo).2 hrest

/-- Whether ids fit is a matter of the trees under them. -/
theorem Sound.fits_iff (hp : t.store.Knows p) (hv : t.store.Knows v) :
    t.fits p v = true ↔ Tree.Fits (t.store.tree? p) (t.store.tree? v) := by
  rw [fits_eq, h.matchesOne_iff (h.agrees _) (Nat.le_refl _) hp hv]

end Levels

/-! ## Trees that are stored -/

/-- A tree is stored under an id. -/
structure Holds (t : PatternTable) (id : NodeId) (tree : Tree) : Prop where
  knows : t.store.Knows id
  tree : t.store.tree? id = some tree

theorem Sound.holds_intern (h : t.Sound) (tree : Tree) :
    (t.intern tree).2.Holds (t.intern tree).1 tree where
  knows := (h.grounded.stored_internTree tree).knows _ (List.mem_singleton_self _)
  tree := h.grounded.tree?_internTree tree

/-- What is stored stays under its id. -/
theorem Holds.leads {id : NodeId} {tree : Tree} (h : t.Holds id tree) (ht : t.Sound)
    (hu : t.Leads u) : u.Holds id tree where
  knows := (hu.extends ht).knows h.knows
  tree := by
    rw [ht.grounded.tree?_extends (hu.sound ht).grounded (hu.extends ht) h.knows, h.tree]

theorem Sound.fits_iff_of_holds (h : t.Sound) {p v : NodeId} {pattern tree : Tree}
    (hp : t.Holds p pattern) (hv : t.Holds v tree) :
    t.fits p v = true ↔ Tree.Fits (some pattern) (some tree) := by
  rw [h.fits_iff hp.knows hv.knows, hp.tree, hv.tree]

/-- Whatever a table has stored before, in between and since: the ids of a pattern and of a value
fit exactly if the tree of the value is of the form that the pattern describes. It does not matter
which of the two is stored first. -/
theorem fits_interned_iff {t : PatternTable} (ht : empty.Leads t) (pattern : Tree)
    (value : Value) :
    (∀ u w, (t.intern pattern).2.Leads u → (u.internValue value).2.Leads w →
      (w.fits (t.intern pattern).1 (u.internValue value).1 = true ↔
        Tree.Fits (some pattern) (some value.tree))) ∧
    (∀ u w, (t.internValue value).2.Leads u → (u.intern pattern).2.Leads w →
      (w.fits (u.intern pattern).1 (t.internValue value).1 = true ↔
        Tree.Fits (some pattern) (some value.tree))) := by
  have hsound : t.Sound := ht.sound sound_empty
  -- Of two trees that are stored one after the other, the first one is still there at the end.
  have stored : ∀ first second u w, (t.intern first).2.Leads u → (u.intern second).2.Leads w →
      w.Sound ∧ w.Holds (t.intern first).1 first ∧ w.Holds (u.intern second).1 second := by
    intro first second u w hu hw
    have hfirst := hsound.intern first
    have hu' := hu.sound hfirst
    have hsecond := hu'.intern second
    refine ⟨hw.sound hsecond, ?_, (hu'.holds_intern second).leads hsecond hw⟩
    exact (hsound.holds_intern first).leads hfirst ((hu.intern second).trans hw)
  constructor
  · intro u w hu hw
    obtain ⟨hsound', hpattern, hvalue⟩ := stored pattern value.tree u w hu hw
    exact hsound'.fits_iff_of_holds hpattern hvalue
  · intro u w hu hw
    obtain ⟨hsound', hvalue, hpattern⟩ := stored value.tree pattern u w hu hw
    exact hsound'.fits_iff_of_holds hpattern hvalue

/-- A list that begins with "a" and "b", whatever follows. -/
def startsWithTwo : Tree :=
  .branch .list [.leaf .str "a", .branch .list [.leaf .str "b", .wildcard]]

/-- The pattern for the first two of more items fits a list of four. -/
theorem fits_interned_startsWithTwo :
    let value := Value.list [.string "a", .string "b", .string "c", .string "d"]
    let stored := empty.intern startsWithTwo
    empty.Leads empty ∧ Tree.Fits (some startsWithTwo) (some value.tree) ∧
      (stored.2.internValue value).2.fits stored.1 (stored.2.internValue value).1 = true := by
  intro value stored
  have hfits : Tree.Fits (some startsWithTwo) (some value.tree) :=
    .branch rfl rfl (.rest (by decide) (.same _)
      (.more rfl (.rest (by decide) (.same _) (.wildcard _))))
  exact ⟨.refl _, hfits,
    ((fits_interned_iff (.refl _) startsWithTwo value).1 _ _ (.refl _) (.refl _)).2 hfits⟩

end PatternTable

end Juxta
