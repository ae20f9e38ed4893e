import Juxta.Proofs.Decisions

/-!
# Names as patterns

A name in a pattern stands for its value, and that value is compared as a pattern is. It covers
itself, but a list of two items whose second is a list is a head and a rest: it also covers the list
in which the items of the rest follow the head one by one. Where no list in the value is of that
form, a name stands for equality.

* `Value.isData` : values in which no function occurs;
* `Value.Covers`, `Value.ItemsCover`, `Value.FieldsCover` : what a value covers as a pattern, said
  without trees;
* `Value.hasRest` : values in which some list is a head and a rest;
* `Value.tree_eq_tree_iff` : values are equal exactly if they are compared as the same tree;
* `Value.fits_tree_iff` : a value covers another one exactly if its tree describes the tree of the
  other;
* `Value.covers_iff_eq` : without a head and a rest, to cover is to be equal;
* `Evaluator.selectFrom_bound_iff` : the clause of a case whose pattern is a name with a value.
-/

namespace Juxta

namespace Value

/-! ## What a value covers -/

mutual

/-- No function occurs in a value. -/
def isData : Value → Bool
  | .list items => itemsData items
  | .record fields => fieldsData fields
  | .function _ => false
  | _ => true

def itemsData : List Value → Bool
  | [] => true
  | item :: rest => item.isData && itemsData rest

def fieldsData : List (String × Value) → Bool
  | [] => true
  | (_, value) :: rest => value.isData && fieldsData rest

end

mutual

/-- Some list in a value has two items of which the second is a list. -/
def hasRest : Value → Bool
  | .list items => isHeadAndRest items || itemsHaveRest items
  | .record fields => fieldsHaveRest fields
  | _ => false

/-- Two items, the second of which is a list. -/
def isHeadAndRest : List Value → Bool
  | [_, .list _] => true
  | _ => false

def itemsHaveRest : List Value → Bool
  | [] => false
  | item :: rest => item.hasRest || itemsHaveRest rest

def fieldsHaveRest : List (String × Value) → Bool
  | [] => false
  | (_, value) :: rest => value.hasRest || fieldsHaveRest rest

end

mutual

/-- A value covers all that is equal to it, and lists and records whose parts it covers. -/
inductive Covers : Value → Value → Prop where
  | same {w x : Value} (h : x.eq w = true) : Covers w x
  | list {ws xs : List Value} (h : ItemsCover ws xs) : Covers (.list ws) (.list xs)
  | record {ws xs : List (String × Value)} (h : FieldsCover ws xs) :
      Covers (.record ws) (.record xs)

/-- Items are covered one by one, or, if there are more than two of them, as a head and a rest. -/
inductive ItemsCover : List Value → List Value → Prop where
  | each {ws xs : List Value} (h : List.Forall₂ Covers ws xs) : ItemsCover ws xs
  | rest {w first : Value} {ws others : List Value} (hmore : 1 < others.length)
      (hhead : Covers w first) (hrest : ItemsCover ws others) :
      ItemsCover [w, .list ws] (first :: others)

/-- Fields are covered one by one, under the same names. -/
inductive FieldsCover : List (String × Value) → List (String × Value) → Prop where
  | nil : FieldsCover [] []
  | cons {name : String} {w x : Value} {ws xs : List (String × Value)} (h : Covers w x)
      (hrest : FieldsCover ws xs) : FieldsCover ((name, w) :: ws) ((name, x) :: xs)

end

/-! ## Trees of values -/

/-- The tree of a field. -/
def fieldTree (field : String × Value) : Tree :=
  .branch .binding [.leaf .str field.1, field.2.tree]

theorem itemParts_eq (items : List Value) :
    itemParts items = items.map fun item => .tree item.tree := by
  induction items with
  | nil => rfl
  | cons item rest ih => exact congrArg (Tree.Part.tree item.tree :: ·) ih

theorem fieldParts_eq (fields : List (String × Value)) :
    fieldParts fields = fields.map fun field => .tree (fieldTree field) := by
  induction fields with
  | nil => rfl
  | cons field rest ih => exact congrArg (Tree.Part.tree (fieldTree field) :: ·) ih

theorem tree_list (items : List Value) : (list items).tree = .branch .list (items.map tree) := by
  show Tree.node .list (itemParts items) = _
  rw [itemParts_eq, Tree.branch, List.map_map]
  rfl

theorem tree_record (fields : List (String × Value)) :
    (record fields).tree = .branch .record (fields.map fieldTree) := by
  show Tree.node .record (fieldParts fields) = _
  rw [fieldParts_eq, Tree.branch, List.map_map]
  rfl

end Value

theorem Tree.children_branch (tag : Tag) (children : List Tree) :
    (branch tag children).children = children.map some := by
  show (children.map Part.tree).filterMap Part.child? = _
  rw [List.filterMap_map, ← List.filterMap_eq_map]
  rfl

theorem Tree.branch_inj {tag : Tag} {ss ts : List Tree} :
    branch tag ss = branch tag ts ↔ ss = ts := by
  rw [branch, branch, Tree.node.injEq, eq_self, true_and]
  exact List.map_inj_right fun _ _ h => Tree.Part.tree.inj h

theorem Tree.leaf_inj {tag : Tag} {a b : String} : leaf tag a = leaf tag b ↔ a = b := by
  simp [leaf]

namespace Value

theorem fieldTree_inj {a b : String × Value} :
    fieldTree a = fieldTree b ↔ a.1 = b.1 ∧ a.2.tree = b.2.tree := by
  rw [fieldTree, fieldTree, Tree.branch_inj, List.cons.injEq, List.cons.injEq, Tree.leaf_inj,
    and_iff_left rfl]

mutual

/-- Values are compared as the same tree exactly if they are equal, unless the second one has
functions. -/
theorem tree_eq_tree_iff : ∀ {w : Value}, w.isData = true → ∀ x : Value,
    x.tree = w.tree ↔ x.eq w = true
  | .null, _, x => by
    rcases x with _ | _ | _ | _ | _ | _ | _ | ⟨_, _, _, _, _⟩ <;> simp [tree, eq, Tree.leaf]
  | .bool flag, _, x => by
    rcases x with _ | _ | _ | _ | _ | _ | _ | ⟨_, _, _, _, _⟩ <;> simp [tree, eq, Tree.leaf]
  | .number n, _, x => by
    rcases x with _ | _ | _ | _ | _ | _ | _ | ⟨_, _, _, _, _⟩ <;>
      simp [tree, eq, Tree.leaf, Number.format_eq_format_iff, (Number.format_ne_nan n).symm]
  | .nan, _, x => by
    rcases x with _ | _ | _ | _ | _ | _ | _ | ⟨_, _, _, _, _⟩ <;>
      simp [tree, eq, Tree.leaf, Number.format_ne_nan]
  | .string content, _, x => by
    rcases x with _ | _ | _ | _ | _ | _ | _ | ⟨_, _, _, _, _⟩ <;> simp [tree, eq, Tree.leaf]
  | .list ws, h, x => by
    cases x with
    | list xs =>
      rw [tree_list, tree_list, Tree.branch_inj]
      exact items_eq_iff h xs
    | function closure =>
      obtain ⟨_, _, _, _, _⟩ := closure
      simp [tree, eq]
    | _ => simp [tree, eq, Tree.leaf]
  | .record ws, h, x => by
    cases x with
    | record xs =>
      rw [tree_record, tree_record, Tree.branch_inj]
      exact fields_eq_iff h xs
    | function closure =>
      obtain ⟨_, _, _, _, _⟩ := closure
      simp [tree, eq]
    | _ => simp [tree, eq, Tree.leaf]
  | .function closure, h, x => nomatch h

theorem items_eq_iff : ∀ {ws : List Value}, itemsData ws = true → ∀ xs : List Value,
    xs.map tree = ws.map tree ↔ eqItems xs ws = true
  | [], _, xs => by cases xs <;> simp [eqItems]
  | w :: ws, h, xs => by
    obtain ⟨hw, hws⟩ := Bool.and_eq_true_iff.1 h
    cases xs with
    | nil => simp [eqItems]
    | cons x xs =>
      rw [List.map_cons, List.map_cons, List.cons.injEq, tree_eq_tree_iff hw, items_eq_iff hws,
        eqItems, Bool.and_eq_true]

theorem fields_eq_iff : ∀ {ws : List (String × Value)}, fieldsData ws = true →
    ∀ xs : List (String × Value), xs.map fieldTree = ws.map fieldTree ↔ eqFields xs ws = true
  | [], _, xs => by cases xs <;> simp [eqFields]
  | (name, w) :: ws, h, xs => by
    obtain ⟨hw, hws⟩ := Bool.and_eq_true_iff.1 h
    cases xs with
    | nil => simp [eqFields]
    | cons x xs =>
      rw [List.map_cons, List.map_cons, List.cons.injEq, fieldTree_inj, tree_eq_tree_iff hw,
        fields_eq_iff hws, eqFields, Bool.and_eq_true, Bool.and_eq_true, beq_iff_eq]

end

end Value

/-! ## Trees that are described -/

namespace Tree

/-- A pattern that holds scalars describes itself only. -/
theorem fits_scalar_iff {p t : Tree} (h : p.tag.isLeaf = true) :
    Fits (some p) (some t) ↔ t = p := by
  constructor
  · intro hfits
    cases hfits with
    | same => rfl
    | wildcard => cases h
    | branch htag hleaf => rw [h] at hleaf; cases hleaf
  · rintro rfl
    exact .same _

/-- A pattern with children describes branches of its kind whose children it describes. -/
theorem fits_branch_iff {tag : Tag} {ps : List Tree} {t : Tree} (hleaf : tag.isLeaf = false)
    (hwild : tag ≠ .wildcard) : Fits (some (branch tag ps)) (some t) ↔
      t.tag = tag ∧ ChildrenFit tag (ps.map some) t.children := by
  constructor
  · intro hfits
    generalize hp : some (branch tag ps) = p at hfits
    cases hfits with
    | same =>
      cases hp
      rw [children_branch]
      exact ⟨rfl, .each (List.forall₂_same.2 fun _ _ => .same _)⟩
    | wildcard => exact absurd (congrArg Tree.tag (Option.some.inj hp)) hwild
    | branch htag _ hchildren =>
      cases hp
      rw [children_branch] at hchildren
      exact ⟨htag.symm, hchildren⟩
  · rintro ⟨htag, hchildren⟩
    refine .branch htag.symm hleaf ?_
    rw [children_branch]
    exact hchildren

end Tree

namespace Value

theorem tree_ne_wildcard (w : Value) : w.tree ≠ .wildcard := by
  cases w <;> simp [tree, Tree.leaf, Tree.wildcard]

theorem tag_tree_list_iff {x : Value} : x.tree.tag = .list ↔ ∃ items, x = .list items := by
  cases x <;> simp [tree, Tree.leaf, Tree.tag]

theorem tag_tree_record_iff {x : Value} : x.tree.tag = .record ↔ ∃ fields, x = .record fields := by
  cases x <;> simp [tree, Tree.leaf, Tree.tag]

/-- The trees of fields are compared by their names and the trees of their values. -/
theorem fits_fieldTree_iff (a b : String × Value) :
    Tree.Fits (some (fieldTree a)) (some (fieldTree b)) ↔
      a.1 = b.1 ∧ Tree.Fits (some a.2.tree) (some b.2.tree) := by
  have hlength : ([Tree.leaf .str a.1, a.2.tree].map some).length =
      ([Tree.leaf .str b.1, b.2.tree].map some).length := rfl
  have hwild : Tag.binding ≠ .wildcard := by decide
  have htag : (fieldTree b).tag = .binding := rfl
  rw [fieldTree, Tree.fits_branch_iff rfl hwild, and_iff_right htag, fieldTree,
    Tree.children_branch, Tree.childrenFit_iff_of_length_eq hlength, List.map_cons, List.map_cons,
    List.map_cons, List.map_cons, List.map_nil, List.forall₂_cons, List.forall₂_cons,
    and_iff_left List.Forall₂.nil, Tree.fits_scalar_iff rfl, Tree.leaf_inj, eq_comm]

/-- Fields are compared one by one, as none of them describes the rest of a record. -/
theorem childrenFit_fields_iff (ws xs : List (String × Value)) :
    Tree.ChildrenFit .record ((ws.map fieldTree).map some) ((xs.map fieldTree).map some) ↔
      List.Forall₂ (fun w x => Tree.Fits (some (fieldTree w)) (some (fieldTree x))) ws xs := by
  rw [List.map_map, List.map_map]
  constructor
  · intro h
    generalize hps : ws.map (some ∘ fieldTree) = ps at h
    generalize hts : xs.map (some ∘ fieldTree) = ts at h
    cases h with
    | each hall =>
      subst hps hts
      rwa [List.forall₂_map_left_iff, List.forall₂_map_right_iff] at hall
    | rest _ _ hrest =>
      obtain ⟨_, _, rfl, rfl, htail⟩ := List.map_eq_cons_iff.1 hps
      obtain ⟨field, _, rfl, rfl, -⟩ := List.map_eq_cons_iff.1 htail
      cases hrest with
      | more htag => cases htag
  · intro h
    refine .each ?_
    rwa [List.forall₂_map_left_iff, List.forall₂_map_right_iff]

/-- Items are compared one by one, or as a head and a rest if the second of two is a list. -/
theorem childrenFit_items_iff (ws xs : List Value) :
    Tree.ChildrenFit .list ((ws.map tree).map some) ((xs.map tree).map some) ↔
      List.Forall₂ (fun w x => Tree.Fits (some w.tree) (some x.tree)) ws xs ∨
        ∃ w items first others, ws = [w, .list items] ∧ xs = first :: others ∧
          1 < others.length ∧ Tree.Fits (some w.tree) (some first.tree) ∧
          Tree.ChildrenFit .list ((items.map tree).map some) ((others.map tree).map some) := by
  rw [List.map_map, List.map_map]
  constructor
  · intro h
    generalize hps : ws.map (some ∘ tree) = ps at h
    generalize hts : xs.map (some ∘ tree) = ts at h
    cases h with
    | each hall =>
      subst hps hts
      left
      rwa [List.forall₂_map_left_iff, List.forall₂_map_right_iff] at hall
    | rest hmore hhead hrest =>
      obtain ⟨w, _, rfl, rfl, htail⟩ := List.map_eq_cons_iff.1 hps
      obtain ⟨last, _, rfl, rfl, hnil⟩ := List.map_eq_cons_iff.1 htail
      obtain ⟨first, others, rfl, rfl, rfl⟩ := List.map_eq_cons_iff.1 hts
      cases List.map_eq_nil_iff.1 hnil
      rw [List.length_map] at hmore
      generalize hlast : (some ∘ tree) last = r at hrest
      cases hrest with
      | wildcard => exact absurd (Option.some.inj hlast) (tree_ne_wildcard last)
      | more htag hchildren =>
        cases hlast
        obtain ⟨items, rfl⟩ := tag_tree_list_iff.1 htag
        rw [tree_list, Tree.children_branch] at hchildren
        rw [← List.map_map] at hchildren
        exact .inr ⟨w, items, first, others, rfl, rfl, hmore, hhead, hchildren⟩
  · rintro (hall | ⟨w, items, first, others, rfl, rfl, hmore, hhead, hrest⟩)
    · refine .each ?_
      rwa [List.forall₂_map_left_iff, List.forall₂_map_right_iff]
    · rw [List.map_map, List.map_map] at hrest
      refine .rest (by rwa [List.length_map]) hhead (.more (congrArg Tree.tag (tree_list items)) ?_)
      rw [tree_list, Tree.children_branch, List.map_map]
      exact hrest

/-! ## What a value covers, by trees -/

theorem itemsCover_iff (ws xs : List Value) : ItemsCover ws xs ↔ List.Forall₂ Covers ws xs ∨
    ∃ w items first others, ws = [w, .list items] ∧ xs = first :: others ∧ 1 < others.length ∧
      Covers w first ∧ ItemsCover items others := by
  constructor
  · intro h
    cases h with
    | each hall => exact .inl hall
    | rest hmore hhead hrest => exact .inr ⟨_, _, _, _, rfl, rfl, hmore, hhead, hrest⟩
  · rintro (hall | ⟨w, items, first, others, rfl, rfl, hmore, hhead, hrest⟩)
    · exact .each hall
    · exact .rest hmore hhead hrest

/-- Scalars cover what is equal to them. -/
theorem covers_scalar_iff {w : Value} (hw : w.tree.tag.isLeaf = true) (hd : w.isData = true)
    (x : Value) : Tree.Fits (some w.tree) (some x.tree) ↔ w.Covers x := by
  rw [Tree.fits_scalar_iff hw, tree_eq_tree_iff hd]
  refine ⟨.same, fun h => ?_⟩
  cases h with
  | same h => exact h
  | list => cases hw
  | record => cases hw

mutual

/-- A value covers another one exactly if its tree describes that of the other. -/
theorem fits_tree_iff : ∀ {w : Value}, w.isData = true → ∀ x : Value,
    Tree.Fits (some w.tree) (some x.tree) ↔ w.Covers x
  | .null, h, x => covers_scalar_iff rfl h x
  | .bool _, h, x => covers_scalar_iff rfl h x
  | .number _, h, x => covers_scalar_iff rfl h x
  | .nan, h, x => covers_scalar_iff rfl h x
  | .string _, h, x => covers_scalar_iff rfl h x
  | .list ws, h, x => by
    constructor
    · intro hfits
      rw [tree_list, Tree.fits_branch_iff rfl (by decide)] at hfits
      obtain ⟨xs, rfl⟩ := tag_tree_list_iff.1 hfits.1
      rw [tree_list, Tree.children_branch] at hfits
      exact .list ((items_iff h xs).1 hfits.2)
    · intro hcovers
      cases hcovers with
      | same heq => exact (tree_eq_tree_iff h x).2 heq ▸ .same _
      | list hitems =>
        rw [tree_list, tree_list, Tree.fits_branch_iff rfl (by decide), Tree.children_branch]
        exact ⟨rfl, (items_iff h _).2 hitems⟩
  | .record ws, h, x => by
    constructor
    · intro hfits
      rw [tree_record, Tree.fits_branch_iff rfl (by decide)] at hfits
      obtain ⟨xs, rfl⟩ := tag_tree_record_iff.1 hfits.1
      rw [tree_record, Tree.children_branch, childrenFit_fields_iff] at hfits
      exact .record ((fields_iff h xs).1 hfits.2)
    · intro hcovers
      cases hcovers with
      | same heq => exact (tree_eq_tree_iff h x).2 heq ▸ .same _
      | record hfields =>
        rw [tree_record, tree_record, Tree.fits_branch_iff rfl (by decide), Tree.children_branch,
          childrenFit_fields_iff]
        exact ⟨rfl, (fields_iff h _).2 hfields⟩
  | .function _, h, _ => nomatch h

theorem items_iff : ∀ {ws : List Value}, itemsData ws = true → ∀ xs : List Value,
    Tree.ChildrenFit .list ((ws.map tree).map some) ((xs.map tree).map some) ↔ ItemsCover ws xs
  | ws, h, xs => by
    rw [childrenFit_items_iff, itemsCover_iff, each_iff h xs]
    refine or_congr_right ?_
    constructor
    · rintro ⟨w, items, first, others, rfl, rfl, hmore, hhead, hrest⟩
      obtain ⟨hw, hws⟩ := Bool.and_eq_true_iff.1 h
      exact ⟨w, items, first, others, rfl, rfl, hmore, (fits_tree_iff hw _).1 hhead,
        (items_iff (Bool.and_eq_true_iff.1 hws).1 _).1 hrest⟩
    · rintro ⟨w, items, first, others, rfl, rfl, hmore, hhead, hrest⟩
      obtain ⟨hw, hws⟩ := Bool.and_eq_true_iff.1 h
      exact ⟨w, items, first, others, rfl, rfl, hmore, (fits_tree_iff hw _).2 hhead,
        (items_iff (Bool.and_eq_true_iff.1 hws).1 _).2 hrest⟩

theorem each_iff : ∀ {ws : List Value}, itemsData ws = true → ∀ xs : List Value,
    List.Forall₂ (fun w x => Tree.Fits (some w.tree) (some x.tree)) ws xs ↔
      List.Forall₂ Covers ws xs
  | [], _, xs => by cases xs <;> simp
  | w :: ws, h, xs => by
    obtain ⟨hw, hws⟩ := Bool.and_eq_true_iff.1 h
    cases xs with
    | nil => simp
    | cons x xs =>
      rw [List.forall₂_cons, List.forall₂_cons, fits_tree_iff hw, each_iff hws]

theorem fields_iff : ∀ {ws : List (String × Value)}, fieldsData ws = true →
    ∀ xs : List (String × Value),
    List.Forall₂ (fun w x => Tree.Fits (some (fieldTree w)) (some (fieldTree x))) ws xs ↔
      FieldsCover ws xs
  | [], _, xs => by
    cases xs with
    | nil => exact iff_of_true .nil .nil
    | cons => exact iff_of_false nofun nofun
  | (name, w) :: ws, h, xs => by
    obtain ⟨hw, hws⟩ := Bool.and_eq_true_iff.1 h
    cases xs with
    | nil => exact iff_of_false nofun nofun
    | cons x xs =>
      rw [List.forall₂_cons, fits_fieldTree_iff, fits_tree_iff hw, fields_iff hws]
      constructor
      · rintro ⟨⟨rfl, hx⟩, hxs⟩
        exact .cons hx hxs
      · intro hcovers
        cases hcovers with
        | cons hx hxs => exact ⟨⟨rfl, hx⟩, hxs⟩

end

/-! ## Where a name stands for equality -/

mutual

/-- Without a head and a rest, a value covers only what is equal to it. -/
theorem eq_of_covers : ∀ {w : Value}, w.isData = true → w.hasRest = false → ∀ {x : Value},
    w.Covers x → x.eq w = true
  | _, _, _, _, .same h => h
  | .list ws, hd, hr, .list xs, .list h => by
    obtain ⟨hnot, hitems⟩ := Bool.or_eq_false_iff.1 hr
    rw [itemsCover_iff] at h
    rcases h with h | ⟨w, items, first, others, rfl, -⟩
    · exact eqItems_of_covers hd hitems h
    · cases hnot
  | .record ws, hd, hr, .record xs, .record h => eqFields_of_covers hd hr h

theorem eqItems_of_covers : ∀ {ws : List Value}, itemsData ws = true →
    itemsHaveRest ws = false → ∀ {xs : List Value}, List.Forall₂ Covers ws xs →
    eqItems xs ws = true
  | [], _, _, _, .nil => rfl
  | w :: ws, hd, hr, x :: xs, .cons hx hxs => by
    obtain ⟨hw, hws⟩ := Bool.and_eq_true_iff.1 hd
    obtain ⟨hrw, hrws⟩ := Bool.or_eq_false_iff.1 hr
    exact Bool.and_eq_true_iff.2 ⟨eq_of_covers hw hrw hx, eqItems_of_covers hws hrws hxs⟩

theorem eqFields_of_covers : ∀ {ws : List (String × Value)}, fieldsData ws = true →
    fieldsHaveRest ws = false → ∀ {xs : List (String × Value)}, FieldsCover ws xs →
    eqFields xs ws = true
  | [], _, _, _, .nil => rfl
  | (name, w) :: ws, hd, hr, _, .cons hx hxs => by
    obtain ⟨hw, hws⟩ := Bool.and_eq_true_iff.1 hd
    obtain ⟨hrw, hrws⟩ := Bool.or_eq_false_iff.1 hr
    rw [eqFields, beq_self_eq_true, Bool.true_and]
    exact Bool.and_eq_true_iff.2 ⟨eq_of_covers hw hrw hx, eqFields_of_covers hws hrws hxs⟩

end

theorem covers_iff_eq {w : Value} (hd : w.isData = true) (hr : w.hasRest = false) (x : Value) :
    w.Covers x ↔ x.eq w = true := ⟨eq_of_covers hd hr, .same⟩

end Value

/-! ## Clauses -/

/-- A name that is stored alone is the tree of a name. -/
theorem Store.tree?_ident {s : Store} {id : NodeId} {name : String}
    (h : s.node? id = some (.leaf .ident name)) : s.tree? id = some (.leaf .ident name) := by
  obtain ⟨parts, htree, hreads⟩ := Store.tree?_reads h
  rw [htree]
  cases hreads with
  | cons hread hrest =>
    cases hread
    cases hrest
    rfl

namespace Evaluator

variable {e : Evaluator} {table u : PatternTable}

/-- The first clause of a case. -/
theorem selectFrom_cons {id : NodeId} {clause : Node} {tree : Tree}
    (hc : e.store.node? id = some clause) (htree : e.store.tree? (clause.child 0) = some tree)
    (scope : Scope) (target : NodeId) (rest : List NodeId) :
    e.selectFrom scope target (id :: rest) u =
      if (u.intern (tree.asPattern scope)).2.fits (u.intern (tree.asPattern scope)).1 target
      then some (clause.child 1)
      else e.selectFrom scope target rest (u.intern (tree.asPattern scope)).2 := by
  rw [selectFrom, hc]
  simp only [htree]

/-- A clause whose pattern is a name with a value, in a case of any value and after any other
clauses: it is selected if the value of the name covers the other one, and passed over if not. If no
list in the value of the name is a head and a rest, that is whether the two are equal. -/
theorem selectFrom_bound_iff (ht : PatternTable.empty.Leads table) {x w : Value}
    (hu : (table.internValue x).2.Leads u) {id : NodeId} {clause : Node}
    (hc : e.store.node? id = some clause) {name : String}
    (hp : e.store.node? (clause.child 0) = some (.leaf .ident name)) {scope : Scope}
    (hname : scope.get? name = some w) (hw : w.isData = true) (rest : List NodeId) :
    (w.Covers x →
        e.selectFrom scope (table.internValue x).1 (id :: rest) u = some (clause.child 1)) ∧
      (¬ w.Covers x → e.selectFrom scope (table.internValue x).1 (id :: rest) u =
        e.selectFrom scope (table.internValue x).1 rest (u.intern w.tree).2) ∧
      (w.hasRest = false → (w.Covers x ↔ x.eq w = true)) := by
  have hpattern : (Tree.leaf .ident name).asPattern scope = w.tree := by
    show Tree.ofName scope [.text name] = _
    unfold Tree.ofName
    dsimp only [Tree.text?, Option.getD]
    rw [hname]
  have hfits := (PatternTable.fits_interned_iff ht w.tree x).2 u _ hu (.refl _)
  rw [Value.fits_tree_iff hw] at hfits
  rw [selectFrom_cons hc (Store.tree?_ident hp), hpattern]
  exact ⟨fun h => if_pos (hfits.2 h), fun h => if_neg fun hfit => h (hfits.1 hfit),
    fun hr => Value.covers_iff_eq hw hr x⟩

end Evaluator

/-! ## A head and a rest -/

/-- A name, and a clause whose pattern it is. -/
def Store.named : Store :=
  (empty.push (.leaf .ident "y") none (by simp [empty])).push (.branch .clause [⟨1⟩, ⟨1⟩]) none
    (by simp [empty, push, Node.branch, Node.leaf])

/-- "a", and a list of "b" and "c". -/
def Value.headAndRest : Value := .list [.string "a", .list [.string "b", .string "c"]]

/-- A list of "a", "b" and "c". -/
def Value.threeItems : Value := .list [.string "a", .string "b", .string "c"]

/-- A scope in which y is a head and a rest. -/
def Scope.named : Scope := ⟨"lambda", [("y", .headAndRest)], some .global, 1⟩

/-- The clause of the name is selected for the list of three. -/
theorem Evaluator.selectFrom_named :
    let e : Evaluator := ⟨.named, .null, 0, .empty⟩
    let stored := PatternTable.empty.internValue .threeItems
    PatternTable.empty.Leads PatternTable.empty ∧ stored.2.Leads stored.2 ∧
      e.store.node? ⟨2⟩ = some (.branch .clause [⟨1⟩, ⟨1⟩]) ∧
      e.store.node? ⟨1⟩ = some (.leaf .ident "y") ∧
      Scope.named.get? "y" = some .headAndRest ∧ Value.headAndRest.isData = true ∧
      Value.headAndRest.Covers .threeItems ∧
      e.selectFrom .named stored.1 [⟨2⟩] stored.2 = some ⟨1⟩ := by
  intro e stored
  have hcovers : Value.headAndRest.Covers .threeItems :=
    .list (.rest (by decide) (.same rfl) (.each (.cons (.same rfl) (.cons (.same rfl) .nil))))
  have hclause : e.store.node? ⟨2⟩ = some (.branch .clause [⟨1⟩, ⟨1⟩]) := rfl
  have hname : e.store.node? ((Node.branch .clause [⟨1⟩, ⟨1⟩]).child 0) =
      some (.leaf .ident "y") := rfl
  have hvalue : Scope.named.get? "y" = some .headAndRest := rfl
  obtain ⟨hselect, -⟩ := selectFrom_bound_iff (.refl _) (.refl stored.2) hclause hname hvalue rfl []
  exact ⟨.refl _, .refl _, rfl, rfl, rfl, rfl, hcovers, hselect hcovers⟩

/-- A name is selected for a list that is not equal to its value. -/
theorem Evaluator.select?_bound_ne_eq :
    Value.headAndRest.isData = true ∧ Value.threeItems.isData = true ∧
      Scope.named.get? "y" = some .headAndRest ∧
      Store.named.node? ⟨2⟩ = some (.branch .clause [⟨1⟩, ⟨1⟩]) ∧
      Store.named.node? ⟨1⟩ = some (.leaf .ident "y") ∧
      (Evaluator.mk .named .null 0 .empty).select? [⟨2⟩] .threeItems .named = some ⟨1⟩ ∧
      Value.threeItems.eq .headAndRest = false := by
  have hclause : (Evaluator.mk .named .null 0 .empty).store.node? ⟨2⟩ =
      some (.branch .clause [⟨1⟩, ⟨1⟩]) := rfl
  have hname : Store.named.node? ⟨1⟩ = some (.leaf .ident "y") := rfl
  have hselect := selectFrom_single PatternTable.sound_empty hclause (Store.tree?_ident hname)
    .named .threeItems true
  have hcovers : Value.headAndRest.Covers .threeItems :=
    .list (.rest (by decide) (.same rfl) (.each (.cons (.same rfl) (.cons (.same rfl) .nil))))
  refine ⟨rfl, rfl, rfl, rfl, rfl, hselect.2 (iff_of_true ?_ rfl), rfl⟩
  exact (Value.fits_tree_iff rfl _).2 hcovers

end Juxta
