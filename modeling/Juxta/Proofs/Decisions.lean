import Juxta.Proofs.Literals
import Juxta.Proofs.Numerals
import Juxta.Proofs.Patterns

/-!
# Decisions of cases

A case of a literal is decided while a program is folded, where that is possible. Evaluation
selects by the value of the literal. The two agree but for numerals of no number: folding takes such
a numeral for a match of itself, while its value is that of failed arithmetic, and matches
no numeral of a program.

* `Node.Means` : the literals and their values (`Evaluator.reaches_of_means`);
* `Slot.Reads` : the parts of a tree and the slots they come from (`Store.tree?_reads`);
* `Node.Misjudged` : where a decision is not what evaluation comes to;
* `Node.Decided` : what is known when a case is decided (`Store.decided_of_decide?`);
* `Node.Decided.fits_iff` : a decision compared with the trees of the pattern and the value;
* `Evaluator.selectFrom_decided_iff` : a decision compared with evaluation;
* `Store.overlong` : a numeral of no number, decided otherwise than it is selected.
-/

namespace Juxta

/-! ## Literals and their values -/

/-- The literals of programs, with their values: numerals, strings, flags and null. A numeral of no
number has the value of failed arithmetic; the text of that value is no numeral. -/
inductive Node.Means : Node → Value → Prop where
  | number {numeral : String} {n : Decimal} (h : Number.parse? numeral = some n) :
      Means (.leaf .num numeral) (.number n)
  | nan {numeral : String} (h : Number.parse? numeral = none) (hn : numeral ≠ "NaN") :
      Means (.leaf .num numeral) .nan
  | string (content : String) : Means (.leaf .str content) (.string content)
  | flag (value : Bool) : Means ⟨.bool, [.flag value]⟩ (.bool value)
  | null : Means ⟨.null, []⟩ .null

namespace Evaluator

variable {e : Evaluator} {id : NodeId} {node : Node} {value : Value}

theorem literal_of_parse? {numeral : String} {n : Decimal} (h : Number.parse? numeral = some n) :
    literal (.leaf .num numeral) = .value (.number n) := by
  unfold literal
  dsimp only [Node.leaf, Node.text?, Option.getD]
  rw [h]

theorem literal_of_none {numeral : String} (h : Number.parse? numeral = none) :
    literal (.leaf .num numeral) = .instead s!"'{numeral}' is not a number." .nan := by
  unfold literal
  dsimp only [Node.leaf, Node.text?, Option.getD]
  rw [h]

theorem enter_of_means (h : node.Means value) (context : Context) :
    ∃ found, e.enter id node context = .done found value := by
  cases h with
  | @number numeral n hn =>
    refine ⟨[], ?_⟩
    show e.settle id [] (literal (.leaf .num numeral)) = _
    rw [literal_of_parse? hn]
    rfl
  | @nan numeral hn _ =>
    refine ⟨[.at? s!"'{numeral}' is not a number." (e.store.coord? id) .evaluation], ?_⟩
    show e.settle id [] (literal (.leaf .num numeral)) = _
    rw [literal_of_none hn]
    rfl
  | string => exact ⟨[], rfl⟩
  | flag => exact ⟨[], rfl⟩
  | null => exact ⟨[], rfl⟩

/-- A literal comes to its value in every context. -/
theorem reaches_of_means (hnode : e.store.node? id = some node) (h : node.Means value)
    (context : Context) : ∃ found, e.walk.Reaches context id (found, value) := by
  obtain ⟨found, henter⟩ := e.enter_of_means h context
  refine ⟨found, ?_⟩
  rw [Walk.reaches_iff, Store.isAbsent_of_node? hnode]
  refine ⟨node, hnode, ?_⟩
  show e.walk.Yields (e.enter id node context) _
  rw [henter, Walk.yields_done_iff]

end Evaluator

/-- Failed arithmetic does not have the text of a number. -/
theorem Number.format_ne_nan (n : Decimal) : format n ≠ "NaN" := by
  intro h
  have hparse := parse?_format n
  rw [h] at hparse
  cases hparse

/-! ## Trees of patterns -/

/-- The kinds of patterns that are neither names nor groups. -/
def Tag.plain : List Tag := [.num, .str, .bool, .null, .list, .record, .wildcard]

/-- The part of a tree that a slot is read as. -/
inductive Slot.Reads : Slot → Tree.Part → Prop where
  | tree (id : NodeId) (tree : Tree) : Reads (.node id) (.tree tree)
  | absent (id : NodeId) : Reads (.node id) .absent
  | text (content : String) : Reads (.text content) (.text content)
  | flag (value : Bool) : Reads (.flag value) (.flag value)

/-- The tree of a node has its tag, and its slots are read as the parts. -/
theorem Store.tree?_reads {s : Store} {id : NodeId} {node : Node} (h : s.node? id = some node) :
    ∃ parts, s.tree? id = some (.node node.tag parts) ∧
      List.Forall₂ Slot.Reads node.slots parts := by
  obtain ⟨hpos, hknows⟩ := (s.node?_ne_none_iff id).1 (by rw [h]; nofun)
  obtain ⟨depth, hdepth⟩ : ∃ depth, s.size = depth + 1 :=
    Nat.exists_eq_succ_of_ne_zero (Nat.ne_of_gt (Nat.lt_of_lt_of_le hpos hknows))
  unfold tree?
  rw [hdepth, treeTo, h]
  refine ⟨_, rfl, ?_⟩
  rw [List.forall₂_map_right_iff, List.forall₂_same]
  intro slot _
  cases slot with
  | node child =>
    dsimp only
    split
    · exact .tree child _
    · exact .absent child
  | text content => exact .text content
  | flag value => exact .flag value

/-- A scalar in a slot as a part of a tree. -/
def Slot.part : Slot → Tree.Part
  | .text content => .text content
  | .flag value => .flag value
  | .node _ => .absent

namespace Tree

variable {scope : Scope} {slots : List Slot} {parts : List Part}

/-- Among patterns, only scalars are patterns of scalars. -/
theorem partPatterns_eq_iff (h : List.Forall₂ Slot.Reads slots parts) (row : List Slot)
    (hrow : ∀ slot ∈ row, slot.id? = none) :
    partPatterns scope parts = row.map Slot.part ↔ slots = row := by
  induction h generalizing row with
  | nil =>
    cases row with
    | nil => exact ⟨fun _ => rfl, fun _ => rfl⟩
    | cons => exact ⟨nofun, nofun⟩
  | cons hread _ ih =>
    cases row with
    | nil => exact ⟨nofun, nofun⟩
    | cons scalar row =>
      obtain ⟨hscalar, hrow⟩ := List.forall_mem_cons.1 hrow
      rw [List.map_cons, partPatterns, List.cons.injEq, List.cons.injEq, ih row hrow]
      refine and_congr_left fun _ => ?_
      cases scalar with
      | node => cases hscalar
      | text => cases hread <;> simp [partPattern, Slot.part]
      | flag => cases hread <;> simp [partPattern, Slot.part]

theorem parts_eq_leaf_iff {text : String} (h : List.Forall₂ Slot.Reads slots parts) :
    parts = [.text text] ↔ slots = [.text text] := by
  constructor
  · rintro rfl
    obtain ⟨slot, _, hread, hnil, rfl⟩ := List.forall₂_cons_right_iff.1 h
    cases hread
    rw [List.forall₂_nil_right_iff.1 hnil]
  · rintro rfl
    obtain ⟨part, _, hread, hnil, rfl⟩ := List.forall₂_cons_left_iff.1 h
    cases hread
    rw [List.forall₂_nil_left_iff.1 hnil]

theorem text?_of_reads {tag : Tag} (h : List.Forall₂ Slot.Reads slots parts) :
    text? (.node tag parts) = (⟨tag, slots⟩ : Node).text? := by
  cases h with
  | nil => rfl
  | cons hread _ => cases hread <;> rfl

/-- A tree that holds scalars fits patterns that are equal to it, and the wildcard. -/
theorem fits_leaf_iff {p t : Tree} (h : t.tag.isLeaf = true) :
    Fits (some p) (some t) ↔ p = t ∨ p = .wildcard := by
  constructor
  · intro hfits
    cases hfits with
    | same => exact .inl rfl
    | wildcard => exact .inr rfl
    | branch htag hleaf => rw [htag, h] at hleaf; cases hleaf
  · rintro (rfl | rfl)
    · exact .same _
    · exact .wildcard _

/-- A plain pattern, unless it is a numeral, keeps its tag, and its parts are patterns. -/
theorem asPattern_plain {tag : Tag} (h : tag ∈ Tag.plain) (hn : tag ≠ .num) (parts : List Part) :
    asPattern scope (.node tag parts) = .node tag (partPatterns scope parts) := by
  simp only [Tag.plain, List.mem_cons, List.not_mem_nil, or_false] at h
  rcases h with rfl | rfl | rfl | rfl | rfl | rfl | rfl
  · exact absurd rfl hn
  all_goals rfl

end Tree

/-! ## Decisions -/

/-- The value and the pattern of a case that is decided otherwise than it is selected: a numeral of
no number is decided to match itself, and not to match the text of failed arithmetic. A wildcard has
nothing below it in programs. -/
inductive Node.Misjudged : Node → Node → Prop where
  | itself {numeral : String} (h : Number.parse? numeral = none) :
      Misjudged (.leaf .num numeral) (.leaf .num numeral)
  | nan {numeral : String} (h : Number.parse? numeral = none) :
      Misjudged (.leaf .num numeral) (.leaf .num "NaN")
  | wildcard {value : Node} {slots : List Slot} (h : slots ≠ []) :
      Misjudged value ⟨.wildcard, slots⟩

/-- What is known of a literal and a pattern when a case is decided. -/
inductive Node.Decided : Node → Node → Bool → Prop where
  | same (node : Node) : Decided node node true
  | wildcard (value : Node) (slots : List Slot) : Decided value ⟨.wildcard, slots⟩ true
  | number {value : Node} {slots : List Slot} (ht : value.tag = .num) (hne : value ≠ ⟨.num, slots⟩) :
      Decided value ⟨.num, slots⟩ (Store.sameNumber ⟨.num, slots⟩ value)
  | other {value pattern : Node} (hne : value ≠ pattern)
      (ht : pattern.tag ∈ Tag.plain) (hw : pattern.tag ≠ .wildcard)
      (hn : pattern.tag = .num → value.tag ≠ .num) : Decided value pattern false

theorem Store.decided_of_decide? {s : Store} {value pattern : NodeId} {v p : Node} {holds : Bool}
    (hv : s.node? value = some v) (hp : s.node? pattern = some p)
    (h : s.decide? value pattern = some holds) : v.Decided p holds := by
  unfold decide? at h
  split at h
  · rename_i heq
    subst heq
    cases hv.symm.trans hp
    cases h
    exact .same v
  · rename_i hne
    have hne : v ≠ p := by
      rintro rfl
      exact hne (Option.some.inj (((s.node?_eq_some_iff _ _).1 hv).symm.trans
        ((s.node?_eq_some_iff _ _).1 hp)))
    obtain ⟨tag, slots⟩ := p
    rw [hv, hp] at h
    dsimp only at h
    split at h
    · rename_i htag
      cases h
      cases htag
      exact .wildcard v slots
    · split at h
      · rename_i hnum
        simp only [Bool.and_eq_true, decide_eq_true_eq] at hnum
        obtain ⟨rfl, ht⟩ := hnum
        cases h
        exact .number ht hne
      · rename_i hnum
        split at h
        · rename_i htag
          cases h
          refine .other hne ?_ (by assumption) ?_
          · cases tag <;> simp_all [Tag.isLiteral, Tag.plain]
          · simp_all
        · cases h

namespace Node

variable {v p : Node} {value : Value} {holds : Bool} {scope : Scope} {slots : List Slot}
  {parts : List Tree.Part}

/-- The pattern of a numeral: the text of its number, or the numeral as it is. -/
theorem asPattern_numeral (hr : List.Forall₂ Slot.Reads slots parts) :
    Tree.asPattern scope (.node .num parts) =
      match (⟨.num, slots⟩ : Node).text?.bind Number.parse? with
      | some n => .leaf .num (Number.format n)
      | none => .node .num parts := by
  rw [← Tree.text?_of_reads hr]
  rfl

theorem asPattern_eq_number_iff (hr : List.Forall₂ Slot.Reads slots parts) (n : Decimal) :
    Tree.asPattern scope (.node .num parts) = (Value.number n).tree ↔
      ∃ m, (⟨.num, slots⟩ : Node).text?.bind Number.parse? = some m ∧ m.eq n = true := by
  rw [asPattern_numeral hr]
  show _ = Tree.leaf .num (Number.format n) ↔ _
  cases hparse : (⟨.num, slots⟩ : Node).text?.bind Number.parse? with
  | some m =>
    simp [Tree.leaf, Number.format_eq_format_iff]
  | none =>
    constructor
    · intro heq
      have hparts := (Tree.parts_eq_leaf_iff hr).1 (Tree.node.inj heq).2
      rw [hparts] at hparse
      have hnone : Number.parse? (Number.format n) = none := hparse
      rw [Number.parse?_format] at hnone
      cases hnone
    · rintro ⟨m, hm, -⟩
      cases hm

theorem asPattern_eq_nan_iff (hr : List.Forall₂ Slot.Reads slots parts) :
    Tree.asPattern scope (.node .num parts) = Value.nan.tree ↔ slots = [.text "NaN"] := by
  rw [asPattern_numeral hr, ← Tree.parts_eq_leaf_iff hr]
  show _ = Tree.leaf .num "NaN" ↔ _
  cases hparse : (⟨.num, slots⟩ : Node).text?.bind Number.parse? with
  | some m =>
    constructor
    · intro heq
      simp only [Tree.leaf, Tree.node.injEq, List.cons.injEq, Tree.Part.text.injEq, and_true,
        true_and] at heq
      exact absurd heq (Number.format_ne_nan m)
    · intro hparts
      rw [(Tree.parts_eq_leaf_iff hr).1 hparts] at hparse
      cases hparse
  | none => simp [Tree.leaf]

theorem tag_asPattern {tag : Tag} (h : tag ∈ Tag.plain)
    (hr : List.Forall₂ Slot.Reads slots parts) :
    (Tree.asPattern scope (.node tag parts)).tag = tag := by
  by_cases hn : tag = .num
  · subst hn
    rw [asPattern_numeral hr]
    split <;> rfl
  · rw [Tree.asPattern_plain h hn]
    rfl

theorem Means.isPlain (h : v.Means value) : v.tag ∈ Tag.plain ∧ v.tag ≠ .wildcard := by
  cases h <;> exact ⟨by simp [Tag.plain, leaf], nofun⟩

theorem Means.tag_tree (h : v.Means value) : value.tree.tag = v.tag := by
  cases h <;> rfl

/-- A literal that is no numeral is the only one of its kind whose pattern is the tree of its
value. -/
theorem Means.asPattern_eq_iff (h : v.Means value) (hn : v.tag ≠ .num)
    (hr : List.Forall₂ Slot.Reads slots parts) :
    Tree.asPattern scope (.node v.tag parts) = value.tree ↔ slots = v.slots := by
  obtain ⟨htree, hscalar⟩ : value.tree = .node v.tag (v.slots.map Slot.part) ∧
      (∀ slot ∈ v.slots, slot.id? = none) := by
    cases h with
    | number => exact absurd rfl hn
    | nan => exact absurd rfl hn
    | string content => exact ⟨rfl, by simp [leaf, Slot.id?]⟩
    | flag flag => exact ⟨rfl, by simp [Slot.id?]⟩
    | null => exact ⟨rfl, List.forall_mem_nil _⟩
  rw [Tree.asPattern_plain h.isPlain.1 hn, htree, Tree.node.injEq,
    Tree.partPatterns_eq_iff hr v.slots hscalar]
  exact and_iff_right rfl

/-- Numerals of numbers are judged rightly. -/
theorem not_misjudged_of_parse? {numeral : String} {n : Decimal}
    (h : Number.parse? numeral = some n) : ¬ (leaf .num numeral).Misjudged ⟨.num, slots⟩ := by
  intro hmis
  cases hmis with
  | itself h' => cases h.symm.trans h'
  | nan h' => cases h.symm.trans h'

/-- The same literal. -/
theorem Means.asPattern_same_iff (h : v.Means value) (hr : List.Forall₂ Slot.Reads v.slots parts) :
    Tree.asPattern scope (.node v.tag parts) = value.tree ↔ ¬ v.Misjudged v := by
  cases h with
  | @number numeral n h =>
    exact iff_of_true ((asPattern_eq_number_iff hr n).2 ⟨n, h, by simp [Decimal.eq]⟩)
      (not_misjudged_of_parse? h)
  | @nan numeral h hne =>
    refine iff_of_false (fun heq => ?_) (not_not_intro (.itself h))
    have hslots := (asPattern_eq_nan_iff hr).1 heq
    cases hslots
    exact hne rfl
  | string content =>
    exact iff_of_true (((Means.string content).asPattern_eq_iff nofun hr).2 rfl) nofun
  | flag flag => exact iff_of_true (((Means.flag flag).asPattern_eq_iff nofun hr).2 rfl) nofun
  | null => exact iff_of_true ((Means.null.asPattern_eq_iff nofun hr).2 rfl) nofun

theorem sameNumber_leaf_of_parse? (pattern : Node) {numeral : String} {n : Decimal}
    (h : Number.parse? numeral = some n) :
    Store.sameNumber pattern (.leaf .num numeral) =
      (pattern.text?.bind Number.parse?).any (·.eq n) := by
  have hvalue : (leaf .num numeral).text?.bind Number.parse? = some n := h
  unfold Store.sameNumber
  rw [hvalue]
  cases pattern.text?.bind Number.parse? <;> rfl

theorem sameNumber_leaf_of_none (pattern : Node) {numeral : String}
    (h : Number.parse? numeral = none) :
    Store.sameNumber pattern (.leaf .num numeral) = false := by
  have hvalue : (leaf .num numeral).text?.bind Number.parse? = none := h
  unfold Store.sameNumber
  rw [hvalue]
  cases pattern.text?.bind Number.parse? <;> rfl

/-- Two numerals. -/
theorem Means.asPattern_numeral_iff (h : v.Means value) (ht : v.tag = .num) (hne : v ≠ ⟨.num, slots⟩)
    (hr : List.Forall₂ Slot.Reads slots parts) :
    (Tree.asPattern scope (.node .num parts) = value.tree ↔
      Store.sameNumber ⟨.num, slots⟩ v = true) ↔ ¬ v.Misjudged ⟨.num, slots⟩ := by
  cases h with
  | @number numeral n h =>
    refine iff_of_true ?_ (not_misjudged_of_parse? h)
    rw [asPattern_eq_number_iff hr]
    rw [sameNumber_leaf_of_parse? _ h]
    simp only [Option.any_eq_true]
  | @nan numeral h _ =>
    have hfalse := sameNumber_leaf_of_none ⟨.num, slots⟩ h
    have hmis : (leaf .num numeral).Misjudged ⟨.num, slots⟩ ↔ slots = [.text "NaN"] := by
      constructor
      · intro hmis
        cases hmis with
        | itself => exact absurd rfl hne
        | nan => rfl
      · rintro rfl
        exact .nan h
    rw [asPattern_eq_nan_iff hr, hfalse, hmis]
    simp
  | string => cases ht
  | flag => cases ht
  | null => cases ht

/-- Only a wildcard has the tree of the wildcard. -/
theorem asPattern_ne_wildcard {tag : Tag} (ht : tag ∈ Tag.plain) (hw : tag ≠ .wildcard)
    (hr : List.Forall₂ Slot.Reads slots parts) :
    Tree.asPattern scope (.node tag parts) ≠ .wildcard := by
  intro heq
  have htag : (Tree.asPattern scope (.node tag parts)).tag = tag := tag_asPattern ht hr
  rw [heq] at htag
  exact hw htag.symm

/-- Two nodes that are not both numerals have the same tree only if they are the same. -/
theorem Means.asPattern_ne_of_ne (hm : v.Means value) (hne : v ≠ p) (ht : p.tag ∈ Tag.plain)
    (hn : p.tag = .num → v.tag ≠ .num) (hr : List.Forall₂ Slot.Reads p.slots parts) :
    Tree.asPattern scope (.node p.tag parts) ≠ value.tree := by
  intro heq
  have htag := hm.tag_tree
  rw [← heq, tag_asPattern ht hr] at htag
  have hvnum : v.tag ≠ .num := fun hvnum => hn (htag.trans hvnum) hvnum
  rw [htag] at heq
  have hslots := (hm.asPattern_eq_iff hvnum hr).1 heq
  cases v
  cases p
  cases htag
  cases hslots
  exact hne rfl

/-- What a decision says of a literal and a pattern, compared with their trees: it is right exactly
if they are not misjudged. -/
theorem Decided.fits_iff (hm : v.Means value) (hd : v.Decided p holds)
    (hr : List.Forall₂ Slot.Reads p.slots parts) :
    ((Tree.asPattern scope (.node p.tag parts) = value.tree ∨
        Tree.asPattern scope (.node p.tag parts) = .wildcard) ↔ holds = true) ↔
      ¬ v.Misjudged p := by
  obtain ⟨hvplain, hvwild⟩ := hm.isPlain
  cases hd with
  | same =>
    rw [or_iff_left (asPattern_ne_wildcard hvplain hvwild hr), iff_true_right rfl]
    exact hm.asPattern_same_iff hr
  | wildcard slots =>
    have hvalue : Tree.asPattern scope (.node .wildcard parts) ≠ value.tree := by
      intro heq
      have htag := hm.tag_tree
      rw [← heq] at htag
      exact hvwild htag.symm
    have hmis : v.Misjudged ⟨.wildcard, slots⟩ ↔ slots ≠ [] := by
      refine ⟨fun hmis => ?_, .wildcard⟩
      cases hmis with
      | wildcard h => exact h
    rw [or_iff_right hvalue, iff_true_right rfl, hmis, Ne, not_not]
    show Tree.node .wildcard (Tree.partPatterns scope parts) = .node .wildcard [] ↔ _
    rw [Tree.node.injEq, eq_self, true_and]
    exact Tree.partPatterns_eq_iff hr [] nofun
  | @number slots ht hne =>
    have hpattern : Tree.asPattern scope (.node .num parts) ≠ .wildcard :=
      asPattern_ne_wildcard (by decide) nofun hr
    rw [or_iff_left hpattern]
    exact hm.asPattern_numeral_iff ht hne hr
  | other hne ht hw hn =>
    have hmis : ¬ v.Misjudged p := by
      intro hmis
      cases hmis with
      | itself => exact hne rfl
      | nan => exact hn rfl rfl
      | wildcard => exact hw rfl
    refine iff_of_true ?_ hmis
    exact iff_of_false
      (not_or.2 ⟨hm.asPattern_ne_of_ne hne ht hn hr, asPattern_ne_wildcard ht hw hr⟩) nofun

end Node

/-! ## Evaluation -/

namespace Evaluator

variable {e : Evaluator} {table : PatternTable}

/-- A case with one clause selects it if the tree of the value is of the form of the pattern. -/
theorem selectFrom_single (ht : table.Sound) {clause : NodeId} {node : Node} {tree : Tree}
    (hc : e.store.node? clause = some node) (htree : e.store.tree? (node.child 0) = some tree)
    (scope : Scope) (value : Value) (holds : Bool) :
    (e.selectFrom scope (table.internValue value).1 [clause] (table.internValue value).2 =
        if holds then some (node.child 1) else none) ↔
      (Tree.Fits (some (tree.asPattern scope)) (some value.tree) ↔ holds = true) := by
  have hvalues := ht.intern value.tree
  have hpatterns := hvalues.intern (tree.asPattern scope)
  have hpattern := hvalues.holds_intern (tree.asPattern scope)
  have htarget := (ht.holds_intern value.tree).leads hvalues (.intern (.refl _) (tree.asPattern scope))
  show (e.selectFrom scope (table.intern value.tree).1 [clause] (table.intern value.tree).2 = _) ↔ _
  rw [← hpatterns.fits_iff_of_holds hpattern htarget]
  unfold selectFrom
  rw [hc]
  dsimp only
  rw [htree]
  dsimp only
  split
  · rename_i hfits
    rw [iff_true_left hfits]
    cases holds <;> simp
  · rename_i hfits
    rw [iff_false_left hfits]
    cases holds <;> simp [selectFrom]

/-- A case of a literal that folding decides: whatever the scope and whatever has been compared
before, evaluation selects the clause if and only if that was the decision, but for a value and a
pattern that are misjudged. -/
theorem selectFrom_decided_iff {v : NodeId} {literal pattern clause : Node} {value : Value}
    {holds : Bool} (hv : e.store.node? v = some literal) (hm : literal.Means value)
    {id : NodeId} (hc : e.store.node? id = some clause)
    (hp : e.store.node? (clause.child 0) = some pattern)
    (hd : e.store.decide? v (clause.child 0) = some holds) (ht : PatternTable.empty.Leads table)
    (context : Context) :
    (∃ found, e.walk.Reaches context v (found, value)) ∧ ∀ scope,
      (e.selectFrom scope (table.internValue value).1 [id] (table.internValue value).2 =
          if holds then some (clause.child 1) else none) ↔ ¬ literal.Misjudged pattern := by
  obtain ⟨parts, htree, hreads⟩ := Store.tree?_reads hp
  refine ⟨reaches_of_means hv hm context, fun scope => ?_⟩
  have hleaf : value.tree.tag.isLeaf = true := by
    cases hm <;> rfl
  rw [selectFrom_single (ht.sound PatternTable.sound_empty) hc htree, Tree.fits_leaf_iff hleaf]
  exact (Store.decided_of_decide? hv hp hd).fits_iff hm hreads

end Evaluator

/-! ## Numerals -/

/-- The numerals 1 and 1.0, and a clause whose pattern is the second. -/
def Store.spellings : Store :=
  ((empty.push (.leaf .num "1") none (by simp [empty])).push (.leaf .num "1.0") none
    (by simp [empty, push, Node.leaf])).push (.branch .clause [⟨2⟩, ⟨1⟩]) none
    (by simp [empty, push, Node.branch, Node.leaf])

/-- The numeral 1.0 is decided to match 1, and is selected. -/
theorem Evaluator.selectFrom_spellings :
    Store.spellings.decide? ⟨1⟩ ⟨2⟩ = some true ∧
      (Evaluator.mk .spellings .null 0 .empty).select? [⟨3⟩] (.number .one) .global = some ⟨1⟩ := by
  have hparse : Number.parse? "1" = some .one := rfl
  have hone : (Evaluator.mk .spellings .null 0 .empty).store.node? ⟨1⟩ = some (.leaf .num "1") := rfl
  have hclause : (Evaluator.mk .spellings .null 0 .empty).store.node? ⟨3⟩ =
      some (.branch .clause [⟨2⟩, ⟨1⟩]) := rfl
  have hpattern : (Evaluator.mk .spellings .null 0 .empty).store.node? ⟨2⟩ =
      some (.leaf .num "1.0") := rfl
  have hdecide : Store.spellings.decide? ⟨1⟩ ⟨2⟩ = some true := by decide +kernel
  refine ⟨hdecide, ?_⟩
  obtain ⟨-, hselect⟩ :=
    selectFrom_decided_iff hone (.number hparse) hclause hpattern hdecide (.refl _) .global
  exact (hselect .global).2 (Node.not_misjudged_of_parse? hparse)

/-- A numeral of too many digits, and a clause whose pattern it is. -/
def Store.overlong : Store :=
  (empty.push (.leaf .num "99999999999999999999999999999999") none (by simp [empty])).push
    (.branch .clause [⟨1⟩, ⟨1⟩]) none (by simp [empty, push, Node.branch, Node.leaf])

/-- The numeral is decided to match itself, but is not selected. -/
theorem Evaluator.select?_ne_decided :
    Store.overlong.decide? ⟨1⟩ ⟨1⟩ = some true ∧
      (∃ found, (Evaluator.mk .overlong .null 0 .empty).walk.Reaches .global ⟨1⟩ (found, .nan)) ∧
      (Evaluator.mk .overlong .null 0 .empty).select? [⟨2⟩] .nan .global = none := by
  have hparse : Number.parse? "99999999999999999999999999999999" = none := rfl
  have hmeans : Node.Means (.leaf .num "99999999999999999999999999999999") .nan :=
    .nan hparse (by decide)
  have hclause : (Evaluator.mk .overlong .null 0 .empty).store.node? ⟨2⟩ =
      some (.branch .clause [⟨1⟩, ⟨1⟩]) := rfl
  have htree : (Evaluator.mk .overlong .null 0 .empty).store.tree?
      ((Node.branch .clause [⟨1⟩, ⟨1⟩]).child 0) =
        some (.leaf .num "99999999999999999999999999999999") := rfl
  have hselect := selectFrom_single PatternTable.sound_empty hclause htree .global .nan false
  refine ⟨if_pos rfl, reaches_of_means rfl hmeans .global,
    hselect.2 (iff_of_false (fun hfits => ?_) nofun)⟩
  rcases (Tree.fits_leaf_iff rfl).1 hfits with hsame | hsame
  · have htext : Tree.leaf .num "99999999999999999999999999999999" = .leaf .num "NaN" := hsame
    simp [Tree.leaf] at htext
  · cases hsame

end Juxta
