import Juxta.Proofs.ReducedNodes

/-!
# Plain trees

Folding a body with literals in the place of some names, and then with literals in the place of
others, makes the same tree as folding it once with all of them, as long as nothing in the body is
applied to anything.

* `Tree.computed?`, `Tree.truth?`, `Tree.chosen?` : what folding asks of literals;
* `Tree.given` : what folding makes of a tree where some names stand for literals;
* `Tree.LeavesLambda`, `Tree.Apart` : terms of which folding may leave a lambda, and terms of which
  it leaves none before another;
* `Tree.Plain` : trees in which nothing is applied to anything;
* `Tree.Plain.given` : they stay so;
* `Tree.Plain.given_given` : some names first, and others later.
-/

namespace Juxta

/-- Kinds of single terms that keep their parentheses, as they could take terms again. -/
abbrev Tag.MayTake (tag : Tag) : Prop := tag = .ident ∨ tag = .exprs ∨ tag = .paren

namespace Tree

/-! ## What folding asks of a tree -/

/-- A tag with its scalars. What stands below it is left out. -/
def head : Tree → Node
  | .node tag parts => ⟨tag, parts.map fun
    | .text content => .text content
    | .flag value => .flag value
    | _ => .node .absent⟩

/-- The element of a sequence that has only one; any other tree is itself. -/
def unwrapped : Tree → Tree
  | .node .exprs [.tree only] => only
  | tree => tree

/-- The number that a literal stands for. -/
def number? (tree : Tree) : Option Decimal :=
  if tree.tag = .num then tree.text?.bind Number.parse? else none

/-- Whether a literal counts as true. -/
def truth? (tree : Tree) : Option Bool :=
  match tree.tag with
  | .bool => tree.head.flag?
  | .null => some false
  | .num => (tree.text?.bind Number.parse?).map fun n => !n.isZero
  | .str => tree.text?.map fun text => text != ""
  | _ => none

/-- The result of an operation on literals. -/
def computed? (tag : Tag) (operands : List Tree) : Option Tree :=
  match operands with
  | [left, right] => do
    let l ← left.number?
    let r ← right.number?
    match tag with
    | .add | .sub | .mul | .div | .mod | .pow =>
      (Number.apply tag l r).toOption.map fun n => .leaf .num (Number.format n)
    | _ => (Number.compare? tag l r).map fun holds => .node .bool [.flag holds]
  | [operand] =>
    if tag = .neg then operand.number?.map fun n => .leaf .num (Number.format n.neg) else none
  | _ => none

/-- Whether a literal matches a pattern, where that is known. -/
def decide? (value pattern : Tree) : Option Bool :=
  if value.head = pattern.head then some true
  else if pattern.tag = .wildcard then some true
  else if pattern.tag = .num && value.tag = .num then
    some (Store.sameNumber pattern.head value.head)
  else if pattern.tag.isLiteral || pattern.tag = .list || pattern.tag = .record then some false
  else none

/-- The body of the first clause that a literal matches, if no clause before it is undecided. -/
def decided? (value : Tree) : (clauses : List (Tree × Tree)) → Option Tree
  | [] => none
  | (pattern, body) :: rest => match value.decide? pattern with
    | some true => some body
    | some false => decided? value rest
    | none => none

/-- The body that a case is decided for, if its scrutinee is a literal. -/
def chosen? (value : Tree) (clauses : List (Tree × Tree)) : Option Tree :=
  if value.tag.isLiteral then value.decided? clauses else none

/-! ## What folding makes of a tree -/

/-- The tree of a clause. -/
def clause (clause : Tree × Tree) : Tree := .branch .clause [clause.1, clause.2]

/-- A clause whose pattern is no sequence of one term. -/
def bare (clause : Tree × Tree) : Tree × Tree := (clause.1.unwrapped, clause.2)

/-- The patterns and bodies of some clauses. -/
def clauses (trees : List Tree) : List (Tree × Tree) :=
  trees.filterMap fun
    | .node .clause [.tree pattern, .tree body] => some (pattern, body)
    | _ => none

/-- The names in a list of parameters. -/
def names : Tree → List String
  | .node _ parts => parts.filterMap fun
    | .tree tree => tree.text?
    | _ => none

/-- The tree of a lambda. -/
def lambda (params : List String) (body : Tree) : Tree :=
  .branch .lambda [.branch .list (params.map (.leaf .ident)), body]

/-- An operation, or its result if its operands are literals. -/
def operated (tag : Tag) (operands : List Tree) : Tree :=
  (computed? tag operands).getD (.branch tag operands)

/-- Parentheses around some terms. A single term needs none, unless it could take terms again. -/
def grouped (terms : List Tree) : Tree :=
  match terms with
  | [only] => if only.tag.MayTake then .branch .paren [.branch .exprs terms] else only
  | _ => .branch .paren [.branch .exprs terms]

/-- The tree of a conditional. The second branch may be missing. -/
def choice (condition yes : Tree) (no : Option Tree) : Tree :=
  .node .ifThen [.tree condition, .tree yes, match no with
    | some no => .tree no
    | none => .absent]

/-- A conditional, or the branch that its condition decides on. -/
def conditional (condition yes : Tree) (no : Option Tree) : Tree :=
  match condition.unwrapped.truth? with
  | some true => yes.unwrapped
  | some false => match no with
    | some no => no.unwrapped
    | none => .node .null []
  | none => choice condition yes no

/-- A case, or the body of the clause that its scrutinee decides on. -/
def selected (scrutinee : Tree) (clauses : List (Tree × Tree)) : Tree :=
  match scrutinee.unwrapped.chosen? (clauses.map bare) with
  | some body => body.unwrapped
  | none => .branch .case (scrutinee :: (clauses.map bare).map clause)

/-- What names stand for where parameters hide some of them. -/
def without (params : List String) (σ : String → Option Tree) (name : String) : Option Tree :=
  if name ∈ params then none else σ name

mutual

/-- What folding makes of a tree in which nothing is applied to anything, where some names stand for
literals and the other ones for themselves. -/
def given (σ : String → Option Tree) : Tree → Tree
  | .node .ident parts => ((Tree.node .ident parts).text?.bind σ).getD (.node .ident parts)
  | .node .exprs parts => .branch .exprs (givenTrees σ parts)
  | .node .list parts => .branch .list (givenTrees σ parts)
  | .node .clause parts => .branch .clause (givenTrees σ parts)
  | .node .paren [.tree (.node .exprs terms)] => grouped (givenTrees σ terms)
  | .node .lambda [.tree list, .tree body] =>
    .branch .lambda [list, given (without list.names σ) body]
  | .node .binding [.tree key, .tree value] => .branch .binding [key, (given σ value).unwrapped]
  | .node .ifThen [.tree condition, .tree yes, .tree no] =>
    conditional (given σ condition) (given σ yes) (some (given σ no))
  | .node .ifThen [.tree condition, .tree yes, .absent] =>
    conditional (given σ condition) (given σ yes) none
  | .node .case (.tree scrutinee :: parts) =>
    selected (given σ scrutinee) (clauses (givenTrees σ parts))
  | .node tag parts =>
    if tag.role = .scalar then .node tag parts else operated tag (givenTrees σ parts)

/-- What folding makes of the trees among some parts. -/
def givenTrees (σ : String → Option Tree) : List Part → List Tree
  | [] => []
  | .tree tree :: rest => given σ tree :: givenTrees σ rest
  | _ :: rest => givenTrees σ rest

end

/-! ## Plain trees -/

/-- Trees of which folding may leave a lambda, as they decide between branches. -/
inductive LeavesLambda : Tree → Prop where
  | lambda {tree : Tree} (h : tree.tag = .lambda) : LeavesLambda tree
  | only {only : Tree} (h : LeavesLambda only) : LeavesLambda (.branch .exprs [only])
  | yes {condition yes : Tree} {no : Option Tree} (h : LeavesLambda yes) :
      LeavesLambda (choice condition yes no)
  | no {condition yes no : Tree} (h : LeavesLambda no) :
      LeavesLambda (choice condition yes (some no))
  | body {scrutinee : Tree} {clauses : List (Tree × Tree)} {c : Tree × Tree} (hm : c ∈ clauses)
      (h : LeavesLambda c.2) : LeavesLambda (.branch .case (scrutinee :: clauses.map clause))

/-- Terms of which folding leaves no lambda before another term. -/
abbrev Apart (terms : List Tree) : Prop := terms.Pairwise fun first _ => ¬ first.LeavesLambda

/-- Scalars, which stand for themselves. -/
inductive Scalar : Tree → Prop where
  | text {tag : Tag} {text : String} (h : tag = .num ∨ tag = .str) : Scalar (.leaf tag text)
  | flag {value : Bool} : Scalar (.node .bool [.flag value])
  | bare {tag : Tag} (h : tag = .null ∨ tag = .wildcard) : Scalar (.node tag [])

/-- Literals are scalars that are no wildcards. -/
structure Literal (tree : Tree) : Prop where
  scalar : Scalar tree
  tag : tree.tag.isLiteral = true

/-- Names that stand for literals. -/
abbrev Literals (σ : String → Option Tree) : Prop := ∀ name tree, σ name = some tree → tree.Literal

/-- Trees in which nothing is applied to anything, whatever literals the `names` stand for. Lambdas
are nested no more than `room` levels deep. No term of a sequence is a sequence of one term, and
parentheses around one term have a reason. -/
inductive Plain : (names : String → Prop) → (room : Nat) → Tree → Prop where
  | scalar {names : String → Prop} {room : Nat} {tree : Tree} (h : Scalar tree) :
      Plain names room tree
  | name {names : String → Prop} {room : Nat} {name : String} (h : names name) :
      Plain names room (.leaf .ident name)
  | row {names : String → Prop} {room : Nat} {tag : Tag} {terms : List Tree}
      (ht : tag = .exprs ∨ tag = .list) (h : ∀ term ∈ terms, Plain names room term)
      (hl : Apart terms)
      (hu : tag = .exprs → ∀ term ∈ terms, term.unwrapped = term) :
      Plain names room (.branch tag terms)
  | paren {names : String → Prop} {room : Nat} {terms : List Tree}
      (h : ∀ term ∈ terms, Plain names room term) (hl : Apart terms)
      (hu : ∀ term ∈ terms, term.unwrapped = term)
      (hk : ∀ only, terms = [only] → only.tag.MayTake) :
      Plain names room (.branch .paren [.branch .exprs terms])
  | lambda {names : String → Prop} {room : Nat} {params : List String} {body : Tree}
      (h : Plain (NamesWith names params) room body) : Plain names (room + 1) (lambda params body)
  | binding {names : String → Prop} {room : Nat} {key : String} {value : Tree}
      (h : Plain names room value) : Plain names room (.branch .binding [.leaf .str key, value])
  | choice {names : String → Prop} {room : Nat} {condition yes : Tree} {no : Option Tree}
      (hc : Plain names room condition) (hy : Plain names room yes)
      (hn : ∀ branch, no = some branch → Plain names room branch) :
      Plain names room (choice condition yes no)
  | case {names : String → Prop} {room : Nat} {scrutinee : Tree} {clauses : List (Tree × Tree)}
      (hs : Plain names room scrutinee) (hp : ∀ c ∈ clauses, Plain names room c.1)
      (hb : ∀ c ∈ clauses, Plain names room c.2) :
      Plain names room (.branch .case (scrutinee :: clauses.map clause))
  | operation {names : String → Prop} {room : Nat} {tag : Tag} {operands : List Tree}
      (ht : tag.IsOperation) (h : ∀ operand ∈ operands, Plain names room operand) :
      Plain names room (.branch tag operands)

/-- Plain trees that may be terms of a sequence. -/
structure Term (names : String → Prop) (room : Nat) (tree : Tree) : Prop where
  plain : Plain names room tree
  unwrapped : tree.unwrapped = tree

/-! ## What folding makes of each kind of tree -/

variable {σ τ : String → Option Tree}

theorem givenTrees_trees (σ : String → Option Tree) (trees : List Tree) :
    givenTrees σ (trees.map .tree) = trees.map (given σ) := by
  induction trees with
  | nil => rfl
  | cons tree rest ih =>
    exact congrArg (given σ tree :: ·) ih

theorem names_leaves (params : List String) :
    (branch .list (params.map (leaf .ident))).names = params := by
  rw [branch, names, List.map_map, List.filterMap_map]
  exact List.filterMap_some

theorem clauses_trees (cs : List (Tree × Tree)) : clauses (cs.map clause) = cs := by
  rw [clauses, List.filterMap_map]
  exact List.filterMap_some

theorem given_of_role {tag : Tag} (h : tag.role = .scalar) (parts : List Part) :
    (node tag parts).given σ = node tag parts := by
  cases tag <;> first | exact absurd h (by decide) | rfl

theorem given_scalar {tree : Tree} (h : Scalar tree) : tree.given σ = tree := by
  cases h with
  | text h => exact given_of_role (by rcases h with rfl | rfl <;> rfl) _
  | flag => exact given_of_role rfl _
  | bare h => exact given_of_role (by rcases h with rfl | rfl <;> rfl) _

theorem given_name (name : String) :
    (leaf .ident name).given σ = (σ name).getD (leaf .ident name) := rfl

theorem given_row {tag : Tag} (ht : tag = .exprs ∨ tag = .list) (terms : List Tree) :
    (branch tag terms).given σ = branch tag (terms.map (given σ)) := by
  rcases ht with rfl | rfl <;> exact congrArg (branch _) (givenTrees_trees σ terms)

theorem given_paren (terms : List Tree) : (branch .paren [branch .exprs terms]).given σ =
    grouped (terms.map (given σ)) :=
  congrArg grouped (givenTrees_trees σ terms)

theorem given_lambda (params : List String) (body : Tree) :
    (lambda params body).given σ = lambda params (body.given (without params σ)) :=
  congrArg (fun names => lambda params (body.given (without names σ))) (names_leaves params)

theorem given_binding (key : String) (value : Tree) :
    (branch .binding [leaf .str key, value]).given σ =
      branch .binding [leaf .str key, (value.given σ).unwrapped] := rfl

theorem given_choice (condition yes : Tree) (no : Option Tree) :
    (choice condition yes no).given σ =
      conditional (condition.given σ) (yes.given σ) (no.map (given σ)) := by
  cases no <;> rfl

theorem given_clause (c : Tree × Tree) :
    (clause c).given σ = clause (c.1.given σ, c.2.given σ) := rfl

theorem given_case (scrutinee : Tree) (cs : List (Tree × Tree)) :
    (branch .case (scrutinee :: cs.map clause)).given σ =
      selected (scrutinee.given σ) (cs.map (Prod.map (given σ) (given σ))) := by
  have hclauses : (cs.map clause).map (given σ) =
      (cs.map (Prod.map (given σ) (given σ))).map clause := by
    rw [List.map_map, List.map_map]
    exact List.map_congr_left fun c _ => given_clause c
  have htrees : clauses (givenTrees σ ((cs.map clause).map .tree)) =
      cs.map (Prod.map (given σ) (given σ)) := by
    rw [givenTrees_trees, hclauses, clauses_trees]
  exact congrArg (selected (scrutinee.given σ)) htrees

theorem given_operation {tag : Tag} (ht : tag.IsOperation) (operands : List Tree) :
    (branch tag operands).given σ = operated tag (operands.map (given σ)) := by
  obtain ⟨hterms, hexprs, hlist⟩ := ht
  rw [branch, ← givenTrees_trees]
  cases tag <;> first | contradiction | rfl

theorem tag_given {tree : Tree} (h : tree.tag = .exprs) : (tree.given σ).tag = .exprs := by
  obtain ⟨tag, parts⟩ := tree
  obtain rfl : tag = .exprs := h
  rfl

/-! ## Sequences of one term -/

theorem unwrapped_of_tag {tree : Tree} (h : tree.tag ≠ .exprs) : tree.unwrapped = tree := by
  obtain ⟨tag, parts⟩ := tree
  unfold unwrapped
  split
  · rename_i heq
    cases heq
    exact absurd rfl h
  · rfl

/-- Any tree but a sequence of one term is itself. -/
theorem unwrapped_cases (tree : Tree) :
    tree.unwrapped = tree ∨ ∃ only, tree = branch .exprs [only] := by
  unfold unwrapped
  split
  · exact .inr ⟨_, rfl⟩
  · exact .inl rfl

/-- A sequence of several terms or of none stays one. -/
theorem unwrapped_row {terms terms' : List Tree} (hlength : terms'.length = terms.length)
    (h : (branch .exprs terms).unwrapped = branch .exprs terms) :
    (branch .exprs terms').unwrapped = branch .exprs terms' := by
  match terms, terms' with
  | [], [] => rfl
  | [only], [only'] =>
    have hsize := congrArg sizeOf (show only = branch .exprs [only] from h)
    simp only [branch, List.map_cons, List.map_nil, node.sizeOf_spec, List.cons.sizeOf_spec,
      Part.tree.sizeOf_spec] at hsize
    omega
  | _ :: _ :: _, _ :: _ :: _ => rfl

namespace Plain

variable {names names' : String → Prop} {room : Nat} {tree : Tree}

theorem mono (h : Plain names room tree) (hle : ∀ name, names name → names' name) :
    Plain names' room tree := by
  induction h generalizing names' with
  | scalar h => exact .scalar h
  | name h => exact .name (hle _ h)
  | row ht _ hl hu ih => exact .row ht (fun term hm => ih term hm hle) hl hu
  | paren _ hl hu hk ih => exact .paren (fun term hm => ih term hm hle) hl hu hk
  | lambda _ ih => exact .lambda (ih fun _ => NamesWith.mono hle (List.Subset.refl _))
  | binding _ ih => exact .binding (ih hle)
  | choice _ _ _ ihc ihy ihn =>
    exact .choice (ihc hle) (ihy hle) fun branch hb => ihn branch hb hle
  | case _ _ _ ihs ihp ihb =>
    exact .case (ihs hle) (fun c hm => ihp c hm hle) fun c hm => ihb c hm hle
  | operation ht _ ih => exact .operation ht fun operand hm => ih operand hm hle

/-- The terms of a plain sequence. -/
theorem exists_terms (h : Plain names room tree) (ht : tree.tag = .exprs) :
    ∃ terms, tree = branch .exprs terms ∧ ∀ term ∈ terms, Term names room term := by
  cases h with
  | @row _ _ tag terms _ h hl hu =>
    obtain rfl : tag = Tag.exprs := ht
    exact ⟨terms, rfl, fun term hm => ⟨h term hm, hu rfl term hm⟩⟩
  | scalar h => cases h with
    | text h => rcases h with rfl | rfl <;> cases ht
    | flag => cases ht
    | bare h => rcases h with rfl | rfl <;> cases ht
  | operation htag => exact absurd ht htag.ne_exprs
  | _ => cases ht

theorem of_exprs {terms : List Tree} (h : Plain names room (branch .exprs terms)) :
    ∀ term ∈ terms, Term names room term := by
  obtain ⟨terms', heq, hterms⟩ := h.exists_terms rfl
  have hparts : terms.map Part.tree = terms'.map Part.tree := congrArg parts heq
  rwa [List.map_injective_iff.2 (fun _ _ => Part.tree.inj) hparts]

/-- The term of a plain sequence that has only one. -/
theorem unwrapped (h : Plain names room tree) : Plain names room tree.unwrapped := by
  rcases unwrapped_cases tree with heq | ⟨only, rfl⟩
  · rwa [heq]
  · exact (h.of_exprs only List.mem_cons_self).plain

theorem term_unwrapped (h : Plain names room tree) : Term names room tree.unwrapped := by
  rcases unwrapped_cases tree with heq | ⟨only, rfl⟩
  · rw [heq]
    exact ⟨h, heq⟩
  · exact h.of_exprs only List.mem_cons_self

theorem unwrapped_unwrapped (h : Plain names room tree) :
    tree.unwrapped.unwrapped = tree.unwrapped := by
  rcases unwrapped_cases tree with heq | ⟨only, rfl⟩
  · rw [heq, heq]
  · exact (h.of_exprs only List.mem_cons_self).unwrapped

theorem scalar_of_role (h : Plain names room tree) (hr : tree.tag.role = .scalar) :
    Scalar tree := by
  cases h with
  | scalar h => exact h
  | row ht => rcases ht with rfl | rfl <;> cases hr
  | operation ht => exact nomatch ht.role.symm.trans hr
  | _ => cases hr

theorem scalar_of_isLiteral (h : Plain names room tree) (hl : tree.tag.isLiteral = true) :
    Scalar tree := by
  refine h.scalar_of_role ?_
  cases htag : tree.tag <;> rw [htag] at hl <;> first | rfl | cases hl

end Plain

/-! ## Operations on literals -/

theorem tag_of_number? {tree : Tree} {n : Decimal} (h : tree.number? = some n) :
    tree.tag = .num := by
  unfold number? at h
  split at h
  · assumption
  · cases h

/-- An operation is carried out on numbers, and its result is a literal. -/
theorem literal_of_computed? {tag : Tag} {operands : List Tree} {result : Tree}
    (h : computed? tag operands = some result) :
    result.Literal ∧ ∀ operand ∈ operands, operand.tag = .num := by
  have hnumber : ∀ text, (leaf .num text).Literal := fun text => ⟨.text (.inl rfl), rfl⟩
  unfold computed? at h
  split at h
  · obtain ⟨l, hl, h⟩ := Option.bind_eq_some_iff.1 h
    obtain ⟨r, hr, h⟩ := Option.bind_eq_some_iff.1 h
    refine ⟨?_, List.forall_mem_cons.2 ⟨tag_of_number? hl,
      List.forall_mem_singleton.2 (tag_of_number? hr)⟩⟩
    split at h
    all_goals
      obtain ⟨n, -, rfl⟩ := Option.map_eq_some_iff.1 h
      first
        | exact hnumber _
        | exact ⟨.flag, rfl⟩
  · split at h
    · obtain ⟨n, hn, rfl⟩ := Option.map_eq_some_iff.1 h
      exact ⟨hnumber _, List.forall_mem_singleton.2 (tag_of_number? hn)⟩
    · cases h
  · cases h

/-- No record is computed. -/
theorem computed?_record (fields : List Tree) : computed? .record fields = none := by
  unfold computed?
  split
  · rename_i left right
    cases left.number? with
    | none => rfl
    | some l => cases right.number? <;> rfl
  · rfl
  · rfl

/-! ## Literals and patterns -/

theorem head_tag (tree : Tree) : tree.head.tag = tree.tag := by
  obtain ⟨tag, parts⟩ := tree
  rfl

theorem head_text? (tree : Tree) : tree.head.text? = tree.text? := by
  obtain ⟨tag, parts⟩ := tree
  match parts with
  | [] | .tree _ :: _ | .text _ :: _ | .flag _ :: _ | .absent :: _ => rfl

/-- Scalars are known by their heads. -/
theorem Scalar.eq_of_head {scalar tree : Tree} (h : Scalar scalar)
    (heq : scalar.head = tree.head) : scalar = tree := by
  obtain ⟨tag, parts⟩ := tree
  cases h with
  | text =>
    obtain ⟨rfl, hslots⟩ := Node.mk.inj heq
    obtain ⟨part, rfl, hpart⟩ := List.map_eq_singleton_iff.1 hslots.symm
    cases part <;> cases hpart
    rfl
  | flag =>
    obtain ⟨rfl, hslots⟩ := Node.mk.inj heq
    obtain ⟨part, rfl, hpart⟩ := List.map_eq_singleton_iff.1 hslots.symm
    cases part <;> cases hpart
    rfl
  | bare =>
    obtain ⟨rfl, hslots⟩ := Node.mk.inj heq
    rw [List.map_eq_nil_iff.1 hslots.symm]

/-- Patterns that are no scalars match no literal, or are undecided. -/
theorem decide?_of_role {value pattern : Tree} (hv : value.Literal)
    (hp : pattern.tag.role ≠ .scalar) : value.decide? pattern =
      if pattern.tag = .list ∨ pattern.tag = .record then some false else none := by
  have hrole : value.tag.role = .scalar := by
    have hliteral := hv.tag
    cases htag : value.tag <;> rw [htag] at hliteral <;> first | rfl | cases hliteral
  have hne : value.head ≠ pattern.head := by
    intro heq
    have htag : value.tag = pattern.tag := by rw [← head_tag, ← head_tag, heq]
    exact hp (htag ▸ hrole)
  unfold decide?
  rw [if_neg hne]
  cases htag : pattern.tag <;> rw [htag] at hp <;> first | exact absurd rfl hp | rfl

/-! ## Plain terms -/

variable {names : String → Prop} {room : Nat} {tree : Tree}

theorem Scalar.role (h : Scalar tree) : tree.tag.role = .scalar := by
  cases h with
  | text h => rcases h with rfl | rfl <;> rfl
  | flag => rfl
  | bare h => rcases h with rfl | rfl <;> rfl

/-- Trees that are no sequences. -/
theorem Plain.term_of_tag (h : Plain names room tree) (he : tree.tag ≠ .exprs) :
    Term names room tree := ⟨h, unwrapped_of_tag he⟩

theorem Scalar.term (h : Scalar tree) : Term names room tree := by
  refine (Plain.scalar h).term_of_tag fun htag => ?_
  have hrole := h.role
  rw [htag] at hrole
  cases hrole

theorem Literal.term (h : tree.Literal) : Term names room tree := h.scalar.term

namespace Term

theorem row {terms : List Tree} (h : ∀ term ∈ terms, Term names room term) (hl : Apart terms) :
    Plain names room (branch .exprs terms) :=
  .row (.inl rfl) (fun term hm => (h term hm).plain) hl fun _ term hm => (h term hm).unwrapped

theorem grouped {terms : List Tree} (h : ∀ term ∈ terms, Term names room term)
    (hl : Apart terms) : Term names room (grouped terms) := by
  have hparen : (∀ only, terms = [only] → only.tag.MayTake) →
      Term names room (branch .paren [branch .exprs terms]) := fun hk =>
    ⟨.paren (fun term hm => (h term hm).plain) hl (fun term hm => (h term hm).unwrapped) hk, rfl⟩
  unfold Tree.grouped
  split
  · rename_i only
    split
    · rename_i htag
      refine hparen fun _ hone => ?_
      cases hone
      exact htag
    · exact h only List.mem_cons_self
  · rename_i hnot
    exact hparen fun only hone => absurd hone (hnot only)

theorem conditional {condition yes : Tree} {no : Option Tree} (hc : Plain names room condition)
    (hy : Plain names room yes) (hn : ∀ tree, no = some tree → Plain names room tree) :
    Term names room (conditional condition yes no) := by
  unfold Tree.conditional
  split
  · exact hy.term_unwrapped
  · split
    · rename_i no
      exact (hn no rfl).term_unwrapped
    · exact ⟨.scalar (.bare (.inl rfl)), rfl⟩
  · exact (Plain.choice hc hy hn).term_of_tag nofun

theorem mem_of_chosen? {value : Tree} {clauses : List (Tree × Tree)} {body : Tree}
    (h : value.chosen? clauses = some body) :
    value.tag.isLiteral = true ∧ value.decided? clauses = some body ∧
      ∃ pattern, (pattern, body) ∈ clauses := by
  unfold chosen? at h
  split at h
  · rename_i hliteral
    refine ⟨hliteral, h, ?_⟩
    induction clauses with
    | nil => cases h
    | cons clause rest ih =>
      unfold decided? at h
      split at h
      · cases h
        exact ⟨clause.1, List.mem_cons_self⟩
      · obtain ⟨pattern, hm⟩ := ih h
        exact ⟨pattern, List.mem_cons_of_mem _ hm⟩
      · cases h
  · cases h

theorem selected {scrutinee : Tree} {clauses : List (Tree × Tree)}
    (hs : Plain names room scrutinee) (hp : ∀ c ∈ clauses, Plain names room c.1)
    (hb : ∀ c ∈ clauses, Plain names room c.2) :
    Term names room (selected scrutinee clauses) := by
  unfold Tree.selected
  split
  · rename_i body hbody
    obtain ⟨-, -, pattern, hm⟩ := mem_of_chosen? hbody
    obtain ⟨c, hc, heq⟩ := List.mem_map.1 hm
    cases heq
    exact (hb c hc).term_unwrapped
  · refine ⟨.case hs ?_ ?_, rfl⟩
    · exact List.forall_mem_map.2 fun c hc => (hp c hc).unwrapped
    · exact List.forall_mem_map.2 fun c hc => hb c hc

theorem operated {tag : Tag} (ht : tag.IsOperation) {operands : List Tree}
    (h : ∀ operand ∈ operands, Plain names room operand) :
    Term names room (operated tag operands) := by
  unfold Tree.operated
  cases hresult : computed? tag operands with
  | none => exact ⟨.operation ht h, unwrapped_of_tag ht.ne_exprs⟩
  | some result => exact (literal_of_computed? hresult).1.term

end Term

/-! ## Lambdas that folding leaves -/

namespace LeavesLambda

theorem tag (h : tree.LeavesLambda) :
    tree.tag = .lambda ∨ tree.tag = .exprs ∨ tree.tag = .ifThen ∨ tree.tag = .case := by
  cases h with
  | lambda h => exact .inl h
  | only => exact .inr (.inl rfl)
  | yes | no => exact .inr (.inr (.inl rfl))
  | body => exact .inr (.inr (.inr rfl))

theorem of_exprs {terms : List Tree} (h : (branch .exprs terms).LeavesLambda) :
    ∃ only, terms = [only] ∧ only.LeavesLambda := by
  generalize htree : branch .exprs terms = tree at h
  cases h with
  | lambda h =>
    subst htree
    cases h
  | @only only h =>
    have hparts : terms.map Part.tree = [only].map Part.tree := congrArg parts htree
    exact ⟨only, List.map_injective_iff.2 (fun _ _ => Part.tree.inj) hparts, h⟩
  | yes | no | body => cases congrArg Tree.tag htree

theorem of_unwrapped (h : tree.unwrapped.LeavesLambda) : tree.LeavesLambda := by
  rcases unwrapped_cases tree with heq | ⟨only, rfl⟩
  · rwa [heq] at h
  · exact .only h

theorem of_choice {condition yes : Tree} {no : Option Tree}
    (h : (choice condition yes no).LeavesLambda) :
    yes.LeavesLambda ∨ ∃ branch, no = some branch ∧ branch.LeavesLambda := by
  generalize htree : choice condition yes no = tree at h
  cases h with
  | lambda h =>
    subst htree
    cases h
  | only | body => cases congrArg Tree.tag htree
  | @yes condition' yes' no' h =>
    obtain ⟨-, hyes⟩ := List.cons.inj (congrArg parts htree)
    cases (List.cons.inj hyes).1
    exact .inl h
  | @no condition' yes' no' h =>
    obtain ⟨-, hparts⟩ := List.cons.inj (congrArg parts htree)
    obtain ⟨-, hparts⟩ := List.cons.inj hparts
    cases no with
    | none => cases hparts
    | some no =>
      cases hparts
      exact .inr ⟨_, rfl, h⟩

theorem of_case {scrutinee : Tree} {clauses : List (Tree × Tree)}
    (h : (branch .case (scrutinee :: clauses.map clause)).LeavesLambda) :
    ∃ c ∈ clauses, c.2.LeavesLambda := by
  generalize htree : branch .case (scrutinee :: clauses.map clause) = tree at h
  cases h with
  | lambda h =>
    subst htree
    cases h
  | only | yes | no => cases congrArg Tree.tag htree
  | @body scrutinee' clauses' c hm h =>
    have hparts : (scrutinee :: clauses.map clause).map Part.tree =
        (scrutinee' :: clauses'.map clause).map Part.tree := congrArg parts htree
    have htrees := List.map_injective_iff.2 (fun _ _ => Part.tree.inj) hparts
    have hclauses := congrArg Tree.clauses (List.cons.inj htrees).2
    rw [clauses_trees, clauses_trees] at hclauses
    exact ⟨c, hclauses ▸ hm, h⟩

theorem of_conditional {condition yes : Tree} {no : Option Tree}
    (h : (conditional condition yes no).LeavesLambda) :
    yes.LeavesLambda ∨ ∃ branch, no = some branch ∧ branch.LeavesLambda := by
  unfold conditional at h
  split at h
  · exact .inl h.of_unwrapped
  · split at h
    · exact .inr ⟨_, rfl, h.of_unwrapped⟩
    · rcases h.tag with h | h | h | h <;> cases h
  · exact h.of_choice

theorem of_selected {scrutinee : Tree} {clauses : List (Tree × Tree)}
    (h : (selected scrutinee clauses).LeavesLambda) : ∃ c ∈ clauses, c.2.LeavesLambda := by
  unfold selected at h
  split at h
  · rename_i body hbody
    obtain ⟨-, -, pattern, hm⟩ := Term.mem_of_chosen? hbody
    obtain ⟨c, hc, heq⟩ := List.mem_map.1 hm
    cases heq
    exact ⟨c, hc, h.of_unwrapped⟩
  · obtain ⟨_, hm, hbody⟩ := h.of_case
    obtain ⟨c, hc, rfl⟩ := List.mem_map.1 hm
    exact ⟨c, hc, hbody⟩

end LeavesLambda

theorem Literal.not_leavesLambda (h : tree.Literal) : ¬ tree.LeavesLambda := by
  intro hleaves
  have hrole := h.scalar.role
  rcases hleaves.tag with htag | htag | htag | htag <;>
    · rw [htag] at hrole
      cases hrole

theorem not_leavesLambda_grouped {terms : List Tree}
    (hk : ∀ only, terms = [only] → only.Literal ∨ only.tag.MayTake) :
    ¬ (grouped terms).LeavesLambda := by
  have hparen : ¬ (branch .paren [branch .exprs terms]).LeavesLambda := by
    intro hleaves
    rcases hleaves.tag with htag | htag | htag | htag <;> cases htag
  unfold grouped
  split
  · rename_i only
    split
    · exact hparen
    · rename_i hnot
      exact ((hk only rfl).resolve_right hnot).not_leavesLambda
  · exact hparen

theorem not_leavesLambda_operated {tag : Tag} (ht : tag.IsOperation) (operands : List Tree) :
    ¬ (operated tag operands).LeavesLambda := by
  intro hleaves
  unfold operated at hleaves
  cases hresult : computed? tag operands with
  | some result =>
    rw [hresult] at hleaves
    exact (literal_of_computed? hresult).1.not_leavesLambda hleaves
  | none =>
    rw [hresult] at hleaves
    have hrole := ht.role
    have htag : tag = .lambda ∨ tag = .exprs ∨ tag = .ifThen ∨ tag = .case := hleaves.tag
    rcases htag with rfl | rfl | rfl | rfl
    · cases hrole
    · exact ht.ne_exprs rfl
    · cases hrole
    · cases hrole

/-! ## Plain trees stay plain -/

theorem Plain.mayTake_given (h : Plain names room tree) (hσ : Literals σ)
    (ht : tree.tag.MayTake) : (tree.given σ).Literal ∨ (tree.given σ).tag.MayTake := by
  induction h generalizing σ with
  | @name names room name hname =>
    rw [given_name]
    cases hvalue : σ name with
    | none => exact .inr (.inl rfl)
    | some value => exact .inl (hσ name value hvalue)
  | row htag =>
    rcases htag with rfl | rfl
    · exact .inr (.inr (.inl (tag_given rfl)))
    · rcases ht with ht | ht | ht <;> cases ht
  | @paren names room terms _ _ _ hk ih =>
    rw [given_paren]
    unfold grouped
    split
    · rename_i only honly
      obtain ⟨term, rfl, rfl⟩ := List.map_eq_singleton_iff.1 honly
      split
      · exact .inr (.inr (.inr rfl))
      · rename_i hnot
        exact .inl ((ih term List.mem_cons_self hσ (hk term rfl)).resolve_right hnot)
    · exact .inr (.inr (.inr rfl))
  | scalar h =>
    have hrole := h.role
    rcases ht with ht | ht | ht <;> rw [ht] at hrole <;> cases hrole
  | @operation names room tag operands htag =>
    have hrole := htag.role
    obtain rfl | rfl | rfl : tag = Tag.ident ∨ tag = Tag.exprs ∨ tag = Tag.paren := ht
    · cases hrole
    · exact absurd rfl htag.ne_exprs
    · cases hrole
  | _ => rcases ht with ht | ht | ht <;> cases ht

/-- What parentheses around one term come to. -/
theorem Plain.mayTake_terms {terms : List Tree} (h : ∀ term ∈ terms, Plain names room term)
    (hk : ∀ only, terms = [only] → only.tag.MayTake) (hσ : Literals σ) :
    ∀ only, terms.map (given σ) = [only] → only.Literal ∨ only.tag.MayTake := by
  intro only honly
  obtain ⟨term, rfl, rfl⟩ := List.map_eq_singleton_iff.1 honly
  exact (h term List.mem_cons_self).mayTake_given hσ (hk term rfl)

/-- What holds of a plain tree and of what folding makes of it. -/
structure Stays (names : String → Prop) (room : Nat) (σ : String → Option Tree) (tree : Tree) :
    Prop where
  plain : Plain (fun name => names name ∧ σ name = none) room (tree.given σ)
  leaves : (tree.given σ).LeavesLambda → tree.LeavesLambda
  unwrapped : (tree.given σ).unwrapped = tree.unwrapped.given σ

theorem Stays.of_term (h : Term (fun name => names name ∧ σ name = none) room (tree.given σ))
    (ht : tree.tag ≠ .exprs) (hl : (tree.given σ).LeavesLambda → tree.LeavesLambda) :
    Stays names room σ tree := ⟨h.plain, hl, by rw [h.unwrapped, unwrapped_of_tag ht]⟩

theorem Literals.without (h : Literals σ) (params : List String) : Literals (without params σ) := by
  intro name tree hname
  unfold Tree.without at hname
  split at hname
  · cases hname
  · exact h name tree hname

/-- Some terms of a plain sequence. -/
theorem Stays.terms {terms : List Tree} (h : ∀ term ∈ terms, Stays names room σ term)
    (hu : ∀ term ∈ terms, term.unwrapped = term) :
    ∀ term ∈ terms.map (given σ), Term (fun name => names name ∧ σ name = none) room term := by
  refine List.forall_mem_map.2 fun term hm => ⟨(h term hm).plain, ?_⟩
  rw [(h term hm).unwrapped, hu term hm]

theorem Stays.apart {terms : List Tree} (h : ∀ term ∈ terms, Stays names room σ term)
    (hl : Apart terms) : Apart (terms.map (given σ)) := by
  refine List.pairwise_map.2 (hl.imp_of_mem fun hm _ hnot hleaves => ?_)
  exact hnot ((h _ hm).leaves hleaves)

theorem Plain.given (h : Plain names room tree) (hσ : Literals σ) : Stays names room σ tree := by
  induction h generalizing σ with
  | @scalar names room tree h =>
    refine ⟨?_, ?_, ?_⟩
    · exact (given_scalar h).symm ▸ .scalar h
    · rw [given_scalar h]
      exact id
    · rw [given_scalar h, (h.term : Term names room tree).unwrapped, given_scalar h]
  | @name names room name hname =>
    have hgiven := given_name (σ := σ) name
    cases hvalue : σ name with
    | none =>
      rw [hvalue, Option.getD_none] at hgiven
      refine .of_term ?_ nofun ?_
      · rw [hgiven]
        exact (Plain.name ⟨hname, hvalue⟩).term_of_tag nofun
      · rw [hgiven]
        exact id
    | some value =>
      have hliteral := hσ name value hvalue
      rw [hvalue, Option.getD_some] at hgiven
      refine .of_term ?_ nofun ?_
      · rw [hgiven]
        exact hliteral.term
      · rw [hgiven]
        exact fun hleaves => absurd hleaves hliteral.not_leavesLambda
  | @row names room tag terms ht _ hl hu ih =>
    have hstays := fun term hm => ih term hm hσ
    refine ⟨?_, fun hleaves => ?_, ?_⟩
    · rw [given_row ht]
      refine .row ht (List.forall_mem_map.2 fun term hm => (hstays term hm).plain)
        (Stays.apart hstays hl) fun hexprs => ?_
      exact fun term hm => (Stays.terms hstays (hu hexprs) term hm).unwrapped
    · rw [given_row ht] at hleaves
      rcases ht with rfl | rfl
      · obtain ⟨_, hone, hleaves⟩ := hleaves.of_exprs
        obtain ⟨only, rfl, rfl⟩ := List.map_eq_singleton_iff.1 hone
        exact .only ((hstays only List.mem_cons_self).leaves hleaves)
      · rcases hleaves.tag with htag | htag | htag | htag <;> cases htag
    · rcases unwrapped_cases (branch tag terms) with heq | ⟨only, heq⟩
      · rw [heq, given_row ht]
        rcases ht with rfl | rfl
        · exact unwrapped_row (List.length_map _) heq
        · rfl
      · rw [heq, given_row (.inl rfl)]
        rfl
  | @paren names room terms h hl hu hk ih =>
    have hstays := fun term hm => ih term hm hσ
    refine .of_term ?_ nofun fun hleaves => ?_
    · rw [given_paren]
      exact .grouped (Stays.terms hstays hu) (Stays.apart hstays hl)
    · rw [given_paren] at hleaves
      exact absurd hleaves (not_leavesLambda_grouped (Plain.mayTake_terms h hk hσ))
  | @lambda names room params body _ ih =>
    refine ⟨?_, fun _ => .lambda rfl, ?_⟩
    · rw [given_lambda]
      refine .lambda ((ih (hσ.without params)).plain.mono ?_)
      rintro name ⟨hnames | hparam, hnone⟩
      · by_cases hm : name ∈ params
        · exact .inr hm
        · unfold without at hnone
          rw [if_neg hm] at hnone
          exact .inl ⟨hnames, hnone⟩
      · exact .inr hparam
    · rw [given_lambda, unwrapped_of_tag (by nofun), unwrapped_of_tag (by nofun), given_lambda]
  | @binding names room key value _ ih =>
    refine .of_term ?_ nofun fun hleaves => ?_
    · rw [given_binding]
      exact (Plain.binding (ih hσ).plain.unwrapped).term_of_tag nofun
    · rw [given_binding] at hleaves
      rcases hleaves.tag with htag | htag | htag | htag <;> cases htag
  | @choice names room condition yes no _ _ _ ihc ihy ihn =>
    have hn : ∀ tree, no.map (Tree.given σ) = some tree →
        ∃ branch, no = some branch ∧ branch.given σ = tree ∧ Stays names room σ branch := by
      intro tree htree
      obtain ⟨branch, hbranch, rfl⟩ := Option.map_eq_some_iff.1 htree
      exact ⟨branch, hbranch, rfl, ihn branch hbranch hσ⟩
    refine .of_term ?_ nofun fun hleaves => ?_
    · rw [given_choice]
      refine .conditional (ihc hσ).plain (ihy hσ).plain fun tree htree => ?_
      obtain ⟨branch, -, rfl, hstays⟩ := hn tree htree
      exact hstays.plain
    · rw [given_choice] at hleaves
      rcases hleaves.of_conditional with hyes | ⟨tree, htree, hno⟩
      · exact .yes ((ihy hσ).leaves hyes)
      · obtain ⟨branch, rfl, rfl, hstays⟩ := hn tree htree
        exact .no (hstays.leaves hno)
  | @case names room scrutinee clauses _ _ _ ihs ihp ihb =>
    refine .of_term ?_ nofun fun hleaves => ?_
    · rw [given_case]
      exact .selected (ihs hσ).plain (List.forall_mem_map.2 fun c hm => (ihp c hm hσ).plain)
        (List.forall_mem_map.2 fun c hm => (ihb c hm hσ).plain)
    · rw [given_case] at hleaves
      obtain ⟨_, hm, hbody⟩ := hleaves.of_selected
      obtain ⟨c, hc, rfl⟩ := List.mem_map.1 hm
      exact .body hc ((ihb c hc hσ).leaves hbody)
  | @operation names room tag operands ht _ ih =>
    refine .of_term ?_ ht.ne_exprs fun hleaves => ?_
    · rw [given_operation ht]
      exact .operated ht (List.forall_mem_map.2 fun operand hm => (ih operand hm hσ).plain)
    · rw [given_operation ht] at hleaves
      exact absurd hleaves (not_leavesLambda_operated ht _)

/-! ## Some names first, and others later -/

/-- What some names stand for, and what others do. -/
def orElse (σ τ : String → Option Tree) (name : String) : Option Tree := (σ name).or (τ name)

theorem orElse_without (params : List String) (σ τ : String → Option Tree) :
    orElse (without params σ) (without params τ) = without params (orElse σ τ) := by
  funext name
  unfold orElse without
  split <;> rfl

theorem Plain.given_eq_of_truth (h : Plain names room tree) {truth : Bool}
    (ht : tree.truth? = some truth) : tree.given σ = tree := by
  refine given_scalar (h.scalar_of_role ?_)
  unfold truth? at ht
  split at ht <;> first | (rename_i htag; rw [htag]; rfl) | cases ht

theorem conditional_given {condition yes : Tree} {no : Option Tree} (hτ : Literals τ)
    (hc : Plain names room condition) (hy : Plain names room yes)
    (hn : ∀ tree, no = some tree → Plain names room tree) :
    (conditional condition yes no).given τ =
      conditional (condition.given τ) (yes.given τ) (no.map (given τ)) := by
  have hcondition := (hc.given hτ).unwrapped
  cases htruth : condition.unwrapped.truth? with
  | none =>
    unfold conditional
    rw [htruth]
    exact given_choice condition yes no
  | some truth =>
    have hsame : (condition.given τ).unwrapped.truth? = some truth := by
      rw [hcondition, hc.unwrapped.given_eq_of_truth htruth, htruth]
    unfold conditional
    rw [htruth, hsame]
    cases truth with
    | true => exact (hy.given hτ).unwrapped.symm
    | false =>
      cases no with
      | none => exact given_scalar (.bare (.inl rfl))
      | some no => exact ((hn no rfl).given hτ).unwrapped.symm

theorem grouped_given {terms : List Tree}
    (hk : ∀ only, terms = [only] → only.Literal ∨ only.tag.MayTake) :
    (grouped terms).given τ = grouped (terms.map (given τ)) := by
  have hparen : (branch .paren [branch .exprs terms]).given τ = grouped (terms.map (given τ)) :=
    given_paren terms
  unfold grouped at hparen ⊢
  split
  · rename_i only
    split
    · exact hparen
    · rename_i hnot
      have hliteral := (hk only rfl).resolve_right hnot
      rw [List.map_cons, List.map_nil, given_scalar hliteral.scalar]
      exact (if_neg hnot).symm
  · exact hparen

theorem operated_given {tag : Tag} (ht : tag.IsOperation) {operands : List Tree}
    (h : ∀ operand ∈ operands, Plain names room operand) :
    (operated tag operands).given τ = operated tag (operands.map (given τ)) := by
  cases hresult : computed? tag operands with
  | none =>
    rw [operated, hresult, Option.getD_none]
    exact given_operation ht operands
  | some result =>
    obtain ⟨hliteral, hnumbers⟩ := literal_of_computed? hresult
    have hsame : operands.map (given τ) = operands := by
      refine (List.map_congr_left fun operand hm => ?_).trans (List.map_id _)
      exact given_scalar ((h operand hm).scalar_of_role (hnumbers operand hm ▸ rfl))
    rw [hsame, operated, hresult, Option.getD_some]
    exact given_scalar hliteral.scalar

/-- Patterns may be sequences of one term. -/
theorem selected_unwrapped (scrutinee : Tree) {clauses : List (Tree × Tree)}
    (h : ∀ c ∈ clauses, c.1.unwrapped.unwrapped = c.1.unwrapped) :
    selected scrutinee (clauses.map bare) = selected scrutinee clauses := by
  have hsame : (clauses.map bare).map bare =
      clauses.map bare := by
    rw [List.map_map]
    exact List.map_congr_left fun c hm => Prod.ext (h c hm) rfl
  unfold selected
  rw [hsame]

/-- What is decided for a literal stays so. -/
theorem decide?_given {value pattern : Tree} {holds : Bool} (hv : value.Literal)
    (hp : Plain names room pattern) (h : value.decide? pattern = some holds) :
    value.decide? (pattern.given τ) = some holds := by
  by_cases hr : pattern.tag.role = .scalar
  · rwa [given_scalar (hp.scalar_of_role hr)]
  · have hdecided := decide?_of_role hv hr
    rw [h] at hdecided
    split at hdecided
    · rename_i htag
      have hsame : (pattern.given τ).tag = pattern.tag := by
        obtain ⟨tag, parts⟩ := pattern
        rcases htag with htag | htag
        · obtain rfl : tag = Tag.list := htag
          rfl
        · obtain rfl : tag = Tag.record := htag
          show (operated .record _).tag = Tag.record
          rw [operated, computed?_record]
          rfl
      rw [hdecided, decide?_of_role hv (hsame ▸ hr), hsame, if_pos htag]
    · cases hdecided

theorem chosen?_given {value : Tree} {clauses : List (Tree × Tree)} {body : Tree}
    (hv : Plain names room value) (hp : ∀ c ∈ clauses, Plain names room c.1)
    (h : value.chosen? clauses = some body) :
    (value.given τ).chosen? (clauses.map (Prod.map (given τ) (given τ))) =
      some (body.given τ) := by
  obtain ⟨hliteral, hdecided, -⟩ := Term.mem_of_chosen? h
  have hscalar := hv.scalar_of_isLiteral hliteral
  rw [given_scalar hscalar, chosen?, if_pos hliteral]
  clear h
  induction clauses with
  | nil => cases hdecided
  | cons clause rest ih =>
    obtain ⟨hfirst, hrest⟩ := List.forall_mem_cons.1 hp
    obtain ⟨pattern, branch⟩ := clause
    unfold decided? at hdecided
    rw [List.map_cons, Prod.map_apply, decided?]
    split at hdecided
    · rename_i hholds
      cases hdecided
      rw [decide?_given ⟨hscalar, hliteral⟩ hfirst hholds]
    · rename_i hfails
      rw [decide?_given ⟨hscalar, hliteral⟩ hfirst hfails]
      exact ih hrest hdecided
    · cases hdecided

theorem selected_given {scrutinee : Tree} {clauses : List (Tree × Tree)} (hτ : Literals τ)
    (hs : Plain names room scrutinee) (hp : ∀ c ∈ clauses, Plain names room c.1)
    (hb : ∀ c ∈ clauses, Plain names room c.2) : (selected scrutinee clauses).given τ =
      selected (scrutinee.given τ) (clauses.map (Prod.map (given τ) (given τ))) := by
  have hpatterns : (clauses.map (Prod.map (given τ) (given τ))).map bare =
      (clauses.map bare).map (Prod.map (given τ) (given τ)) := by
    rw [List.map_map, List.map_map]
    refine List.map_congr_left fun c hm => Prod.ext ?_ rfl
    exact ((hp c hm).given hτ).unwrapped
  have hplain : ∀ c ∈ clauses.map bare, Plain names room c.1 :=
    List.forall_mem_map.2 fun c hm => (hp c hm).unwrapped
  have hvalue := (hs.given hτ).unwrapped
  cases hchosen : scrutinee.unwrapped.chosen? (clauses.map bare) with
  | some body =>
    have hlater := chosen?_given (τ := τ) hs.unwrapped hplain hchosen
    obtain ⟨-, -, pattern, hm⟩ := Term.mem_of_chosen? hchosen
    obtain ⟨c, hc, heq⟩ := List.mem_map.1 hm
    cases heq
    rw [selected, hchosen, selected, hpatterns, hvalue, hlater]
    exact ((hb c hc).given hτ).unwrapped.symm
  | none =>
    rw [selected, hchosen]
    refine (given_case scrutinee _).trans ?_
    rw [← hpatterns]
    refine selected_unwrapped _ (List.forall_mem_map.2 fun c hm => ?_)
    exact ((hp c hm).given hτ).plain.unwrapped_unwrapped

/-- Folding with literals in the place of some names, and then with literals in the place of others,
makes what folding with all of them does. -/
theorem Plain.given_given (h : Plain names room tree) (hσ : Literals σ) (hτ : Literals τ) :
    (tree.given σ).given τ = tree.given (orElse σ τ) := by
  induction h generalizing σ τ with
  | @scalar names room tree h => rw [given_scalar h, given_scalar h, given_scalar h]
  | @name names room name hname =>
    rw [given_name, given_name, orElse]
    cases hvalue : σ name with
    | none => exact given_name name
    | some value => exact given_scalar (hσ name value hvalue).scalar
  | @row names room tag terms ht _ _ _ ih =>
    rw [given_row ht, given_row ht, given_row ht, List.map_map]
    exact congrArg _ (List.map_congr_left fun term hm => ih term hm hσ hτ)
  | @paren names room terms h _ _ hk ih =>
    rw [given_paren, given_paren, grouped_given (mayTake_terms h hk hσ), List.map_map]
    exact congrArg _ (List.map_congr_left fun term hm => ih term hm hσ hτ)
  | @lambda names room params body _ ih =>
    rw [given_lambda, given_lambda, given_lambda, ih (hσ.without params) (hτ.without params),
      orElse_without]
  | @binding names room key value h ih =>
    have hvalue := h.given hσ
    rw [given_binding, given_binding, given_binding, ← (hvalue.plain.given hτ).unwrapped,
      (hvalue.plain.given hτ).plain.unwrapped_unwrapped, ih hσ hτ]
  | @choice names room condition yes no hc hy hn ihc ihy ihn =>
    have hbranches : (no.map (Tree.given σ)).map (Tree.given τ) =
        no.map (Tree.given (orElse σ τ)) := by
      cases no with
      | none => rfl
      | some no => exact congrArg some (ihn no rfl hσ hτ)
    rw [given_choice, given_choice, conditional_given hτ (hc.given hσ).plain (hy.given hσ).plain,
      hbranches, ihc hσ hτ, ihy hσ hτ]
    intro tree htree
    obtain ⟨branch, hbranch, rfl⟩ := Option.map_eq_some_iff.1 htree
    exact ((hn branch hbranch).given hσ).plain
  | @case names room scrutinee clauses hs hp hb ihs ihp ihb =>
    rw [given_case, given_case, selected_given hτ (hs.given hσ).plain, List.map_map, ihs hσ hτ]
    · refine congrArg _ (List.map_congr_left fun c hm => ?_)
      exact Prod.ext (ihp c hm hσ hτ) (ihb c hm hσ hτ)
    · exact List.forall_mem_map.2 fun c hm => ((hp c hm).given hσ).plain
    · exact List.forall_mem_map.2 fun c hm => ((hb c hm).given hσ).plain
  | @operation names room tag operands ht h ih =>
    rw [given_operation ht, given_operation ht, operated_given ht, List.map_map]
    · exact congrArg _ (List.map_congr_left fun operand hm => ih operand hm hσ hτ)
    · exact List.forall_mem_map.2 fun operand hm => ((h operand hm).given hσ).plain

end Tree

end Juxta
