import Juxta.Proofs.FoldedNames
import Juxta.Grammar.Builder

/-!
# Levels of parsing

Every definition and every lambda that is being parsed opens a scope, and nodes that wait on the
stack belong to the scope in which they were read. The free names of a node that waits are
parameters of its level or of an outer one, names of functions that are being defined there, or
names that its scope shows. When its level is folded the last of these are replaced.

* `Cell`, `Level` : what waits on the stack, level by level;
* `Level.names` : what a level adds to the names that stand for themselves;
* `Rule.Holds`, `Rule.leaves`, `Fits` : the cells that belong to a rule and the one that it leaves,
  and rules that wait above cells of the right kinds;
* `Environment.Shown` : names that have a word in a scope or in one that is seen from it;
* `Backed` : levels that agree with the scopes and the nodes of a builder;
* `Backed.scoped`, `Backed.allows` : what folding needs of them.
-/

namespace Juxta

/-! ## What waits -/

/-- What a node that waits is for. -/
inductive Cell where
  | term
  | clause
  /-- The key of a field. -/
  | key
deriving DecidableEq

/-- A node that may wait there, with free names of some kind. -/
def Cell.Suits (s : Store) (names : String → Prop) (id : NodeId) : Cell → Prop
  | .term => s.Scoped names id
  | .clause => s.Scoped names id ∧ s.tag? id = some .clause
  | .key => s.Scoped (fun _ => False) id

/-- A scope that is open, and what waits in it. -/
structure Level where
  /-- The name that is being defined, if it is the scope of a definition. -/
  name? : Option String
  params : List String
  /-- What waits, the last first. -/
  cells : List Cell

namespace Level

/-- The names that stand for themselves inside: the parameters, and a function that is being
defined. -/
def names (level : Level) : List String :=
  if level.params.isEmpty then [] else level.name?.toList ++ level.params

theorem names_subset (name? : Option String) (params : List String) (cells : List Cell) :
    names ⟨name?, params, cells⟩ ⊆ name?.toList ++ params := by
  unfold names
  split
  · exact List.nil_subset _
  · exact List.Subset.refl _

/-- One more parameter. -/
theorem names_append (name? : Option String) (params : List String) (param : String)
    (cells cells' : List Cell) :
    names ⟨name?, params, cells⟩ ⊆ names ⟨name?, params ++ [param], cells'⟩ ∧
      param ∈ names ⟨name?, params ++ [param], cells'⟩ := by
  have hsome : (params ++ [param]).isEmpty = false :=
    List.isEmpty_eq_false_iff.2 (List.append_ne_nil_of_right_ne_nil _ (List.cons_ne_nil _ _))
  unfold names
  rw [hsome]
  refine ⟨?_, List.mem_append_right _ (List.mem_append_right _ List.mem_cons_self)⟩
  split
  · exact List.nil_subset _
  · exact List.append_subset.2 ⟨List.subset_append_left _ _,
      List.subset_append_of_subset_right _ (List.subset_append_left _ _)⟩

/-- Some names with those of all levels. -/
def NamesIn (names : String → Prop) (levels : List Level) : String → Prop :=
  NamesWith names (levels.flatMap Level.names)

/-- How many nodes wait. -/
def height (levels : List Level) : Nat := (levels.flatMap Level.cells).length

theorem height_append (name? : Option String) (params : List String) (own below : List Cell)
    (outer : List Level) : height (⟨name?, params, own ++ below⟩ :: outer) =
      own.length + height (⟨name?, params, below⟩ :: outer) := by
  unfold height
  rw [List.flatMap_cons, List.flatMap_cons, List.append_assoc, List.length_append]

/-- The parameters of the innermost definition of a name. -/
def paramsOf? (name : String) (levels : List Level) : Option (List String) :=
  levels.findSome? fun level => if level.name? = some name then some level.params else none

end Level

/-! ## Rules that wait -/

namespace Rule

/-- The cells that belong to a rule when it is its turn, above a height. Those of rules that have to
do with scopes are known to `Fits`. -/
def Holds (height : Nat) (own : List Cell) : Rule → Prop
  | .sequence base _ | .interpolation base _ | .recordKey base _ | .list base _ _ =>
    base = height ∧ ∃ count, own = List.replicate count .term
  | .recordColon base _ => base = height ∧ ∃ count, own = .key :: List.replicate count .term
  | .recordValue base _ =>
    base = height ∧ ∃ count, own = .term :: .key :: List.replicate count .term
  | .clauses base _ => base = height ∧ ∃ count, own = List.replicate count .clause ++ [.term]
  | .ifCondition base _ => base = height ∧ own = [.term]
  | .ifBranch base _ => base = height ∧ own = [.term, .term]
  | .elseBranch base _ => base = height ∧ own = [.term, .term, .term]
  | .conditional | .unary _ | .primary _ => own = []
  | .operand waiting => own = List.replicate waiting.length .term
  | .operator waiting => own = List.replicate (waiting.length + 1) .term
  | .clauseColon | .negation _ | .paren _ => own = [.term]
  | .clauseBody => own = [.term, .term]
  | _ => False

/-- What a rule leaves on the stack. -/
def leaves : Rule → Cell
  | .clauseColon | .clauseBody => .clause
  | _ => .term

/-- The parameters of a definition of a name. -/
def paramsOf? (name : String) : Rule → Option (List String)
  | .letParams other params | .letBody other params => if other = name then some params else none
  | _ => none

end Rule

/-- Rules wait above cells of the right kinds. Each leaves one cell to the next, or none if it is a
definition. -/
inductive Fits : List Rule → List Level → Prop where
  | program : Fits [.program] [⟨none, [], []⟩]
  | programEnd : Fits [.programEnd] [⟨none, [], [.term]⟩]
  | holds {rule : Rule} {rest : List Rule} {name? : Option String} {params : List String}
      {own below : List Cell} {outer : List Level}
      (h : rule.Holds (Level.height (⟨name?, params, below⟩ :: outer)) own)
      (hrest : Fits rest (⟨name?, params, rule.leaves :: below⟩ :: outer)) :
      Fits (rule :: rest) (⟨name?, params, own ++ below⟩ :: outer)
  | expression {rest : List Rule} {name? : Option String} {params : List String}
      {below : List Cell} {outer : List Level}
      (hone : Fits rest (⟨name?, params, .term :: below⟩ :: outer))
      (hnone : Fits rest (⟨name?, params, below⟩ :: outer)) :
      Fits (.expression :: rest) (⟨name?, params, below⟩ :: outer)
  | letName {rest : List Rule} {level : Level} {outer : List Level}
      (hrest : Fits rest (level :: outer)) : Fits (.letName :: rest) (level :: outer)
  | letParams {rest : List Rule} {name : String} {params : List String} {level : Level}
      {outer : List Level} (hrest : Fits rest (level :: outer)) :
      Fits (.letParams name params :: rest) (⟨some name, params, []⟩ :: level :: outer)
  | letBody {rest : List Rule} {name : String} {params : List String} {level : Level}
      {outer : List Level} (hrest : Fits rest (level :: outer)) :
      Fits (.letBody name params :: rest) (⟨some name, params, [.term]⟩ :: level :: outer)
  | lambdaParams {rest : List Rule} {params : List String} {start : Coord} {level : Level}
      {outer : List Level}
      (hrest : Fits rest ({ level with cells := .term :: level.cells } :: outer)) :
      Fits (.lambdaParams params start :: rest) (⟨none, params, []⟩ :: level :: outer)
  | lambdaBody {rest : List Rule} {params : List String} {start : Coord} {level : Level}
      {outer : List Level}
      (hrest : Fits rest ({ level with cells := .term :: level.cells } :: outer)) :
      Fits (.lambdaBody params start :: rest) (⟨none, params, [.term]⟩ :: level :: outer)

/-- The innermost definition of a name, as the rules have it and as the levels have it. -/
theorem Fits.paramsOf?_eq {rules : List Rule} {levels : List Level} (h : Fits rules levels)
    (name : String) : rules.findSome? (Rule.paramsOf? name) = Level.paramsOf? name levels := by
  induction h with
  | program => rfl
  | programEnd => rfl
  | @holds rule rest name? params own below outer h _ ih =>
    have hnone : rule.paramsOf? name = none := by
      cases rule <;> first | rfl | exact h.elim
    rw [List.findSome?_cons, hnone]
    exact ih
  | expression _ _ ih _ => exact ih
  | letName _ ih => exact ih
  | letParams _ ih | letBody _ ih =>
    rw [List.findSome?_cons, Level.paramsOf?, List.findSome?_cons, ih]
    unfold Rule.paramsOf?
    simp only [Option.some.injEq]
    rfl
  | lambdaParams _ ih => exact ih
  | lambdaBody _ ih => exact ih

/-! ## Names that scopes show -/

namespace Environment

variable {name : String} {scope : Scope} {below : List Scope}

/-- A name that has a word in the innermost scope, or one that is not being defined in a scope that
is seen from it. -/
def Shown (scopes : List Scope) (name : String) : Prop :=
  ∃ word number, search name scopes scopes.length (scopes.length - 1) = some (word, number) ∧
    (word.kind = .pending → number = scopes.length - 1)

/-- A search that begins in the innermost scope. -/
theorem search_top (name : String) (scope : Scope) (below : List Scope) :
    search name (scope :: below) (scope :: below).length ((scope :: below).length - 1) =
      match scope.words.get? name with
      | some word => some (word, below.length)
      | none => match scope.parent with
        | some parent => search name below below.length parent
        | none => none := by
  show search name (scope :: below) (below.length + 1) below.length = _
  rw [search, if_pos rfl]
  rfl

/-- A word that is found in the innermost scope is one of its words. -/
theorem get?_of_search_top {word : Word}
    (hs : search name (scope :: below) (scope :: below).length ((scope :: below).length - 1) =
      some (word, below.length)) : scope.words.get? name = some word := by
  rw [search_top] at hs
  split at hs
  · rename_i found hget
    cases hs
    exact hget
  · split at hs
    · exact absurd (search_found hs).1 (Nat.lt_irrefl _)
    · cases hs

/-- New words of the innermost scope hide nothing. -/
theorem Shown.set (h : Shown (scope :: below) name) (key : String) (word : Word) :
    Shown ({ scope with words := scope.words.set key word } :: below) name := by
  obtain ⟨found, number, hs, hpending⟩ := h
  unfold Shown
  rw [search_top] at hs ⊢
  dsimp only
  rw [Fields.get?_set]
  by_cases hkey : name = key
  · rw [if_pos hkey]
    exact ⟨word, below.length, rfl, fun _ => rfl⟩
  · rw [if_neg hkey]
    exact ⟨found, number, hs, hpending⟩

end Environment

/-! ## Levels of a builder -/

open Environment (Scope Shown ScopedAmong)

/-- A level that agrees with a scope and with the nodes that wait in it. The only word of the scope
that is pending is the one that the next level defines. -/
structure Level.Backs (s : Store) (names : String → Prop) (inner : Option String) (level : Level)
    (scope : Scope) (below : List Scope) (own : List NodeId) : Prop where
  nodes : List.Forall₂
    (fun id cell => Cell.Suits s (fun name => names name ∨ Shown (scope :: below) name) id cell)
    own level.cells
  words : ∀ key word, scope.words.get? key = some word →
    word.kind.Scoped s names key below.length
  pending : ∀ key word, scope.words.get? key = some word → word.kind = .pending →
    inner = some key
  parent : scope.parent = if below.length = 0 then none else some (below.length - 1)

/-- Levels that agree with scopes and nodes, the innermost first. -/
inductive Backed (s : Store) (free : String → Prop) :
    Option String → List Level → List Scope → List NodeId → Prop where
  | nil {inner : Option String} : Backed s free inner [] [] []
  | cons {inner : Option String} {level : Level} {outer : List Level} {scope : Scope}
      {below : List Scope} {own rest nodes : List NodeId}
      (h : level.Backs s (Level.NamesIn free (level :: outer)) inner scope below own)
      (hrest : Backed s free level.name? outer below rest) (hnodes : nodes = own ++ rest) :
      Backed s free inner (level :: outer) (scope :: below) nodes

section

variable {s t : Store} {free free' names names' : String → Prop} {inner : Option String}
  {levels : List Level} {scopes : List Scope} {nodes : List NodeId}

theorem Cell.Suits.mono {id : NodeId} {cell : Cell} (h : cell.Suits s names id)
    (hle : ∀ name, names name → names' name) : cell.Suits s names' id := by
  cases cell with
  | term => exact Store.Scoped.mono h hle
  | clause => exact ⟨h.1.mono hle, h.2⟩
  | key => exact h

theorem Cell.Suits.extend {id : NodeId} {cell : Cell} (h : cell.Suits s names id)
    (he : s.Extends t) : cell.Suits t names id := by
  cases cell with
  | term => exact Store.Scoped.extend h he
  | clause => exact ⟨h.1.extend he, he.tag?_of_some h.2⟩
  | key => exact Store.Scoped.extend h he

theorem Level.namesIn_cons (free : String → Prop) (level : Level) (outer : List Level)
    {name : String} : Level.NamesIn free (level :: outer) name ↔
      name ∈ level.names ∨ Level.NamesIn free outer name := by
  unfold NamesIn NamesWith
  rw [List.flatMap_cons, List.mem_append]
  tauto

/-- More nodes are stored, and more names are free. -/
theorem Backed.mono (h : Backed s free inner levels scopes nodes) (he : s.Extends t)
    (hle : ∀ name, free name → free' name) : Backed t free' inner levels scopes nodes := by
  induction h with
  | nil => exact .nil
  | @cons inner level outer scope below own rest nodes h _ hnodes ih =>
    have hnames : ∀ name, Level.NamesIn free (level :: outer) name →
        Level.NamesIn free' (level :: outer) name :=
      fun _ => NamesWith.mono hle (List.Subset.refl _)
    refine .cons ⟨h.nodes.imp fun id cell hid => ?_, fun key word hword => ?_, h.pending,
      h.parent⟩ ih hnodes
    · exact (hid.extend he).mono fun _ => Or.imp_left (hnames _)
    · exact ((h.words key word hword).extend he).mono hnames

theorem Backed.length_eq (h : Backed s free inner levels scopes nodes) :
    nodes.length = Level.height levels ∧ scopes.length = levels.length := by
  induction h with
  | nil => exact ⟨rfl, rfl⟩
  | cons h _ hnodes ih =>
    refine ⟨?_, congrArg (· + 1) ih.2⟩
    unfold Level.height at ih ⊢
    rw [hnodes, List.length_append, ih.1, h.nodes.length_eq, List.flatMap_cons,
      List.length_append]

/-- What waits in the innermost level may be replaced by anything that suits it. -/
theorem Backed.replace {name? : Option String} {params : List String} {cells : List Cell}
    {outer : List Level}
    (h : Backed s free inner (⟨name?, params, cells⟩ :: outer) scopes nodes) :
    ∃ own rest, nodes = own ++ rest ∧
      List.Forall₂ (fun id cell => Cell.Suits s (fun name =>
        Level.NamesIn free (⟨name?, params, []⟩ :: outer) name ∨ Shown scopes name) id cell)
        own cells ∧
      ∀ own' cells', List.Forall₂ (fun id cell => Cell.Suits s (fun name =>
        Level.NamesIn free (⟨name?, params, []⟩ :: outer) name ∨ Shown scopes name) id cell)
        own' cells' →
        Backed s free inner (⟨name?, params, cells'⟩ :: outer) scopes (own' ++ rest) := by
  cases h with
  | @cons _ _ _ scope below own rest _ h hrest hnodes =>
    refine ⟨own, rest, hnodes, h.nodes, fun own' cells' hown => ?_⟩
    exact .cons ⟨hown, h.words, h.pending, h.parent⟩ hrest rfl

/-- What folding needs of the scopes. -/
theorem Backed.scoped (h : Backed s free inner levels scopes nodes) :
    ScopedAmong s (Level.NamesIn free levels) scopes := by
  induction h with
  | nil => trivial
  | @cons inner level outer scope below own rest nodes h _ _ ih =>
    refine ⟨h.words, ih.map fun kind key home hkind => hkind.mono fun name hname => ?_⟩
    exact (Level.namesIn_cons free level outer).2 (.inr hname)

/-- In the innermost level nothing is pending, so that folding replaces what its scope shows. -/
theorem Backed.allows {env : Environment} (h : Backed s free none levels env.scopes nodes)
    {name : String} (hn : names name ∨ Shown env.scopes name) : env.Allows names name := by
  refine hn.imp_right fun ⟨word, number, hs, hpending⟩ => ⟨word, number, hs, fun hk => ?_⟩
  generalize env.scopes = scopes at h hs hpending
  cases h with
  | nil => cases hs
  | cons h _ _ =>
    obtain rfl := hpending hk
    exact absurd (h.pending name word (Environment.get?_of_search_top hs) hk) nofun

/-- A name that is pending is being defined by a level: by the next one, or by one of these. If that
level has parameters then the name stands for itself. -/
theorem Backed.pending (h : Backed s free inner levels scopes nodes) {name : String} {word : Word}
    {number : Nat}
    (hs : Environment.search name scopes scopes.length (scopes.length - 1) = some (word, number))
    (hk : word.kind = .pending) :
    inner = some name ∨ ∃ params, Level.paramsOf? name levels = some params ∧
      (params ≠ [] → Level.NamesIn free levels name) := by
  induction h with
  | nil => cases hs
  | @cons inner level outer scope below own rest nodes h hrest hnodes ih =>
    rw [Environment.search_top] at hs
    split at hs
    · rename_i found hget
      cases hs
      exact .inl (h.pending name word hget hk)
    · refine .inr ?_
      unfold Level.paramsOf?
      rw [List.findSome?_cons]
      by_cases hname : level.name? = some name
      · rw [if_pos hname]
        refine ⟨level.params, rfl, fun hne => (Level.namesIn_cons free level outer).2 (.inl ?_)⟩
        unfold Level.names
        rw [List.isEmpty_eq_false_iff.2 hne, hname]
        exact List.mem_cons_self
      · rw [if_neg hname]
        split at hs
        · rename_i parent hparent
          obtain ⟨-, hbelow⟩ := Option.ite_none_left_eq_some.1 (h.parent.symm.trans hparent)
          cases hbelow
          obtain ⟨params, hparams, hin⟩ := (ih hs).resolve_left hname
          exact ⟨params, hparams, fun hne =>
            (Level.namesIn_cons free level outer).2 (.inr (hin hne))⟩
        · cases hs

/-! ## Scopes that are opened and closed -/

variable {env : Environment} {level : Level} {outer : List Level}

theorem Backed.scopes_ne_nil (h : Backed s free inner (level :: outer) scopes nodes) :
    scopes ≠ [] := by
  cases h
  exact List.cons_ne_nil _ _

/-- The name of a definition that begins is a word of the innermost scope. -/
theorem Backed.begin (h : Backed s free none (level :: outer) env.scopes nodes) (name : String) :
    Backed s free (some name) (level :: outer) (env.addWord (.pending name)).scopes nodes := by
  obtain ⟨scopes, limit⟩ := env
  cases h with
  | @cons _ _ _ scope below own rest _ h hrest hnodes =>
    refine .cons ⟨?_, fun key word hget => ?_, fun key word hget hk => ?_, h.parent⟩ hrest hnodes
    · exact h.nodes.imp fun id cell hid => hid.mono fun other =>
        Or.imp_right fun hshown => hshown.set name (.pending name)
    · rw [Fields.get?_set] at hget
      split at hget
      · cases hget
        trivial
      · exact h.words key word hget
    · rw [Fields.get?_set] at hget
      split at hget
      · rename_i hkey
        exact congrArg some hkey.symm
      · exact absurd (h.pending key word hget hk) nofun

/-- A scope without words. -/
theorem Backed.enter (h : Backed s free inner (level :: outer) env.scopes nodes) (name : String) :
    Backed s free none (⟨inner, [], []⟩ :: level :: outer) (env.push name none).scopes nodes := by
  have hne := h.scopes_ne_nil
  refine .cons ⟨.nil, nofun, nofun, ?_⟩ h (List.nil_append nodes).symm
  rw [if_neg (mt List.length_eq_zero_iff.1 hne)]
  rfl

/-- A parameter stands for itself. -/
theorem Backed.addParam {name? : Option String} {params : List String}
    (h : Backed s free none (⟨name?, params, []⟩ :: outer) env.scopes nodes) (param : String)
    (offset : Nat) :
    Backed s free none (⟨name?, params ++ [param], []⟩ :: outer)
      (env.addWord (.value param .absent offset)).scopes nodes := by
  obtain ⟨hsubset, hparam⟩ := Level.names_append name? params param [] []
  have hnames : ∀ name, Level.NamesIn free (⟨name?, params, []⟩ :: outer) name →
      Level.NamesIn free (⟨name?, params ++ [param], []⟩ :: outer) name := fun name hname =>
    (Level.namesIn_cons ..).2 (((Level.namesIn_cons ..).1 hname).imp_left fun hin => hsubset hin)
  obtain ⟨scopes, limit⟩ := env
  cases h with
  | @cons _ _ _ scope below own rest _ h hrest hnodes =>
    have hown := List.forall₂_nil_right_iff.1 h.nodes
    refine .cons ⟨?_, fun key word hget => ?_, fun key word hget hk => ?_, h.parent⟩ hrest hnodes
    · rw [hown]
      exact .nil
    · rw [Fields.get?_set] at hget
      split at hget
      · rename_i hkey
        cases hget
        exact ⟨fun _ => (Level.namesIn_cons ..).2 (.inl (hkey ▸ hparam)), nofun⟩
      · exact (h.words key word hget).mono hnames
    · rw [Fields.get?_set] at hget
      split at hget
      · cases hget
        cases hk
      · exact h.pending key word hget hk

/-- The innermost scope is left when nothing waits in it. -/
theorem Backed.exit {name? : Option String} {params : List String}
    (h : Backed s free none (⟨name?, params, []⟩ :: level :: outer) env.scopes nodes) :
    Backed s free name? (level :: outer) env.exit.scopes nodes := by
  obtain ⟨scopes, limit⟩ := env
  cases h with
  | cons h hrest hnodes =>
    cases h.nodes
    subst hnodes
    cases hrest with
    | cons h' hrest' hnodes' => exact .cons h' hrest' hnodes'

theorem define_scopes (scope : Scope) (below : List Scope) (limit : Nat) (name : String)
    (kind : WordKind) :
    (Environment.define ⟨scope :: below, limit⟩ below.length name kind).scopes =
      (match scope.words.get? name with
        | some word => { scope with words := scope.words.set name { word with kind } }
        | none => scope) :: below := by
  have hdepth : (⟨scope :: below, limit⟩ : Environment).depth = below.length + 1 := rfl
  unfold Environment.define Environment.top
  rw [hdepth, if_pos (Nat.lt_succ_self _), Nat.add_sub_cancel, Nat.sub_self]
  rfl

/-- A definition gets its meaning. -/
theorem Backed.define {name : String}
    (h : Backed s free (some name) (level :: outer) env.scopes nodes) {kind : WordKind}
    (hk : kind.Scoped s (Level.NamesIn free (level :: outer)) name env.top)
    (hp : kind ≠ .pending) :
    Backed s free none (level :: outer) (env.define env.top name kind).scopes nodes := by
  obtain ⟨scopes, limit⟩ := env
  cases h with
  | @cons _ _ _ scope below own rest _ h hrest hnodes =>
    show Backed _ _ _ _ (Environment.define ⟨scope :: below, limit⟩ below.length _ _).scopes _
    rw [define_scopes]
    split
    · rename_i word hword
      refine .cons ⟨?_, fun key other hget => ?_, fun key other hget hpending => ?_, h.parent⟩
        hrest hnodes
      · exact h.nodes.imp fun id cell hid => hid.mono fun other =>
          Or.imp_right fun hshown => hshown.set name { word with kind }
      · rw [Fields.get?_set] at hget
        split at hget
        · rename_i hkey
          cases hget
          exact hkey ▸ hk
        · exact h.words key other hget
      · rw [Fields.get?_set] at hget
        split at hget
        · cases hget
          exact absurd hpending hp
        · rename_i hkey
          exact absurd (Option.some.inj (h.pending key other hget hpending)).symm hkey
    · rename_i hnone
      refine .cons ⟨h.nodes, h.words, fun key other hget hpending => ?_, h.parent⟩ hrest hnodes
      obtain rfl := Option.some.inj (h.pending key other hget hpending)
      exact absurd (hnone.symm.trans hget) nofun

end

end Juxta
