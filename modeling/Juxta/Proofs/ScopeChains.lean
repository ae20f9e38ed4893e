import Juxta.Proofs.Scopes

/-!
# Chains of scopes

The open scopes are searched from one to its parent, by their numbers. A number that is out of date
would lead to another scope, to none, or in a circle. It never is: the outermost scope has no
parent, every other one a parent with a lower number, and a function names the scope that holds it.

* `Environment.Scope.Chained`, `Environment.Chained` : this of one scope and of all that are open,
  of which there are not too many;
* `Environment.Chained.enter`, `Chained.addWords`, `Chained.exit`, `Chained.define` : what keeps it;
* `Environment.Seeks` : a search that goes from scope to scope, by their numbers;
* `Environment.Chained.seeks` : the search for every name is one, so it ends and stays within the
  open scopes;
* `Environment.Chained.home_eq` : a function is found in the scope that it names.
-/

namespace Juxta.Environment

/-- The outermost scope has no parent, every other one a parent with a lower number, and the
functions of a scope were defined in it. -/
def Scope.Chained (scope : Scope) (number : Nat) : Prop :=
  (if number = 0 then scope.parent = none else ∃ parent ∈ scope.parent, parent < number) ∧
    ∀ word ∈ scope.words, ∀ home ∈ word.2.kind.home?, home = number

instance (scope : Scope) (number : Nat) : Decidable (scope.Chained number) :=
  inferInstanceAs (Decidable (_ ∧ _))

/-- All scopes are chained. The number of a scope is that of the scopes below it. -/
def AllChained : List Scope → Prop
  | [] => True
  | scope :: below => scope.Chained below.length ∧ AllChained below

instance decidableAllChained : (scopes : List Scope) → Decidable (AllChained scopes)
  | [] => .isTrue trivial
  | scope :: below =>
    have := decidableAllChained below
    inferInstanceAs (Decidable (scope.Chained below.length ∧ AllChained below))

/-- One scope is open at least, and no more than the limit, unless that is zero; all of them are
chained. -/
structure Chained (env : Environment) (limit : Nat) : Prop where
  limit_eq : env.limit = limit
  isOpen : 0 < env.depth
  depth_le : env.depth ≤ max 1 limit
  scopes : AllChained env.scopes

instance (env : Environment) (limit : Nat) : Decidable (env.Chained limit) :=
  decidable_of_iff
    (env.limit = limit ∧ 0 < env.depth ∧ env.depth ≤ max 1 limit ∧ AllChained env.scopes)
    ⟨fun h => ⟨h.1, h.2.1, h.2.2.1, h.2.2.2⟩,
      fun h => ⟨h.limit_eq, h.isOpen, h.depth_le, h.scopes⟩⟩

variable {env : Environment} {limit : Nat}

/-! ## Scopes by their numbers -/

/-- The scope above which so many others are open. -/
theorem scope?_of_append {above below : List Scope} {scope : Scope}
    (h : env.scopes = above ++ scope :: below) : env.scope? below.length = some scope := by
  have hdepth : env.depth = above.length + (below.length + 1) := by
    unfold depth
    rw [h, List.length_append, List.length_cons]
  have htop : env.top - below.length = above.length := by
    unfold top
    omega
  unfold scope?
  rw [if_pos (by omega), htop, h, List.getElem?_append_right (Nat.le_refl _), Nat.sub_self]
  rfl

theorem AllChained.of_append {above below : List Scope} (h : AllChained (above ++ below)) :
    AllChained below := by
  induction above with
  | nil => exact h
  | cons scope rest ih => exact ih h.2

/-- Every number below the depth is that of a scope, which is chained. -/
theorem Chained.scope (h : env.Chained limit) {number : Nat} (hlt : number < env.depth) :
    ∃ scope, env.scope? number = some scope ∧ scope.Chained number := by
  have hsplit := List.take_append_drop (env.top - number) env.scopes
  have hlength : (env.scopes.drop (env.top - number)).length = number + 1 := by
    rw [List.length_drop]
    unfold top depth at *
    omega
  obtain ⟨scope, below, hdrop⟩ := List.exists_cons_of_length_eq_add_one hlength
  rw [hdrop] at hsplit hlength
  obtain rfl : below.length = number := Nat.succ.inj hlength
  have hchained := h.scopes
  rw [← hsplit] at hchained
  exact ⟨scope, scope?_of_append hsplit.symm, hchained.of_append.1⟩

/-! ## What keeps the chain -/

/-- The numbers of the scopes below a new one. -/
theorem Chained.push (h : env.Chained limit) (hroom : env.depth < env.limit) (name : String)
    {parent : Option Nat} (hp : ∀ number ∈ parent, number < env.depth) :
    (env.push name parent).Chained limit := by
  have hlt : parent.getD env.top < env.depth := by
    cases parent with
    | none =>
      have := h.isOpen
      show env.depth - 1 < env.depth
      omega
    | some number => exact hp number rfl
  refine ⟨h.limit_eq, Nat.succ_pos _, ?_, ⟨?_, nofun⟩, h.scopes⟩
  · have := h.limit_eq
    show env.depth + 1 ≤ max 1 limit
    omega
  · have hne : env.scopes.length ≠ 0 := Nat.ne_of_gt h.isOpen
    rw [if_neg hne]
    exact ⟨_, rfl, hlt⟩

theorem Chained.enter (h : env.Chained limit) {name : String} {parent : Option Nat}
    {entered : Environment} (henter : env.enter name parent = .ok entered)
    (hp : ∀ number ∈ parent, number < env.depth) : entered.Chained limit := by
  unfold Environment.enter at henter
  split at henter
  · cases henter
  · rename_i hroom
    cases henter
    exact h.push (Nat.lt_of_not_le hroom) name hp

theorem Chained.addWord (h : env.Chained limit) {word : Word}
    (hw : ∀ home ∈ word.kind.home?, home = env.top) : (env.addWord word).Chained limit := by
  refine ⟨h.limit_eq, ?_, ?_, ?_⟩
  · rw [depth_addWord]
    exact h.isOpen
  · rw [depth_addWord]
    exact h.depth_le
  · obtain ⟨scopes, limit'⟩ := env
    cases scopes with
    | nil => exact absurd h.isOpen (Nat.lt_irrefl 0)
    | cons scope below =>
      obtain ⟨⟨hparent, hwords⟩, hbelow⟩ := h.scopes
      exact ⟨⟨hparent, Fields.forall_set (P := fun word : Word =>
        ∀ home ∈ word.kind.home?, home = below.length) hwords hw⟩, hbelow⟩

/-- Words that are no functions. -/
theorem Chained.addWords (h : env.Chained limit) {words : List Word}
    (hw : ∀ word ∈ words, word.kind.home? = none) : (env.addWords words).Chained limit := by
  induction words generalizing env with
  | nil => exact h
  | cons word rest ih =>
    obtain ⟨hfirst, hrest⟩ := List.forall_mem_cons.1 hw
    exact ih (h.addWord (by rw [hfirst]; exact nofun)) hrest

theorem Chained.exit (h : env.Chained limit) : env.exit.Chained limit := by
  have hchained := h
  unfold Environment.exit
  split
  · rename_i first outer rest hscopes
    obtain ⟨hlimit, -, hdepth, hall⟩ := h
    unfold depth at hdepth
    rw [hscopes] at hdepth hall
    refine ⟨hlimit, Nat.succ_pos _, ?_, hall.2⟩
    show rest.length + 1 ≤ max 1 limit
    rw [List.length_cons, List.length_cons] at hdepth
    omega
  · exact hchained

/-- A word of the innermost scope gets another meaning. -/
theorem Chained.define (h : env.Chained limit) (name : String) {kind : WordKind}
    (hk : ∀ home ∈ kind.home?, home = env.top) : (env.define env.top name kind).Chained limit := by
  obtain ⟨scopes, limit'⟩ := env
  obtain ⟨hlimit, hopen, hdepth, hall⟩ := h
  cases scopes with
  | nil => exact absurd hopen (Nat.lt_irrefl 0)
  | cons scope below =>
    have hindex : (Environment.mk (scope :: below) limit').top - below.length = 0 := by
      show below.length + 1 - 1 - below.length = 0
      omega
    have hlt : below.length < (Environment.mk (scope :: below) limit').depth :=
      Nat.lt_succ_self _
    show (Environment.define _ below.length name kind).Chained limit
    unfold Environment.define
    rw [if_pos hlt, hindex]
    obtain ⟨⟨hparent, hwords⟩, hbelow⟩ := hall
    refine ⟨hlimit, hopen, hdepth, ?_, hbelow⟩
    dsimp only
    split
    · exact ⟨hparent, Fields.forall_set (P := fun word : Word =>
        ∀ home ∈ word.kind.home?, home = below.length) hwords hk⟩
    · exact ⟨hparent, hwords⟩

/-- The outermost scope alone. -/
theorem chained_ofLexicon (lexicon : Lexicon) (limit : Nat) :
    (ofLexicon lexicon limit).Chained limit := by
  refine ⟨rfl, Nat.one_pos, Nat.le_max_left _ _, ⟨rfl, fun word hw home hh => ?_⟩, trivial⟩
  obtain ⟨builtin, -, rfl⟩ := List.mem_map.1 hw
  cases hh

/-! ## Searches -/

/-- A search for a name from the scope with a number on. It reads no scope that is not open. -/
inductive Seeks (env : Environment) (name : String) : Option Nat → Option (Word × Nat) → Prop where
  | ended : Seeks env name none none
  | found {number : Nat} {scope : Scope} {word : Word} (hscope : env.scope? number = some scope)
      (hword : scope.words.get? name = some word) :
      Seeks env name (some number) (some (word, number))
  | next {number : Nat} {scope : Scope} {result : Option (Word × Nat)}
      (hscope : env.scope? number = some scope) (hnone : scope.words.get? name = none)
      (hrest : Seeks env name scope.parent result) : Seeks env name (some number) result

/-- The search among some of the scopes. The induction is on these, and every parent is among those
below. -/
theorem seeks_search (name : String) {above below : List Scope} (h : AllChained below)
    (happend : env.scopes = above ++ below) {target : Nat} (hlt : target < below.length) :
    env.Seeks name (some target) (search name below below.length target) := by
  induction below generalizing above target with
  | nil => exact absurd hlt (Nat.not_lt_zero _)
  | cons scope rest ih =>
    have happend' : env.scopes = (above ++ [scope]) ++ rest := by
      rw [happend, List.append_assoc]
      rfl
    unfold search
    split
    · rename_i htarget
      obtain rfl : target = rest.length := Nat.succ.inj htarget
      have hscope := scope?_of_append happend
      cases hget : scope.words.get? name with
      | some word => exact .found hscope hget
      | none =>
        refine .next hscope hget ?_
        obtain ⟨hparent, -⟩ := h.1
        cases hp : scope.parent with
        | none => exact .ended
        | some parent =>
          rw [hp] at hparent
          have hbelow : parent < rest.length := by
            split at hparent
            · cases hparent
            · obtain ⟨_, hmem, hlt'⟩ := hparent
              cases hmem
              exact hlt'
          exact ih h.2 happend' hbelow
    · rename_i htarget
      have hrest : target < rest.length := by
        rw [List.length_cons] at hlt htarget
        omega
      exact ih h.2 happend' hrest

/-- The search for any name goes from open scope to open scope until it ends. -/
theorem Chained.seeks (h : env.Chained limit) (name : String) :
    env.Seeks name (some env.top) (env.find? name) :=
  seeks_search name h.scopes (List.nil_append env.scopes).symm
    (Nat.sub_lt h.isOpen Nat.one_pos)

/-- What is found is held by the scope whose number is returned. -/
theorem Seeks.holder {name : String} {start : Option Nat} {word : Word} {number : Nat}
    (h : env.Seeks name start (some (word, number))) :
    ∃ scope, env.scope? number = some scope ∧ scope.words.get? name = some word := by
  generalize hresult : some (word, number) = result at h
  induction h with
  | ended => cases hresult
  | found hscope hword =>
    cases hresult
    exact ⟨_, hscope, hword⟩
  | next _ _ _ ih => exact ih hresult

/-- A function is found in the scope in which it was defined. -/
theorem Chained.home_eq (h : env.Chained limit) {name : String} {word : Word} {number : Nat}
    (hfind : env.find? name = some (word, number)) :
    number < env.depth ∧ ∀ home ∈ word.kind.home?, home = number := by
  have hseeks := h.seeks name
  rw [hfind] at hseeks
  obtain ⟨scope, hscope, hword⟩ := hseeks.holder
  have hlt : number < env.depth := by
    unfold scope? at hscope
    split at hscope
    · assumption
    · cases hscope
  obtain ⟨scope', hscope', -, hwords⟩ := h.scope hlt
  cases hscope.symm.trans hscope'
  exact ⟨hlt, Fields.of_get? (P := fun word : Word => ∀ home ∈ word.kind.home?, home = number)
    hwords hword⟩

end Juxta.Environment
