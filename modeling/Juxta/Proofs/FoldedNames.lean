import Juxta.Proofs.FreeNames

/-!
# Folding and free names

Folding replaces the names that stand for something. What it leaves are names that stand for
themselves: parameters without an argument, and definitions whose body is still being parsed. The
first are bound again by the lambda that folding puts around what it has folded.

* `WordKind.Scoped`, `Environment.Scoped` : what names stand for has only some free names, apart
  from the parameters of a function and its own name;
* `Environment.Known`, `Environment.Allows` : names that folding replaces, and those that may occur
  before it;
* `Fold.Makes` : a step that adds nodes, with a condition on its result;
* `Descent.Resolves` : what the terms of a sequence may rely on;
* `Descent.makes_term`, `Descent.makes_terms`, `makes_fold` : of the names that may occur in terms,
  sequences and nodes, those that are known are gone.
-/

namespace Juxta

/-! ## What names stand for -/

/-- What a name stands for has only some free names. A parameter without an argument stands for
itself; a function may use its parameters and its own name, and is folded where it was defined. -/
def WordKind.Scoped (s : Store) (names : String → Prop) (key : String) (home : Nat) :
    WordKind → Prop
  | .value id => (id.isAbsent = true → names key) ∧ (id.isAbsent = false → s.Scoped names id)
  | .pending => True
  | .function params body scope => scope = home ∧ s.Scoped (NamesWith names (key :: params)) body
  | .builtin tag _ => tag.role = .terms

namespace Environment

/-- What the names of some scopes stand for has only some free names. The number of a scope is that
of the scopes below it. -/
def ScopedAmong (s : Store) (names : String → Prop) : List Scope → Prop
  | [] => True
  | scope :: below =>
    (∀ key word, scope.words.get? key = some word →
      word.kind.Scoped s names key below.length) ∧ ScopedAmong s names below

/-- What all names stand for has only some free names. -/
abbrev Scoped (s : Store) (names : String → Prop) (env : Environment) : Prop :=
  ScopedAmong s names env.scopes

/-- A name that stands for something, seen from a scope. -/
def KnownFrom (env : Environment) (target : Nat) (name : String) : Prop :=
  ∃ word number, search name env.scopes env.depth target = some (word, number) ∧
    word.kind ≠ .pending

/-- A name that stands for something, be it for a parameter. -/
abbrev Known (env : Environment) (name : String) : Prop := env.KnownFrom env.top name

/-- The names that may occur in a node before it is folded. -/
def Allows (env : Environment) (names : String → Prop) (name : String) : Prop :=
  names name ∨ env.Known name

end Environment

section

variable {s t : Store} {names names' : String → Prop}

theorem WordKind.Scoped.mono {key : String} {home : Nat} {kind : WordKind}
    (h : kind.Scoped s names key home) (hle : ∀ name, names name → names' name) :
    kind.Scoped s names' key home := by
  cases kind with
  | value id => exact ⟨fun ha => hle key (h.1 ha), fun hp => (h.2 hp).mono hle⟩
  | pending => trivial
  | function params body scope =>
    exact ⟨h.1, h.2.mono fun _ => NamesWith.mono hle (List.Subset.refl _)⟩
  | builtin tag arity => exact h

theorem WordKind.Scoped.extend {key : String} {home : Nat} {kind : WordKind}
    (h : kind.Scoped s names key home) (he : s.Extends t) : kind.Scoped t names key home := by
  cases kind with
  | value id => exact ⟨h.1, fun hp => (h.2 hp).extend he⟩
  | pending => trivial
  | function params body scope => exact ⟨h.1, h.2.extend he⟩
  | builtin tag arity => exact h

namespace Environment

variable {env : Environment}

theorem ScopedAmong.map {scopes : List Scope} (h : ScopedAmong s names scopes)
    (hw : ∀ (kind : WordKind) key home, kind.Scoped s names key home →
      kind.Scoped t names' key home) : ScopedAmong t names' scopes := by
  induction scopes with
  | nil => trivial
  | cons scope below ih =>
    exact ⟨fun key word hword => hw _ _ _ (h.1 key word hword), ih h.2⟩

theorem Scoped.mono (h : env.Scoped s names) (hle : ∀ name, names name → names' name) :
    env.Scoped s names' := ScopedAmong.map h fun _ _ _ hw => hw.mono hle

theorem Scoped.extend (h : env.Scoped s names) (he : s.Extends t) : env.Scoped t names :=
  ScopedAmong.map h fun _ _ _ hw => hw.extend he

/-- The word that a search ends with, and the scope in which it ends. -/
theorem of_search {name : String} {scopes : List Scope} (h : ScopedAmong s names scopes)
    {target : Nat} {word : Word} {number : Nat}
    (hs : search name scopes scopes.length target = some (word, number)) :
    word.kind.Scoped s names name number := by
  induction scopes generalizing target with
  | nil => cases hs
  | cons scope below ih =>
    unfold search at hs
    split at hs
    · rename_i hdepth
      obtain rfl := Nat.succ.inj hdepth
      split at hs
      · rename_i found hget
        cases hs
        exact h.1 name word hget
      · split at hs
        · exact ih h.2 hs
        · cases hs
    · exact ih h.2 hs

theorem Scoped.find? (h : env.Scoped s names) {name : String} {word : Word} {number : Nat}
    (hf : env.find? name = some (word, number)) : word.kind.Scoped s names name number :=
  of_search h hf

/-- A search ends in one of the scopes, and one that begins there ends there at once. -/
theorem search_found {name : String} {scopes : List Scope} {target : Nat} {word : Word}
    {number : Nat} (hs : search name scopes scopes.length target = some (word, number)) :
    number < scopes.length ∧ search name scopes scopes.length number = some (word, number) := by
  induction scopes generalizing target with
  | nil => cases hs
  | cons scope below ih =>
    have later : ∀ target, search name below below.length target = some (word, number) →
        number < below.length + 1 ∧
          search name (scope :: below) (below.length + 1) number = some (word, number) := by
      intro target hs
      obtain ⟨hlt, hfound⟩ := ih hs
      refine ⟨Nat.lt_succ_of_lt hlt, ?_⟩
      unfold search
      rw [if_neg (by omega)]
      exact hfound
    have hwhole := hs
    unfold search at hs
    split at hs
    · rename_i hdepth
      split at hs
      · rename_i found hget
        cases hs
        exact ⟨Nat.lt_of_succ_le (Nat.le_of_eq hdepth), hwhole⟩
      · split at hs
        · exact later _ hs
        · cases hs
    · exact later _ hs

/-! ## Scopes that are entered -/

/-- The words of a scope after some words have been added to it. -/
def wordsWith (fields : Fields Word) (words : List Word) : Fields Word :=
  words.foldl (fun fields word => fields.set word.name word) fields

theorem addWords_scopes (env : Environment) (scope : Scope) (below : List Scope)
    (h : env.scopes = scope :: below) (words : List Word) :
    (env.addWords words).scopes = { scope with words := wordsWith scope.words words } :: below := by
  induction words generalizing env scope with
  | nil => exact h
  | cons word rest ih =>
    refine ih (env.addWord word) { scope with words := scope.words.set word.name word } ?_
    unfold addWord
    rw [h]
    rfl

theorem get?_wordsWith {fields : Fields Word} {words : List Word} {key : String} {word : Word}
    (h : (wordsWith fields words).get? key = some word) :
    word ∈ words ∧ word.name = key ∨ fields.get? key = some word := by
  induction words generalizing fields with
  | nil => exact .inr h
  | cons first rest ih =>
    rcases ih h with ⟨hm, hname⟩ | hold
    · exact .inl ⟨List.mem_cons_of_mem _ hm, hname⟩
    · rw [Fields.get?_set] at hold
      split at hold
      · rename_i hkey
        cases hold
        exact .inl ⟨List.mem_cons_self, hkey.symm⟩
      · exact .inr hold

theorem get?_wordsWith_ne_none {fields : Fields Word} {words : List Word} {key : String}
    (h : (∃ word ∈ words, word.name = key) ∨ fields.get? key ≠ none) :
    (wordsWith fields words).get? key ≠ none := by
  induction words generalizing fields with
  | nil => exact h.resolve_left fun ⟨_, hm, _⟩ => absurd hm List.not_mem_nil
  | cons first rest ih =>
    refine ih ?_
    rw [Fields.get?_set]
    rcases h with ⟨word, hm, hname⟩ | hold
    · rcases List.mem_cons.1 hm with rfl | hm
      · rw [if_pos hname.symm]
        exact .inr nofun
      · exact .inl ⟨word, hm, hname⟩
    · split
      · exact .inr nofun
      · exact .inr hold

/-- A scope that is entered with some words. -/
def entered (env : Environment) (name : String) (parent : Option Nat) (words : List Word) :
    Environment := (env.push name parent).addWords words

theorem entered_scopes (env : Environment) (name : String) (parent : Option Nat)
    (words : List Word) :
    (env.entered name parent words).scopes =
      ⟨name, wordsWith [] words, some (parent.getD env.top)⟩ :: env.scopes :=
  addWords_scopes (env.push name parent) _ _ rfl words

/-- New words may stand for what has more free names than the old ones. -/
theorem Scoped.entered (h : env.Scoped s names) (hle : ∀ name, names name → names' name)
    {words : List Word} (hw : ∀ word ∈ words, word.kind.Scoped s names' word.name env.depth)
    (name : String) (parent : Option Nat) : (env.entered name parent words).Scoped s names' := by
  unfold Scoped
  rw [entered_scopes]
  refine ⟨fun key word hget => ?_, h.mono hle⟩
  rcases get?_wordsWith hget with ⟨hm, rfl⟩ | hold
  · exact hw word hm
  · cases hold

/-- New words hide those that had their names. -/
theorem find?_entered (env : Environment) (scope : String) (parent : Option Nat)
    (words : List Word) (name : String) :
    (env.entered scope parent words).find? name = match (wordsWith [] words).get? name with
      | some word => some (word, env.depth)
      | none => search name env.scopes env.depth (parent.getD env.top) := by
  unfold find? top depth
  rw [entered_scopes, List.length_cons, Nat.add_sub_cancel]
  rw [search, if_pos rfl]
  rfl

/-- New words are known. -/
theorem known_of_mem {words : List Word} (hk : ∀ word ∈ words, word.kind ≠ .pending)
    {name : String} (hm : name ∈ words.map Word.name) (scope : String) (parent : Option Nat) :
    (env.entered scope parent words).Known name := by
  have hne : (wordsWith [] words).get? name ≠ none :=
    get?_wordsWith_ne_none (.inl (List.mem_map.1 hm))
  obtain ⟨found, hfound⟩ := Option.ne_none_iff_exists'.1 hne
  refine ⟨found, env.depth, ?_, ?_⟩
  · show (env.entered scope parent words).find? name = _
    rw [find?_entered, hfound]
  · rcases get?_wordsWith hfound with ⟨hm, -⟩ | hold
    · exact hk found hm
    · cases hold

/-- What is known from the scope above which one is entered is known in it. -/
theorem KnownFrom.entered {parent : Option Nat} {name : String}
    (h : env.KnownFrom (parent.getD env.top) name) {words : List Word}
    (hk : ∀ word ∈ words, word.kind ≠ .pending) (scope : String) :
    (env.entered scope parent words).Known name := by
  obtain ⟨word, number, hs, hword⟩ := h
  show ∃ word number, (env.entered scope parent words).find? name = _ ∧ _
  rw [find?_entered]
  split
  · rename_i found hfound
    refine ⟨found, env.depth, rfl, ?_⟩
    rcases get?_wordsWith hfound with ⟨hm, -⟩ | hold
    · exact hk found hm
    · cases hold
  · exact ⟨word, number, hs, hword⟩

end Environment

/-! ## Steps -/

namespace Fold

variable {α β : Type}

/-- A step that only adds nodes to a store that has those of `s`. Its result, if there is one,
satisfies a condition together with the new store. -/
def Makes (s : Store) (step : Fold α) (post : Store → α → Prop) : Prop :=
  ∀ t a u, s.Extends t → Gives t step a u → t.Extends u ∧ post u a

theorem Makes.extend {step : Fold α} {post : Store → α → Prop} (h : Makes s step post)
    (he : s.Extends t) : Makes t step post := fun u a v hu => h u a v (he.trans hu)

theorem Makes.pure {a : α} {post : Store → α → Prop} (h : ∀ t, s.Extends t → post t a) :
    Makes s (Pure.pure a) post := by
  intro t b u ht hrun
  cases hrun
  exact ⟨.refl t, h t ht⟩

theorem Makes.throw (error : FoldError) (post : Store → α → Prop) :
    Makes s (MonadExcept.throw error) post := by
  intro t a u _ hrun
  cases hrun

theorem Makes.bind {step : Fold α} {next : α → Fold β} {P : Store → α → Prop}
    {Q : Store → β → Prop} (h : Makes s step P)
    (k : ∀ t a, s.Extends t → P t a → Makes t (next a) Q) : Makes s (step >>= next) Q := by
  intro t b v ht hrun
  unfold Gives at hrun
  rw [run_bind] at hrun
  split at hrun
  · rename_i a u hstep
    obtain ⟨hu, ha⟩ := h t a u ht hstep
    obtain ⟨hv, hb⟩ := k u a (ht.trans hu) ha u b v (.refl u) hrun
    exact ⟨hu.trans hv, hb⟩
  · cases hrun

theorem Makes.imp {step : Fold α} {P Q : Store → α → Prop} (h : Makes s step P)
    (k : ∀ t a, s.Extends t → P t a → Q t a) : Makes s step Q := by
  intro t a u ht hrun
  obtain ⟨hu, ha⟩ := h t a u ht hrun
  exact ⟨hu, k u a (ht.trans hu) ha⟩

theorem Makes.and_returns {step : Fold α} {P : Store → α → Prop} {Q : α → Prop}
    (h : Makes s step P) (hr : Returns step Q) : Makes s step fun t a => P t a ∧ Q a := by
  intro t a u ht hrun
  obtain ⟨hu, ha⟩ := h t a u ht hrun
  exact ⟨hu, ha, hr t a u hrun⟩

/-- The store as it is. -/
theorem makes_get : Makes s get fun t a => a = t := by
  intro t a u _ hrun
  cases hrun
  exact ⟨.refl t, rfl⟩

/-- A node with free names of some kind. -/
abbrev AScoped (names : String → Prop) (t : Store) (id : NodeId) : Prop := t.Scoped names id

/-- Nodes with free names of some kind. -/
abbrev AllScoped (names : String → Prop) (t : Store) (ids : List NodeId) : Prop :=
  ∀ id ∈ ids, t.Scoped names id

theorem makes_intern (node : Node) (coord : Option Coord) :
    Makes s (intern node coord) fun t id => t.node? id = some node := by
  intro t id u _ hrun
  cases hrun
  exact ⟨t.extends_intern node coord, t.node?_intern node coord⟩

theorem makes_rebuild (origin : NodeId) (tag : Tag) (children : List NodeId) :
    Makes s (rebuild origin tag children)
      fun t id => t.node? id = some (.branch tag children) := by
  intro t id u _ hrun
  cases hrun
  exact ⟨t.extends_intern _ _, t.node?_intern _ _⟩

/-- The node for some terms. -/
theorem makes_rebuild_terms {tag : Tag} (hr : tag.role = .terms) {children : List NodeId}
    (hc : AllScoped names s children) (origin : NodeId) :
    Makes s (rebuild origin tag children) (AScoped names) :=
  (makes_rebuild origin tag children).imp fun _ _ he hn =>
    .terms hn hr fun child hm => (hc child hm).extend he

theorem makes_idents (params : List String) :
    Makes s (idents params) fun t ids => t.Idents ids params := by
  induction params generalizing s with
  | nil => exact .pure fun _ _ => List.Forall₂.nil
  | cons param rest ih =>
    refine .bind (makes_intern _ _) fun t id _ hid => ?_
    refine .bind ih fun u ids hu hids => ?_
    exact .pure fun v hv => List.Forall₂.cons ((hu.trans hv).node?_of_some hid) (hids.extend hv)

/-- A lambda over some parameters binds them. -/
theorem makes_residual (unbound : List String) {body : NodeId}
    (h : s.Scoped (NamesWith names unbound) body) :
    Makes s (residual unbound body) (AScoped names) := by
  unfold residual
  split
  · rename_i hempty
    refine .pure fun t ht => (h.extend ht).mono fun name hname => hname.resolve_right fun hm => ?_
    rw [List.isEmpty_iff.1 hempty] at hm
    cases hm
  · refine .bind (makes_idents unbound) fun t ids ht hids => ?_
    refine .bind (makes_intern _ _) fun u list hu hlist => ?_
    have hbody := h.extend (ht.trans hu)
    have hlambda : ∀ v sequence, u.Extends v → v.Scoped (NamesWith names unbound) sequence →
        Makes v (intern (.branch .lambda [list, sequence]) none) (AScoped names) := by
      intro v sequence hv hsequence
      refine (makes_intern _ _).imp fun w id hw hn => .lambda hn ?_
      have hlist' := (hv.trans hw).node?_of_some hlist
      rw [Store.params_eq hn hlist' (hids.extend (hu.trans (hv.trans hw)))]
      exact hsequence.extend hw
    refine .bind makes_get fun _ v hv heq => ?_
    subst heq
    dsimp only
    split
    · exact .bind (.pure fun w hw => hbody.extend (hv.trans hw)) fun w sequence hw hsequence =>
        hlambda w sequence (hv.trans hw) hsequence
    · refine .bind ((makes_intern _ _).imp fun w id hw hn => .terms hn rfl ?_)
        fun w sequence hw hsequence => hlambda w sequence (hv.trans hw) hsequence
      exact List.forall_mem_singleton.2 (hbody.extend (hv.trans hw))

/-- The result of an operation on literals stands for itself. -/
theorem scalar_of_computed? {tag : Tag} {operands : List NodeId} {node : Node}
    (hc : s.computed? tag operands = some node) : node.tag.role = .scalar := by
  unfold Store.computed? at hc
  split at hc
  · simp only [bind, Option.bind_eq_some_iff] at hc
    obtain ⟨l, -, r, -, hc⟩ := hc
    split at hc <;>
      · obtain ⟨_, -, rfl⟩ := Option.map_eq_some_iff.1 hc
        rfl
  · split at hc
    · obtain ⟨_, -, rfl⟩ := Option.map_eq_some_iff.1 hc
      rfl
    · cases hc
  · cases hc

theorem makes_operation {tag : Tag} {operands : List NodeId}
    (h : ∀ t id, s.Extends t → t.node? id = some (.branch tag operands) → t.Scoped names id)
    (origin : NodeId) : Makes s (operation origin tag operands) (AScoped names) := by
  unfold operation
  refine .bind makes_get fun _ t ht heq => ?_
  subst heq
  split
  · rename_i result hc
    exact (makes_intern _ _).imp fun u id _ hn =>
      .scalar hn (scalar_of_computed? hc) (Store.children_of_computed? hc)
  · exact (makes_rebuild _ _ _).imp fun u id hu hn => h u id (ht.trans hu) hn

/-- A builtin function with fewer arguments than it takes is a lambda over the others. -/
theorem makes_builtin {tag : Tag} (hr : tag.role = .terms) {arguments : List NodeId}
    (h : AllScoped names s arguments) (origin : NodeId) (arity : Nat) :
    Makes s (builtin origin tag arity arguments) (AScoped names) := by
  unfold builtin
  dsimp only
  generalize (List.range' arguments.length (arity - arguments.length)).map _ = unbound
  refine .bind (makes_idents unbound) fun t ids ht hids => ?_
  have hbody : Makes t (operation origin tag (arguments ++ ids))
      (AScoped (NamesWith names unbound)) := by
    refine makes_operation (fun u id hu hn => .terms hn hr fun operand hm => ?_) origin
    rcases List.mem_append.1 hm with hm | hm
    · exact ((h operand hm).extend (ht.trans hu)).mono fun _ => .inl
    · exact (hids.extend hu).scoped operand hm
  exact .bind hbody fun u node _ hnode => makes_residual unbound hnode

end Fold

/-! ## Terms -/

/-- Parameters stand for their arguments, or for themselves. -/
theorem scoped_bindParams {arguments : List NodeId} (h : Fold.AllScoped names s arguments)
    (offset : Nat) (params : List String) (home : Nat) :
    ∀ word ∈ bindParams offset params arguments,
      word.kind.Scoped s (NamesWith names (params.drop arguments.length)) word.name home := by
  induction params generalizing offset arguments with
  | nil => exact List.forall_mem_nil _
  | cons param rest ih =>
    cases arguments with
    | nil =>
      refine List.forall_mem_cons.2 ⟨⟨fun _ => .inr List.mem_cons_self, nofun⟩, fun word hm => ?_⟩
      exact (ih h (offset + 1) word hm).mono fun _ =>
        NamesWith.mono (fun _ hname => hname) (List.subset_cons_self param rest)
    | cons argument others =>
      obtain ⟨hfirst, hrest⟩ := List.forall_mem_cons.1 h
      refine List.forall_mem_cons.2 ⟨⟨fun ha => ?_, fun _ => ?_⟩, ih hrest (offset + 1)⟩
      · exact absurd (hfirst.isAbsent.symm.trans ha) nofun
      · exact hfirst.mono fun _ => .inl

theorem bindParams_ne_pending (offset : Nat) (params : List String) (arguments : List NodeId) :
    ∀ word ∈ bindParams offset params arguments, word.kind ≠ .pending := by
  induction params generalizing offset arguments with
  | nil => exact List.forall_mem_nil _
  | cons param rest ih => exact List.forall_mem_cons.2 ⟨nofun, ih (offset + 1) arguments.tail⟩

theorem names_bindParams (offset : Nat) (params : List String) (arguments : List NodeId) :
    (bindParams offset params arguments).map Word.name = params := by
  induction params generalizing offset arguments with
  | nil => rfl
  | cons param rest ih => exact congrArg (param :: ·) (ih (offset + 1) arguments.tail)

namespace Descent

open Fold

/-- What the terms of a sequence may rely on: sequences below them and nodes in new scopes are
folded so that the names that are known are gone. -/
structure Resolves (d : Descent) (s : Store) (names : String → Prop) : Prop where
  env : d.env.Scoped s names
  below : 0 < d.bound → ∀ t ids, s.Extends t → AllScoped (d.env.Allows names) t ids →
    Makes t (d.below ids) fun u folded => AllScoped names u folded ∧ (ids ≠ [] → folded ≠ [])
  inside : ∀ t name parent words names' body, s.Extends t →
    (d.env.entered name parent words).Scoped t names' →
    t.Scoped ((d.env.entered name parent words).Allows names') body →
    Makes t (d.inside name parent words body) (AScoped names')

variable {d : Descent} {stand : Stand} {take : Nat → Fold (List NodeId × Nat)}

theorem Resolves.extend (h : d.Resolves s names) (he : s.Extends t) : d.Resolves t names :=
  ⟨h.env.extend he, fun hb u ids hu => h.below hb u ids (he.trans hu),
    fun u name parent words names' body hu =>
      h.inside u name parent words names' body (he.trans hu)⟩

/-- Folds the next terms as arguments. -/
abbrev TakesScoped (s : Store) (names : String → Prop)
    (take : Nat → Fold (List NodeId × Nat)) : Prop :=
  ∀ count, Makes s (take count) fun t taken => AllScoped names t taken.1

theorem makes_child (h : d.Resolves s names) (hb : 0 < d.bound) {id : NodeId}
    (hid : s.Scoped (d.env.Allows names) id) : Makes s (d.child id) (AScoped names) := by
  unfold child
  rw [hid.isAbsent]
  refine .bind (h.below hb s [id] (.refl s) (List.forall_mem_singleton.2 hid))
    fun t folded _ hfolded => .pure fun u hu => ?_
  obtain ⟨hall, hsome⟩ := hfolded
  cases folded with
  | nil => exact absurd rfl (hsome (List.cons_ne_nil _ _))
  | cons first rest => exact (hall first List.mem_cons_self).extend hu

/-- A child that may be missing. -/
theorem makes_child_or_absent (h : d.Resolves s names) (hb : 0 < d.bound) {id : NodeId}
    (hid : id.isAbsent = false → s.Scoped (d.env.Allows names) id) :
    Makes s (d.child id) fun t folded => folded.isAbsent = false → t.Scoped names folded := by
  cases habsent : id.isAbsent with
  | true =>
    unfold child
    rw [habsent]
    refine .pure fun t _ hp => ?_
    rw [habsent] at hp
    cases hp
  | false => exact (makes_child h hb (hid habsent)).imp fun _ _ _ hfolded _ => hfolded

theorem makes_children (h : d.Resolves s names) (hb : 0 < d.bound) {ids : List NodeId}
    (hids : AllScoped (d.env.Allows names) s ids) :
    Makes s (d.children ids) fun t folded =>
      AllScoped names t folded ∧ folded.length = ids.length := by
  induction ids generalizing s with
  | nil => exact .pure fun _ _ => ⟨List.forall_mem_nil _, rfl⟩
  | cons id rest ih =>
    obtain ⟨hid, hrest⟩ := List.forall_mem_cons.1 hids
    unfold children
    refine .bind (makes_child h hb hid) fun t folded ht hfolded => ?_
    refine .bind (ih (h.extend ht) fun other hm => (hrest other hm).extend ht)
      fun u others hu hothers => .pure fun v hv => ⟨?_, congrArg (· + 1) hothers.2⟩
    exact List.forall_mem_cons.2
      ⟨hfolded.extend (hu.trans hv), fun other hm => (hothers.1 other hm).extend hv⟩

/-- A body with arguments in the place of parameters. Apart from these it has the names that are
seen from the scope above which it is folded. -/
theorem makes_expand (h : d.Resolves s names) (name : String) (parent : Option Nat)
    (params : List String) {body : NodeId} {arguments : List NodeId}
    (hb : s.Scoped (NamesWith (fun name => names name ∨
      d.env.KnownFrom (parent.getD d.env.top) name) params) body)
    (ha : AllScoped names s arguments) :
    Makes s (d.expand name parent params body arguments) (AScoped names) := by
  have hpending := bindParams_ne_pending 0 params arguments
  unfold expand
  refine .bind (h.inside s name parent _ (NamesWith names (params.drop arguments.length)) body
    (.refl s) ?_ ?_) fun t folded _ hfolded => ?_
  · exact h.env.entered (fun _ => .inl) (scoped_bindParams ha 0 params _) name parent
  · refine hb.mono fun other hother => ?_
    rcases hother with (hname | hknown) | hparam
    · exact .inl (.inl hname)
    · exact .inr (hknown.entered hpending name)
    · refine .inr (Environment.known_of_mem hpending ?_ name parent)
      rw [names_bindParams]
      exact hparam
  · refine .bind makes_get fun _ u hu heq => ?_
    subst heq
    exact makes_residual _ (hfolded.extend hu).unwrap

/-- A result with the number of the terms that were taken. -/
abbrev TermScoped (names : String → Prop) (t : Store) (term : NodeId × Nat) : Prop :=
  t.Scoped names term.1

theorem makes_counted {step : Fold NodeId} (h : Makes s step (AScoped names)) (count : Nat) :
    Makes s (do return (← step, count)) (TermScoped names) :=
  .bind h fun _ _ _ hid => .pure fun _ => hid.extend

theorem makes_applyFollowing (h : d.Resolves s names) (htake : TakesScoped s names take)
    {lambda : NodeId} (hl : s.Scoped names lambda) (htag : s.tag? lambda = some .lambda) :
    Makes s (d.applyFollowing stand take lambda) (TermScoped names) := by
  unfold applyFollowing
  split
  · exact .pure fun _ => hl.extend
  · refine .bind makes_get fun _ t ht heq => ?_
    subst heq
    dsimp only
    obtain ⟨node, hnode, hlambda⟩ := Option.map_eq_some_iff.1 (ht.tag?_of_some htag)
    obtain ⟨list, body, rfl, hbody⟩ := (hl.extend ht).of_lambda hnode (hlambda ▸ rfl)
    refine .bind ((htake _).extend ht) fun u taken hu hargs => ?_
    obtain ⟨arguments, count⟩ := taken
    dsimp only
    split
    · exact .pure fun v hv => hl.extend (ht.trans (hu.trans hv))
    · refine .bind makes_get fun _ v hv heq => ?_
      subst heq
      have hle := hu.trans hv
      have hsame : v.body lambda = body := by
        unfold Store.body
        rw [hle.node?_of_some hnode]
        rfl
      rw [hsame]
      refine makes_counted (makes_expand (h.extend (ht.trans hle)) "lambda" none _ ?_
        fun argument hm => (hargs argument hm).extend hv) count
      exact (hbody.extend hle).mono fun _ => NamesWith.mono (fun _ => .inl) (List.Subset.refl _)

theorem makes_ident (h : d.Resolves s names) (htake : TakesScoped s names take) {id : NodeId}
    (hid : s.Scoped (d.env.Allows names) id) {node : Node} (hn : s.node? id = some node)
    (ht : node.tag = .ident) : Makes s (d.ident stand take id node) (TermScoped names) := by
  obtain ⟨name, rfl, hname⟩ := hid.of_name hn (ht ▸ rfl)
  -- a name that is left where it is must be one that may be used, as it is not known
  have hleft : names name → ∀ t, s.Extends t → t.Scoped names id :=
    fun hin t he => .ident (he.node?_of_some hn) hin
  unfold ident
  dsimp only
  split
  · rename_i bound _ _ hfind
    obtain ⟨habsent, hpresent⟩ := h.env.find? hfind
    split
    · rename_i ha
      exact .pure (hleft (habsent ha))
    · rename_i hp
      have hbound := hpresent (Bool.not_eq_true _ ▸ hp)
      refine .bind makes_get fun _ t ht heq => ?_
      subst heq
      split
      · rename_i htag
        exact makes_applyFollowing (h.extend ht) (fun count => (htake count).extend ht)
          (hbound.extend ht) htag
      · exact .pure fun u hu => hbound.extend (ht.trans hu)
  · rename_i params body scope _ _ hfind
    obtain ⟨rfl, hbody⟩ := h.env.find? hfind
    refine .bind (htake _) fun t taken ht hargs => ?_
    obtain ⟨arguments, count⟩ := taken
    refine makes_counted (makes_expand (h.extend ht) _ _ _ ?_ hargs) count
    -- where a function is folded its own name is known, as it was found there
    have hown : d.env.KnownFrom scope name := by
      refine ⟨_, scope, (Environment.search_found hfind).2, ?_⟩
      nofun
    refine (hbody.extend ht).mono fun other hother => ?_
    rcases hother with hin | hin
    · exact .inl (.inl hin)
    · rcases List.mem_cons.1 hin with rfl | hin
      · exact .inl (.inr hown)
      · exact .inr hin
  · rename_i tag arity _ _ hfind
    refine .bind (htake _) fun t taken ht hargs => ?_
    obtain ⟨arguments, count⟩ := taken
    exact makes_counted (makes_builtin (h.env.find? hfind) hargs id arity) count
  · rename_i hvalue hfunction hbuiltin
    refine .pure (hleft (hname.resolve_right ?_))
    rintro ⟨⟨_, kind, offset⟩, number, hs, hk⟩
    cases kind with
    | value bound => exact hvalue _ _ _ _ hs
    | pending => exact hk rfl
    | function params body scope => exact hfunction _ _ _ _ _ _ hs
    | builtin tag arity => exact hbuiltin _ _ _ _ _ hs

theorem makes_lambda (h : d.Resolves s names) {id : NodeId}
    (hid : s.Scoped (d.env.Allows names) id) {node : Node} (hn : s.node? id = some node)
    (ht : node.tag = .lambda) : Makes s (d.lambda id node) fun t lambda =>
      t.Scoped names lambda ∧ t.tag? lambda = some .lambda := by
  obtain ⟨list, body, rfl, hbody⟩ := hid.of_lambda hn (ht ▸ rfl)
  unfold lambda
  refine .bind makes_get fun _ t ht heq => ?_
  subst heq
  dsimp only
  have hsound := h.extend ht
  have hpending := bindParams_ne_pending 0 (t.params id) []
  refine .bind (hsound.inside t "lambda" none _ (NamesWith names (t.params id)) body (.refl t)
    ?_ ?_) fun u folded hu hfolded => ?_
  · exact hsound.env.entered (fun _ => .inl)
      (scoped_bindParams (List.forall_mem_nil _) 0 _ _) "lambda" none
  · refine (hbody.extend ht).mono fun name hname => ?_
    rcases hname with (hin | hknown) | hparam
    · exact .inl (.inl hin)
    · exact .inr (Environment.KnownFrom.entered hknown hpending "lambda")
    · exact .inl (.inr (ht.params_subset id hparam))
  · refine (makes_rebuild _ _ _).imp fun v lambda hv hlambda => ⟨?_, ?_⟩
    · have hfrom := ht.trans (hu.trans hv)
      have hsame : v.params id = v.params lambda :=
        Store.params_eq_of_child (hfrom.node?_of_some hn) hlambda rfl
      refine .lambda hlambda ((hfolded.extend hv).mono fun name => ?_)
      exact NamesWith.mono (fun _ hin => hin) (hsame ▸ (hu.trans hv).params_subset id)
    · unfold Store.tag?
      rw [hlambda]
      rfl

theorem makes_paren (h : d.Resolves s names) (hb : 0 < d.bound) (htake : TakesScoped s names take)
    {id : NodeId} (hid : s.Scoped (d.env.Allows names) id) {node : Node}
    (hn : s.node? id = some node) (ht : node.tag = .paren) :
    Makes s (d.paren stand take id node) (TermScoped names) := by
  obtain ⟨inner, rfl, hinner⟩ := hid.of_paren hn (ht ▸ rfl)
  unfold paren
  dsimp only
  refine .bind makes_get fun _ t ht heq => ?_
  subst heq
  refine .bind (h.below hb t _ ht ?_) fun u folded hu hfolded => ?_
  · have hchild : (Node.branch .paren [inner]).child 0 = inner := rfl
    rw [hchild]
    split
    · rename_i sequence hsequence
      split
      · rename_i hexprs
        obtain ⟨children, hnode, hc⟩ := (hinner.extend ht).of_terms hsequence (hexprs ▸ rfl)
        rw [hnode, Node.children_branch]
        exact hc
      · exact List.forall_mem_singleton.2 (hinner.extend ht)
    · exact List.forall_mem_nil _
  · refine .bind makes_get fun _ v hv heq => ?_
    subst heq
    have hall : AllScoped names v folded := fun id hm => (hfolded.1 id hm).extend hv
    have hkeep : Makes v (do
        let sequence ← rebuild inner .exprs folded
        return (← rebuild id .paren [sequence], 0)) (TermScoped names) := by
      refine .bind (makes_rebuild_terms rfl hall inner) fun w sequence _ hsequence => ?_
      exact makes_counted ((makes_rebuild _ _ _).imp fun x _ hx hn =>
        .paren hn (hsequence.extend hx)) 0
    have hle := ht.trans (hu.trans hv)
    split
    · rename_i only
      have honly : v.Scoped names only := hall only List.mem_cons_self
      split
      · rename_i htag
        exact makes_applyFollowing (h.extend hle) (fun count => (htake count).extend hle) honly htag
      · exact hkeep
      · exact hkeep
      · exact hkeep
      · exact hkeep
      · exact .pure fun _ => honly.extend
    · exact hkeep

/-- Whatever has been folded, without the sequence around a single term. -/
theorem makes_unwrap {step : Fold NodeId} (h : Makes s step (AScoped names)) :
    Makes s (do
      let folded ← step
      return (← get).unwrap folded) (AScoped names) := by
  refine .bind h fun t folded _ hfolded => .bind makes_get fun _ u hu heq => ?_
  subst heq
  exact .pure fun v hv => (hfolded.extend hu).unwrap.extend hv

theorem makes_conditional (h : d.Resolves s names) (hb : 0 < d.bound) {id : NodeId}
    (hid : s.Scoped (d.env.Allows names) id) {node : Node} (hn : s.node? id = some node)
    (ht : node.tag = .ifThen) : Makes s (d.conditional id node) (AScoped names) := by
  obtain ⟨condition, yes, no, rfl, hcondition, hyes, hno⟩ := hid.of_choice hn (ht ▸ rfl)
  unfold conditional
  refine .bind (makes_child h hb hcondition) fun t folded ht hfolded => ?_
  refine .bind makes_get fun _ u hu heq => ?_
  subst heq
  have hle := ht.trans hu
  split
  · rename_i truth _
    dsimp only
    generalize hbranch : (if truth = true then (Node.branch .ifThen [condition, yes, no]).child 1
      else (Node.branch .ifThen [condition, yes, no]).child 2) = branch
    split
    · exact (makes_intern _ _).imp fun v id _ hn => .scalar hn rfl rfl
    · rename_i hp
      have hscoped : s.Scoped (d.env.Allows names) branch := by
        have hpresent := Bool.not_eq_true _ ▸ hp
        subst hbranch
        cases truth with
        | false => exact hno hpresent
        | true => exact hyes hpresent
      exact makes_unwrap (makes_child (h.extend hle) hb (hscoped.extend hle))
  · refine .bind (makes_child_or_absent (h.extend hle) hb fun hp => (hyes hp).extend hle)
      fun v yes hv hyes => ?_
    refine .bind (makes_child_or_absent (h.extend (hle.trans hv)) hb fun hp =>
      (hno hp).extend (hle.trans hv)) fun w no hw hno => ?_
    refine (makes_rebuild _ _ _).imp fun x id hx hn => .choice hn ?_ ?_ ?_
    · exact hfolded.extend (hu.trans (hv.trans (hw.trans hx)))
    · exact fun hp => (hyes hp).extend (hw.trans hx)
    · exact fun hp => (hno hp).extend hx

/-- Clauses with a pattern that is folded and a body that is not. -/
abbrev ClausesScoped (d : Descent) (names : String → Prop) (t : Store) (clauses : List Clause) :
    Prop :=
  ∀ clause ∈ clauses, t.Scoped names clause.pattern ∧ t.Scoped (d.env.Allows names) clause.body

theorem ClausesScoped.extend {clauses : List Clause} (h : d.ClausesScoped names s clauses)
    (he : s.Extends t) : d.ClausesScoped names t clauses :=
  fun clause hm => ⟨(h clause hm).1.extend he, (h clause hm).2.extend he⟩

theorem makes_patterns (h : d.Resolves s names) (hb : 0 < d.bound) {clauses : List NodeId}
    (hc : AllScoped (d.env.Allows names) s clauses)
    (ht : ∀ clause ∈ clauses, s.tag? clause = some .clause) :
    Makes s (d.patterns clauses) (d.ClausesScoped names) := by
  induction clauses generalizing s with
  | nil => exact .pure fun _ _ => List.forall_mem_nil _
  | cons id rest ih =>
    obtain ⟨hid, hrest⟩ := List.forall_mem_cons.1 hc
    obtain ⟨htag, htags⟩ := List.forall_mem_cons.1 ht
    have later : ∀ t, s.Extends t → Makes t (d.patterns rest) (d.ClausesScoped names) :=
      fun t he => ih (h.extend he) (fun id hm => (hrest id hm).extend he) fun id hm =>
        he.tag?_of_some (htags id hm)
    unfold patterns
    refine .bind makes_get fun _ t ht heq => ?_
    subst heq
    split
    · exact later t ht
    · rename_i clause hclause
      have hrole : clause.tag.role = .clause := by
        obtain ⟨other, hother, hclauseTag⟩ := Option.map_eq_some_iff.1 (ht.tag?_of_some htag)
        obtain rfl := Option.some.inj (hclause.symm.trans hother)
        rw [hclauseTag]
        rfl
      obtain ⟨pattern, body, hnode, hpattern, hbody⟩ := (hid.extend ht).of_clause hclause hrole
      rw [hnode]
      refine .bind (makes_child (h.extend ht) hb hpattern) fun u folded hu hfolded => ?_
      refine .bind makes_get fun _ v hv heq => ?_
      subst heq
      refine .bind (later v (ht.trans (hu.trans hv))) fun w others hw hothers => ?_
      refine .pure fun x hx => List.forall_mem_cons.2 ⟨⟨?_, ?_⟩, ClausesScoped.extend hothers hx⟩
      · exact (hfolded.extend hv).unwrap.extend (hw.trans hx)
      · exact hbody.extend (hu.trans (hv.trans (hw.trans hx)))

/-- The clauses with their bodies. -/
theorem makes_bodies (h : d.Resolves s names) (hb : 0 < d.bound) {clauses : List Clause}
    (hc : d.ClausesScoped names s clauses) :
    Makes s (d.bodies clauses) fun t folded =>
      AllScoped names t folded ∧ ∀ clause ∈ folded, t.tag? clause = some .clause := by
  induction clauses generalizing s with
  | nil => exact .pure fun _ _ => ⟨List.forall_mem_nil _, List.forall_mem_nil _⟩
  | cons clause rest ih =>
    obtain ⟨⟨hpattern, hbody⟩, hrest⟩ := List.forall_mem_cons.1 hc
    unfold bodies
    refine .bind (makes_child h hb hbody) fun t body ht hfolded => ?_
    refine .bind (makes_rebuild _ _ _) fun u rebuilt hu hn => ?_
    have hle := ht.trans hu
    refine .bind (ih (h.extend hle) (ClausesScoped.extend hrest hle))
      fun v others hv hothers => .pure fun w hw => ⟨?_, ?_⟩
    · have hfrom := hv.trans hw
      have hscoped : w.Scoped names rebuilt := .clause (hfrom.node?_of_some hn)
        (hpattern.extend (hle.trans hfrom)) (hfolded.extend (hu.trans hfrom))
      exact List.forall_mem_cons.2 ⟨hscoped, fun id hm => (hothers.1 id hm).extend hw⟩
    · have htag : u.tag? rebuilt = some .clause := by
        unfold Store.tag?
        rw [hn]
        rfl
      exact List.forall_mem_cons.2
        ⟨(hv.trans hw).tag?_of_some htag, fun id hm => hw.tag?_of_some (hothers.2 id hm)⟩

theorem makes_select (h : d.Resolves s names) (hb : 0 < d.bound) {id : NodeId}
    (hid : s.Scoped (d.env.Allows names) id) {node : Node} (hn : s.node? id = some node)
    (ht : node.tag = .case) : Makes s (d.select id node) (AScoped names) := by
  obtain ⟨scrutinee, clauses, hnode, hscrutinee, hclauses, htags⟩ := hid.of_case hn (ht ▸ rfl)
  have hfirst : node.child 0 = scrutinee := hnode ▸ rfl
  have hrest : node.children.drop 1 = clauses := by
    rw [hnode, Node.children_branch]
    rfl
  unfold select
  rw [hfirst, hrest]
  refine .bind (makes_child h hb hscrutinee) fun t folded ht hfolded => ?_
  refine .bind makes_get fun _ u hu heq => ?_
  subst heq
  have hle := ht.trans hu
  dsimp only
  refine .bind (makes_patterns (h.extend hle) hb (fun id hm => (hclauses id hm).extend hle)
    fun id hm => hle.tag?_of_some (htags id hm)) fun v clauses hv hclauses => ?_
  refine .bind makes_get fun _ w hw heq => ?_
  subst heq
  have hknown := ClausesScoped.extend hclauses hw
  have hsound := h.extend (hle.trans (hv.trans hw))
  split
  · rename_i clause hclause
    have hm : clause ∈ clauses := mem_of_decided? (Option.ite_none_right_eq_some.1 hclause).2
    exact makes_unwrap (makes_child hsound hb (hknown clause hm).2)
  · refine .bind (makes_bodies hsound hb hknown) fun x bodies hx hbodies => ?_
    refine (makes_rebuild _ _ _).imp fun y id hy hn => .case hn ?_ ?_ ?_
    · exact hfolded.extend (hu.trans (hv.trans (hw.trans (hx.trans hy))))
    · exact fun id hm => (hbodies.1 id hm).extend hy
    · exact fun id hm => hy.tag?_of_some (hbodies.2 id hm)

theorem makes_single (h : d.Resolves s names) (hb : 0 < d.bound) {id : NodeId}
    (hid : s.Scoped (d.env.Allows names) id) {node : Node} (hn : s.node? id = some node)
    (hterm : node.tag ≠ .ident ∧ node.tag ≠ .lambda ∧ node.tag ≠ .paren) :
    Makes s (d.single id node) (AScoped names) := by
  have plain : ∀ tag, node.tag = tag → tag.role = .terms → ∃ children,
      node = .branch tag children ∧ AllScoped (d.env.Allows names) s children := by
    rintro tag rfl hr
    exact hid.of_terms hn hr
  unfold single
  split
  case h_6 ht | h_7 ht =>
    obtain ⟨children, rfl, hc⟩ := plain _ ht rfl
    rw [Node.children_branch]
    refine .bind (h.below hb s children (.refl s) hc) fun t folded _ hfolded => ?_
    exact makes_rebuild_terms rfl hfolded.1 id
  case h_8 ht =>
    obtain ⟨key, value, rfl, hkey, hvalue⟩ := hid.of_binding hn (ht ▸ rfl)
    refine .bind (makes_child h hb hvalue) fun t folded ht hfolded => ?_
    refine .bind makes_get fun _ u hu heq => ?_
    subst heq
    exact (makes_rebuild _ _ _).imp fun v id hv hn =>
      .binding hn (hkey.extend (ht.trans (hu.trans hv))) ((hfolded.extend hu).unwrap.extend hv)
  case h_9 ht => exact makes_conditional h hb hid hn ht
  case h_10 ht => exact makes_select h hb hid hn ht
  case h_11 =>
    have hrole : node.tag.role = .terms ∨ node.tag = .clause := by
      obtain ⟨hident, hlambda, hparen⟩ := hterm
      cases htag : node.tag <;> first | exact .inl rfl | exact .inr rfl | contradiction
    rcases hrole with hrole | hclause
    · obtain ⟨children, hnode, hc⟩ := plain _ rfl hrole
      rw [hnode, Node.children_branch]
      refine .bind (makes_children h hb hc) fun t operands _ hoperands => ?_
      exact makes_operation (fun u id hu hn => .terms hn hrole fun operand hm =>
        (hoperands.1 operand hm).extend hu) id
    · obtain ⟨pattern, body, rfl, hpattern, hbody⟩ := hid.of_clause hn (hclause ▸ rfl)
      have hparts : AllScoped (d.env.Allows names) s [pattern, body] :=
        List.forall_mem_cons.2 ⟨hpattern, List.forall_mem_singleton.2 hbody⟩
      refine .bind (makes_children h hb hparts) fun t operands _ hoperands => ?_
      obtain ⟨hall, hlength⟩ := hoperands
      obtain ⟨first, second, rfl⟩ := List.length_eq_two.1 hlength
      refine makes_operation (fun u id hu hn => .clause hn ?_ ?_) id
      · exact (hall first List.mem_cons_self).extend hu
      · exact (hall second (List.mem_cons_of_mem _ List.mem_cons_self)).extend hu
  all_goals
    rename_i ht
    exact .pure fun t he => (hid.of_scalar hn (ht ▸ rfl) names).extend he

/-- One term. -/
theorem makes_term (h : d.Resolves s names) (htake : TakesScoped s names take) {id : NodeId}
    (hid : s.Scoped (d.env.Allows names) id) :
    Makes s (d.term stand take id) (TermScoped names) := by
  unfold term
  refine .bind makes_get fun _ t ht heq => ?_
  subst heq
  have hsound := h.extend ht
  have htakes : TakesScoped t names take := fun count => (htake count).extend ht
  have hterm := hid.extend ht
  split
  · rename_i hnone
    obtain ⟨node, hnode⟩ := hterm.node?
    exact absurd (hnone.symm.trans hnode) nofun
  · rename_i node hnode
    dsimp only
    split
    · exact .bind (.throw _ fun _ _ => False) fun _ _ _ => False.elim
    · rename_i hlt
      have hb : 0 < d.bound := Nat.zero_lt_of_lt (Nat.lt_of_not_le hlt)
      split
      · exact makes_ident hsound htakes hterm hnode (by assumption)
      · refine .bind (makes_lambda hsound hterm hnode (by assumption)) fun u lambda hu hlambda => ?_
        exact makes_applyFollowing (hsound.extend hu) (fun count => (htakes count).extend hu)
          hlambda.1 hlambda.2
      · exact makes_paren hsound hb htakes hterm hnode (by assumption)
      · rename_i hident hlambda hparen
        exact makes_counted (makes_single hsound hb hterm hnode ⟨hident, hlambda, hparen⟩) 0

/-- Terms in a row. -/
theorem makes_terms (h : d.Resolves s names) {ids : List NodeId}
    (hids : AllScoped (d.env.Allows names) s ids) (stand : Stand) (count skip : Nat) :
    Makes s (d.terms ids stand count skip) fun t folded => AllScoped names t folded.1 := by
  induction ids generalizing s stand count skip with
  | nil => exact .pure fun _ _ => List.forall_mem_nil _
  | cons id rest ih =>
    obtain ⟨hid, hrest⟩ := List.forall_mem_cons.1 hids
    cases skip with
    | succ skip => exact ih h hrest stand count skip
    | zero =>
      cases count with
      | zero => exact .pure fun _ _ => List.forall_mem_nil _
      | succ count =>
        -- the terms after a function are its arguments: the hypothesis for `rest` serves both
        have htake : TakesScoped s names fun count => d.terms rest .argument count 0 :=
          fun count => ih h hrest .argument count 0
        unfold terms
        refine .bind (makes_term h htake hid) fun t term ht hterm => ?_
        obtain ⟨folded, taken⟩ := term
        refine .bind (ih (h.extend ht) (fun id hm => (hrest id hm).extend ht) stand count taken)
          fun u others hu hothers => .pure fun v hv => ?_
        exact List.forall_mem_cons.2
          ⟨hterm.extend (hu.trans hv), fun id hm => (hothers id hm).extend hv⟩

/-- The first term has a result. -/
theorem returns_terms_ne_nil (d : Descent) (ids : List NodeId) :
    Returns (d.terms ids .head ids.length 0) fun folded => ids ≠ [] → folded.1 ≠ [] := by
  cases ids with
  | nil => exact .pure fun h => absurd rfl h
  | cons id rest =>
    exact .bind (returns_any _) fun _ _ => .bind (returns_any _) fun _ _ =>
      .pure fun _ => List.cons_ne_nil _ _

/-- All terms. -/
theorem makes_all (h : d.Resolves s names) {ids : List NodeId}
    (hids : AllScoped (d.env.Allows names) s ids) :
    Makes s (do return (← d.terms ids .head ids.length 0).1)
      fun t folded => AllScoped names t folded ∧ (ids ≠ [] → folded ≠ []) := by
  refine .bind ((makes_terms h hids .head ids.length 0).and_returns (d.returns_terms_ne_nil ids))
    fun t folded _ hfolded => .pure fun u hu => ⟨fun id hm => ?_, hfolded.2⟩
  exact (hfolded.1 id hm).extend hu

end Descent

/-! ## Nodes -/

section

open Fold

variable {env : Environment}
  {inside : (name : String) → (parent : Option Nat) → List Word → NodeId → Fold NodeId}

theorem makes_foldSequence (henv : env.Scoped s names)
    (hinside : ∀ t name parent words names' body, s.Extends t →
      (env.entered name parent words).Scoped t names' →
      t.Scoped ((env.entered name parent words).Allows names') body →
      Makes t (inside name parent words body) (AScoped names'))
    (bound : Nat) {ids : List NodeId} (hids : AllScoped (env.Allows names) s ids) :
    Makes s (foldSequence env inside bound ids)
      fun t folded => AllScoped names t folded ∧ (ids ≠ [] → folded ≠ []) := by
  induction bound generalizing s ids with
  | zero =>
    let d : Descent := ⟨env, 0, fun _ => return [], inside⟩
    have hd : d.Resolves s names := ⟨henv, fun hb => absurd hb (Nat.lt_irrefl 0), hinside⟩
    exact d.makes_all hd hids
  | succ bound ih =>
    let d : Descent := ⟨env, bound + 1, foldSequence env inside bound, inside⟩
    have hd : d.Resolves s names :=
      ⟨henv, fun _ t ids ht hids => ih (henv.extend ht)
        (fun u name parent words names' body hu => hinside u name parent words names' body
          (ht.trans hu)) hids, hinside⟩
    exact d.makes_all hd hids

/-- The one node of a sequence that is folded by itself. -/
theorem makes_alone (henv : env.Scoped s names)
    (hinside : ∀ t name parent words names' body, s.Extends t →
      (env.entered name parent words).Scoped t names' →
      t.Scoped ((env.entered name parent words).Allows names') body →
      Makes t (inside name parent words body) (AScoped names'))
    {id : NodeId} (hid : s.Scoped (env.Allows names) id) :
    Makes s (do
      if id.isAbsent then return id
      return (← foldSequence env inside (id.index + 1) [id]).headD id) (AScoped names) := by
  rw [hid.isAbsent]
  refine .bind (makes_foldSequence henv hinside _ (List.forall_mem_singleton.2 hid))
    fun t folded _ hfolded => .pure fun u hu => ?_
  obtain ⟨hall, hsome⟩ := hfolded
  cases folded with
  | nil => exact absurd rfl (hsome (List.cons_ne_nil _ _))
  | cons first rest => exact (hall first List.mem_cons_self).extend hu

/-- Of the names that may occur in a node, folding leaves none that is known. -/
theorem makes_foldWithin (room : Nat) (henv : env.Scoped s names) {id : NodeId}
    (hid : s.Scoped (env.Allows names) id) :
    Makes s (foldWithin room env id) (AScoped names) := by
  -- every new scope takes from the room, so the hypothesis covers what is folded inside
  induction room generalizing s names env id with
  | zero =>
    unfold foldWithin
    exact makes_alone henv (fun _ _ _ _ _ _ _ _ _ => .throw _ _) hid
  | succ room ih =>
    unfold foldWithin
    exact makes_alone henv (fun t name parent words names' body _ hwords hbody =>
      ih hwords hbody) hid

theorem makes_fold (henv : env.Scoped s names) {id : NodeId}
    (hid : s.Scoped (env.Allows names) id) : Makes s (fold env id) (AScoped names) :=
  makes_foldWithin env.room henv hid

end

end

end Juxta
