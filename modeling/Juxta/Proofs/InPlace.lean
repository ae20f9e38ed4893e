import Juxta.Proofs.FoldedNames

/-!
# Folding in place

Folding with one store and one stack of scopes. A body is folded in a scope that is pushed for it
and popped after it, whether it could be folded or not, and a name means what it means in the scopes
that are open when it is met. A scope too many or too few would change what all later names mean.
Folding in place turns out to be folding, since it leaves the scopes as it finds them.

* `Workplace` : the store and the scopes that are worked on;
* `InPlace` : steps on both, which may fail; what they have changed remains if they do;
* `InPlace.within` : a step in a scope of its own;
* `InPlace.Descent` : the terms of a sequence, as in `Juxta.Descent`;
* `InPlace.fold` : a node by itself;
* `Environment.Opens` : the scopes that folding opens;
* `Fold.Grows` : a step that keeps what is stored;
* `InPlace.Mirrors` : a step in place that does what a step on the store does, and leaves the scopes
  as they are (`InPlace.mirrors_within` for a scope of its own);
* `InPlace.mirrors_fold` : folding in place.
-/

namespace Juxta

/-- The store and the open scopes. -/
structure Workplace where
  store : Store
  env : Environment

/-- A step that stores nodes, opens and closes scopes, and may fail. -/
abbrev InPlace := ExceptT FoldError (StateM Workplace)

namespace InPlace

variable {α : Type}

/-! ## Scopes -/

/-- A step that has to do only with the store. -/
def onStore (step : Fold α) : InPlace α := ExceptT.mk <| modifyGet fun w =>
  let (result, store) := step.run.run w.store
  (result, { w with store })

/-- Opens a scope, if there is room for one. -/
def enter (name : String) (parent : Option Nat) : InPlace Unit := do
  match (← get).env.enter name parent with
  | .error cause => throw (.runaway cause)
  | .ok env => modify fun w => { w with env }

def addWords (words : List Word) : InPlace Unit :=
  modify fun w => { w with env := w.env.addWords words }

def exit : InPlace Unit := modify fun w => { w with env := w.env.exit }

/-- Carries out a step in a new scope with some words. If there is no room for the scope, nothing is
done; otherwise it is closed after the step, also after one that has failed. -/
def within (name : String) (parent : Option Nat) (words : List Word) (step : InPlace α) :
    InPlace α := do
  enter name parent
  addWords words
  let result ← ExceptT.lift step.run
  exit
  MonadExcept.ofExcept result

/-! ## Terms -/

/-- How the terms of a sequence reach other sequences. -/
structure Descent where
  /-- Nodes of the sequence come before this number. -/
  bound : Nat
  below : List NodeId → InPlace (List NodeId)
  inside : (name : String) → (parent : Option Nat) → List Word → NodeId → InPlace NodeId

namespace Descent

def child (d : Descent) (id : NodeId) : InPlace NodeId := do
  if id.isAbsent then return id
  return (← d.below [id]).headD id

def children (d : Descent) : List NodeId → InPlace (List NodeId)
  | [] => return []
  | id :: rest => do
    let folded ← d.child id
    return folded :: (← d.children rest)

def expand (d : Descent) (name : String) (parent : Option Nat) (params : List String)
    (body : NodeId) (arguments : List NodeId) : InPlace NodeId := do
  let folded ← d.inside name parent (bindParams 0 params arguments) body
  onStore (Fold.residual (params.drop arguments.length) ((← get).store.unwrap folded))

def applyFollowing (d : Descent) (stand : Stand) (take : Nat → InPlace (List NodeId × Nat))
    (lambda : NodeId) : InPlace (NodeId × Nat) := do
  if stand = .argument then return (lambda, 0)
  let params := (← get).store.params lambda
  let (arguments, taken) ← take params.length
  if arguments.isEmpty then return (lambda, taken)
  let body := (← get).store.body lambda
  return (← d.expand "lambda" none params body arguments, taken)

/-- Folds a name, which means what it means in the scopes that are open now. -/
def ident (d : Descent) (stand : Stand) (take : Nat → InPlace (List NodeId × Nat)) (id : NodeId)
    (node : Node) : InPlace (NodeId × Nat) := do
  let name := node.text?.getD ""
  match (← get).env.find? name with
  | some (⟨_, .value bound, _⟩, _) =>
    if bound.isAbsent then return (id, 0)
    else if (← get).store.tag? bound = some .lambda then d.applyFollowing stand take bound
    else return (bound, 0)
  | some (⟨_, .function params body scope, _⟩, _) =>
    let (arguments, taken) ← take params.length
    return (← d.expand name (some scope) params body arguments, taken)
  | some (⟨_, .builtin tag arity, _⟩, _) =>
    let (arguments, taken) ← take arity
    return (← onStore (Fold.builtin id tag arity arguments), taken)
  | _ => return (id, 0)

def lambda (d : Descent) (id : NodeId) (node : Node) : InPlace NodeId := do
  let params := (← get).store.params id
  let body ← d.inside "lambda" none (bindParams 0 params []) (node.child 1)
  onStore (Fold.rebuild id .lambda [node.child 0, body])

def paren (d : Descent) (stand : Stand) (take : Nat → InPlace (List NodeId × Nat)) (id : NodeId)
    (node : Node) : InPlace (NodeId × Nat) := do
  let inner := node.child 0
  let terms := match (← get).store.node? inner with
    | some sequence => if sequence.tag = .exprs then sequence.children else [inner]
    | none => []
  let folded ← d.below terms
  let store := (← get).store
  let keep : InPlace (NodeId × Nat) := do
    let sequence ← onStore (Fold.rebuild inner .exprs folded)
    return (← onStore (Fold.rebuild id .paren [sequence]), 0)
  match folded with
  | [only] => match store.tag? only with
    | some .lambda => d.applyFollowing stand take only
    | some .ident | some .exprs | some .paren | none => keep
    | some _ => return (only, 0)
  | _ => keep

def conditional (d : Descent) (id : NodeId) (node : Node) : InPlace NodeId := do
  let condition ← d.child (node.child 0)
  let store := (← get).store
  match store.literalTruth? (store.unwrap condition) with
  | some truth =>
    let branch := if truth then node.child 1 else node.child 2
    if branch.isAbsent then onStore (Fold.intern ⟨.null, []⟩ none)
    else
      let folded ← d.child branch
      return (← get).store.unwrap folded
  | none =>
    let yes ← d.child (node.child 1)
    let no ← d.child (node.child 2)
    onStore (Fold.rebuild id .ifThen [condition, yes, no])

def patterns (d : Descent) : (clauses : List NodeId) → InPlace (List Juxta.Descent.Clause)
  | [] => return []
  | id :: rest => do
    match (← get).store.node? id with
    | none => d.patterns rest
    | some clause =>
      let folded ← d.child (clause.child 0)
      let pattern := (← get).store.unwrap folded
      return ⟨id, pattern, clause.child 1⟩ :: (← d.patterns rest)

def bodies (d : Descent) : (clauses : List Juxta.Descent.Clause) → InPlace (List NodeId)
  | [] => return []
  | clause :: rest => do
    let body ← d.child clause.body
    let rebuilt ← onStore (Fold.rebuild clause.node .clause [clause.pattern, body])
    return rebuilt :: (← d.bodies rest)

def select (d : Descent) (id : NodeId) (node : Node) : InPlace NodeId := do
  let scrutinee ← d.child (node.child 0)
  let value := (← get).store.unwrap scrutinee
  let clauses ← d.patterns (node.children.drop 1)
  let store := (← get).store
  let literal := match store.tag? value with
    | some tag => tag.isLiteral
    | none => false
  match if literal then Juxta.Descent.decided? store value clauses else none with
  | some clause =>
    let folded ← d.child clause.body
    return (← get).store.unwrap folded
  | none => onStore (Fold.rebuild id .case (scrutinee :: (← d.bodies clauses)))

def single (d : Descent) (id : NodeId) (node : Node) : InPlace NodeId := do
  match node.tag with
  | .num | .str | .bool | .null | .wildcard => return id
  | .exprs | .list => onStore (Fold.rebuild id node.tag (← d.below node.children))
  | .binding =>
    let folded ← d.child (node.child 1)
    onStore (Fold.rebuild id .binding [node.child 0, (← get).store.unwrap folded])
  | .ifThen => d.conditional id node
  | .case => d.select id node
  | tag => onStore (Fold.operation id tag (← d.children node.children))

def term (d : Descent) (stand : Stand) (take : Nat → InPlace (List NodeId × Nat)) (id : NodeId) :
    InPlace (NodeId × Nat) := do
  match (← get).store.node? id with
  | none => return (id, 0)
  | some node =>
    if d.bound ≤ id.index then throw (.unordered id)
    match node.tag with
    | .ident => d.ident stand take id node
    | .lambda => d.applyFollowing stand take (← d.lambda id node)
    | .paren => d.paren stand take id node
    | _ => return (← d.single id node, 0)

def terms (d : Descent) : List NodeId → (stand : Stand) → (count skip : Nat) →
    InPlace (List NodeId × Nat)
  | [], _, _, _ => return ([], 0)
  | _ :: rest, stand, count, skip + 1 => d.terms rest stand count skip
  | _, _, 0, 0 => return ([], 0)
  | id :: rest, stand, count + 1, 0 => do
    let (folded, taken) ← d.term stand (fun count => d.terms rest .argument count 0) id
    let (others, more) ← d.terms rest stand count taken
    return (folded :: others, 1 + taken + more)

end Descent

/-! ## Nodes -/

/-- Folds a sequence of nodes below `bound`, whose children are below their parents. -/
def foldSequence
    (inside : (name : String) → (parent : Option Nat) → List Word → NodeId → InPlace NodeId) :
    (bound : Nat) → List NodeId → InPlace (List NodeId)
  | 0, ids => do
    let d : Descent := ⟨0, fun _ => return [], inside⟩
    return (← d.terms ids .head ids.length 0).1
  | bound + 1, ids => do
    let d : Descent := ⟨bound + 1, foldSequence inside bound, inside⟩
    return (← d.terms ids .head ids.length 0).1

/-- Folds a node by itself, going down fewer than `levels` scopes. -/
def foldWithin : (levels : Nat) → NodeId → InPlace NodeId
  | 0, id => return id
  | levels + 1, id => do
    let inside name parent words body := within name parent words (foldWithin levels body)
    if id.isAbsent then return id
    return (← foldSequence inside (id.index + 1) [id]).headD id

/-- Folds a node by itself. Every scope takes from the room that is left, so that one level more
than there is room for is not reached. -/
def fold (id : NodeId) : InPlace NodeId := do foldWithin ((← get).env.room + 1) id

end InPlace

/-! ## Scopes -/

/-- The body of a function, and the scope in which it was defined. -/
def WordKind.expansion? : WordKind → Option (NodeId × Nat)
  | .function _ body scope => some (body, scope)
  | _ => none

/-- A scope with parameters that is opened for a body: below the innermost one, or, for a function
that a name stands for, below the one in which it was defined. -/
def Environment.Opens (env : Environment) (name : String) (parent : Option Nat) (words : List Word)
    (body : NodeId) : Prop :=
  (∀ word ∈ words, word.kind.home? = none) ∧ ∀ number ∈ parent,
    ∃ found ∈ env.find? name, found.1.kind.expansion? = some (body, number)

/-- The scope for the parameters of a lambda. -/
theorem Environment.opens_params (env : Environment) (name : String) (params : List String)
    (arguments : List NodeId) (body : NodeId) :
    env.Opens name none (bindParams 0 params arguments) body :=
  ⟨home?_bindParams 0 params arguments, nofun⟩

/-- The scope for the parameters of a function. -/
theorem Environment.opens_function {env : Environment} {name : String} {word : Word}
    {holder scope : Nat} {params : List String} {body : NodeId}
    (hfind : env.find? name = some (word, holder)) (hkind : word.kind = .function params body scope)
    (arguments : List NodeId) :
    env.Opens name (some scope) (bindParams 0 params arguments) body := by
  refine ⟨home?_bindParams 0 params arguments, fun number hnumber => ⟨_, hfind, ?_⟩⟩
  cases hnumber
  rw [hkind]
  rfl

/-- The scope that was entered is left. -/
theorem Environment.exit_entered {env : Environment} (h : 0 < env.depth) (name : String)
    (parent : Option Nat) (words : List Word) : (env.entered name parent words).exit = env := by
  have hscopes := env.entered_scopes name parent words
  have hlimit : (env.entered name parent words).limit = env.limit := limit_addWords _ words
  obtain ⟨outer, rest, houter⟩ := List.exists_cons_of_length_pos h
  generalize env.entered name parent words = inner at hscopes hlimit
  obtain ⟨scopes, limit⟩ := inner
  obtain ⟨below, limit'⟩ := env
  obtain rfl : scopes = _ := hscopes
  obtain rfl : limit = limit' := hlimit
  obtain rfl : below = outer :: rest := houter
  rfl

/-! ## Steps on a store -/

namespace Fold

variable {α β : Type}

/-- A step that keeps the nodes that are stored, and their places, whether it fails or not. -/
def Grows (step : Fold α) : Prop := ∀ s : Store, s.Extends (step.run.run s).2

theorem grows_pure (a : α) : Grows (pure a) := Store.Extends.refl

theorem grows_get : Grows get := Store.Extends.refl

theorem Grows.bind {step : Fold α} {next : α → Fold β} (h : Grows step)
    (k : ∀ a, Grows (next a)) : Grows (step >>= next) := by
  intro s
  have hstep := h s
  rw [run_bind]
  generalize step.run.run s = out at hstep
  obtain ⟨result, t⟩ := out
  cases result with
  | ok a => exact hstep.trans (k a t)
  | error error => exact hstep

theorem grows_intern (node : Node) (coord : Option Coord) : Grows (intern node coord) :=
  fun s : Store => s.extends_intern node coord

theorem grows_rebuild (origin : NodeId) (tag : Tag) (children : List NodeId) :
    Grows (rebuild origin tag children) := fun s => s.extends_intern _ _

theorem grows_idents (names : List String) : Grows (idents names) := by
  induction names with
  | nil => exact grows_pure []
  | cons name rest ih =>
    exact .bind (grows_intern _ _) fun _ => .bind ih fun _ => grows_pure _

theorem grows_residual (unbound : List String) (body : NodeId) :
    Grows (residual unbound body) := by
  unfold residual
  split
  · exact grows_pure body
  · refine .bind (grows_idents unbound) fun _ => .bind (grows_intern _ _) fun _ => ?_
    refine .bind grows_get fun s => ?_
    split
    · exact .bind (grows_pure _) fun _ => grows_intern _ _
    · exact .bind (grows_intern _ _) fun _ => grows_intern _ _

theorem grows_operation (origin : NodeId) (tag : Tag) (operands : List NodeId) :
    Grows (operation origin tag operands) := by
  refine .bind grows_get fun s => ?_
  split
  · exact grows_intern _ _
  · exact grows_rebuild _ _ _

theorem grows_builtin (origin : NodeId) (tag : Tag) (arity : Nat) (arguments : List NodeId) :
    Grows (builtin origin tag arity arguments) :=
  .bind (grows_idents _) fun _ => .bind (grows_operation _ _ _) fun _ => grows_residual _ _

end Fold

/-! ## Steps in place -/

namespace InPlace

variable {α β : Type} {env : Environment}

/-- A step after another one goes on with its result and what it has changed, unless it fails. -/
theorem run_bind (step : InPlace α) (next : α → InPlace β) (w : Workplace) :
    (step >>= next).run.run w = match step.run.run w with
      | (.ok a, w) => (next a).run.run w
      | (.error error, w) => (.error error, w) := by
  rw [ExceptT.run_bind, StateT.run_bind]
  generalize step.run.run w = out
  obtain ⟨result, w⟩ := out
  cases result <;> rfl

/-- A step in place does to the store what a step on the store does, with the same result or the
same failure. It leaves the scopes as they are in `env`, and keeps the nodes that are stored. -/
def Mirrors (env : Environment) (x : InPlace α) (y : Fold α) : Prop :=
  ∀ s, x.run.run ⟨s, env⟩ = ((y.run.run s).1, ⟨(y.run.run s).2, env⟩) ∧
    s.Extends (y.run.run s).2

theorem Mirrors.pure (a : α) : Mirrors env (Pure.pure a) (Pure.pure a) :=
  fun s => ⟨rfl, .refl s⟩

/-- What would come after a failure makes no difference. -/
theorem Mirrors.throw (error : FoldError) (next : β → InPlace α) (next' : β → Fold α) :
    Mirrors env (MonadExcept.throw error >>= next) (MonadExcept.throw error >>= next') :=
  fun s => ⟨rfl, .refl s⟩

theorem Mirrors.bind {x : InPlace α} {y : Fold α} {next : α → InPlace β} {next' : α → Fold β}
    (h : Mirrors env x y) (k : ∀ a, Mirrors env (next a) (next' a)) :
    Mirrors env (x >>= next) (y >>= next') := by
  intro s
  obtain ⟨hrun, hextends⟩ := h s
  rw [run_bind, Fold.run_bind, hrun]
  generalize y.run.run s = out at hextends
  obtain ⟨result, t⟩ := out
  cases result with
  | ok a =>
    obtain ⟨hrun', hextends'⟩ := k a t
    exact ⟨hrun', hextends.trans hextends'⟩
  | error error => exact ⟨rfl, hextends⟩

theorem Mirrors.get {next : Workplace → InPlace α} {next' : Store → Fold α}
    (k : ∀ s, Mirrors env (next ⟨s, env⟩) (next' s)) :
    Mirrors env (MonadState.get >>= next) (MonadState.get >>= next') := fun s => k s s

/-- What is looked up in the scopes does not depend on the store. -/
theorem Mirrors.lookup {next : Workplace → InPlace α} {y : Fold α}
    (k : ∀ s, Mirrors env (next ⟨s, env⟩) y) :
    Mirrors env (MonadState.get >>= next) y := fun s => k s s

theorem mirrors_onStore {step : Fold α} (h : step.Grows) : Mirrors env (onStore step) step :=
  fun s => ⟨rfl, h s⟩

/-- A scope that there is no room for changes nothing. -/
theorem run_enter_of_error {name : String} {parent : Option Nat} {cause : Runaway}
    (h : env.enter name parent = .error cause) (s : Store) :
    (enter name parent).run.run ⟨s, env⟩ = (.error (.runaway cause), ⟨s, env⟩) := by
  show (match env.enter name parent with
    | .error cause => throw (.runaway cause)
    | .ok env => modify fun w => { w with env } : InPlace Unit).run.run ⟨s, env⟩ = _
  rw [h]
  rfl

theorem run_enter_of_ok {name : String} {parent : Option Nat} {next : Environment}
    (h : env.enter name parent = .ok next) (s : Store) :
    (enter name parent).run.run ⟨s, env⟩ = (.ok (), ⟨s, next⟩) := by
  show (match env.enter name parent with
    | .error cause => throw (.runaway cause)
    | .ok env => modify fun w => { w with env } : InPlace Unit).run.run ⟨s, env⟩ = _
  rw [h]
  rfl

/-- Without room for a scope nothing is done. -/
theorem run_within_of_error {name : String} {parent : Option Nat} {cause : Runaway}
    (h : env.enter name parent = .error cause) (words : List Word) (x : InPlace α) (s : Store) :
    (within name parent words x).run.run ⟨s, env⟩ = (.error (.runaway cause), ⟨s, env⟩) := by
  unfold within
  rw [run_bind, run_enter_of_error h]

/-- A step in a scope of its own, which is closed whatever the result is. -/
theorem run_within_of_ok {name : String} {parent : Option Nat} {next : Environment}
    (h : env.enter name parent = .ok next) (words : List Word) (x : InPlace α) (s : Store) :
    (within name parent words x).run.run ⟨s, env⟩ =
      ((x.run.run ⟨s, next.addWords words⟩).1,
        ⟨(x.run.run ⟨s, next.addWords words⟩).2.store,
          (x.run.run ⟨s, next.addWords words⟩).2.env.exit⟩) := by
  have hlift : (ExceptT.lift x.run : InPlace (Except FoldError α)).run.run ⟨s, next.addWords words⟩
      = (.ok (x.run.run ⟨s, next.addWords words⟩).1, (x.run.run ⟨s, next.addWords words⟩).2) := rfl
  unfold within
  rw [run_bind, run_enter_of_ok h]
  show (ExceptT.lift x.run >>= fun result => do
    exit
    MonadExcept.ofExcept result : InPlace α).run.run ⟨s, next.addWords words⟩ = _
  rw [run_bind, hlift]
  generalize x.run.run ⟨s, next.addWords words⟩ = out
  obtain ⟨result, w⟩ := out
  cases result <;> rfl

/-- A step in a scope of its own. The scope is gone again in all cases. -/
theorem mirrors_within (hpos : 0 < env.depth) {name : String} {parent : Option Nat}
    {words : List Word} {body : NodeId} {x : InPlace NodeId}
    {inside : Environment → NodeId → Fold NodeId}
    (h : env.depth < env.limit → Mirrors (env.entered name parent words) x
      (inside (env.entered name parent words) body)) :
    Mirrors env (within name parent words x) (foldEntered inside env name parent words body) := by
  intro s
  unfold foldEntered
  by_cases hfull : env.limit ≤ env.depth
  · have henter : env.enter name parent = .error ⟨env.limit, name⟩ := if_pos hfull
    rw [run_within_of_error henter, henter]
    exact ⟨rfl, .refl s⟩
  · have henter : env.enter name parent = .ok (env.push name parent) := if_neg hfull
    obtain ⟨hrun, hextends⟩ := h (Nat.lt_of_not_le hfull) s
    have hexit := Environment.exit_entered hpos name parent words
    unfold Environment.entered at hrun hextends hexit
    rw [run_within_of_ok henter, henter, hrun, hexit]
    exact ⟨rfl, hextends⟩

namespace Descent

/-! ## Terms in place -/

/-- The terms of a sequence reach other sequences in place as they do without. -/
structure Follows (d : Descent) (e : Juxta.Descent) : Prop where
  bound : d.bound = e.bound
  below : ∀ ids, Mirrors e.env (d.below ids) (e.below ids)
  inside : ∀ name parent words body, e.env.Opens name parent words body →
    Mirrors e.env (d.inside name parent words body) (e.inside name parent words body)

variable {d : Descent} {e : Juxta.Descent} {stand : Stand}
  {take : Nat → InPlace (List NodeId × Nat)} {take' : Nat → Fold (List NodeId × Nat)}

/-- The terms that follow are folded in place as they are without. -/
abbrev Takes (env : Environment) (take : Nat → InPlace (List NodeId × Nat))
    (take' : Nat → Fold (List NodeId × Nat)) : Prop :=
  ∀ count, Mirrors env (take count) (take' count)

theorem mirrors_counted {x : InPlace NodeId} {y : Fold NodeId} (h : Mirrors env x y)
    (count : Nat) :
    Mirrors env (do return (← x, count)) (do return (← y, count)) :=
  .bind h fun _ => .pure _

theorem mirrors_unwrap {x : InPlace NodeId} {y : Fold NodeId} (h : Mirrors env x y) :
    Mirrors env (do
      let folded ← x
      return (← get).store.unwrap folded) (do
      let folded ← y
      return (← get).unwrap folded) :=
  .bind h fun _ => .get fun _ => .pure _

theorem mirrors_child (h : d.Follows e) (id : NodeId) :
    Mirrors e.env (d.child id) (e.child id) := by
  unfold child Juxta.Descent.child
  split
  · exact .pure id
  · exact .bind (h.below [id]) fun _ => .pure _

theorem mirrors_children (h : d.Follows e) (ids : List NodeId) :
    Mirrors e.env (d.children ids) (e.children ids) := by
  induction ids with
  | nil => exact .pure []
  | cons id rest ih => exact .bind (mirrors_child h id) fun _ => .bind ih fun _ => .pure _

theorem mirrors_expand (h : d.Follows e) {name : String} {parent : Option Nat}
    {params : List String} {body : NodeId} {arguments : List NodeId}
    (hopens : e.env.Opens name parent (bindParams 0 params arguments) body) :
    Mirrors e.env (d.expand name parent params body arguments)
      (e.expand name parent params body arguments) :=
  .bind (h.inside _ _ _ _ hopens) fun _ => .get fun _ => mirrors_onStore (Fold.grows_residual _ _)

theorem mirrors_applyFollowing (h : d.Follows e) (htake : Takes e.env take take')
    (lambda : NodeId) :
    Mirrors e.env (d.applyFollowing stand take lambda) (e.applyFollowing stand take' lambda) := by
  unfold applyFollowing Juxta.Descent.applyFollowing
  split
  · exact .pure _
  · refine .get fun s => .bind (htake _) fun taken => ?_
    obtain ⟨arguments, count⟩ := taken
    dsimp only
    split
    · exact .pure _
    · exact .get fun t => mirrors_counted (mirrors_expand h (e.env.opens_params _ _ _ _)) count

/-- A name means the same as long as the scopes are those that it was met in. -/
theorem mirrors_ident (h : d.Follows e) (htake : Takes e.env take take') (id : NodeId)
    (node : Node) : Mirrors e.env (d.ident stand take id node) (e.ident stand take' id node) := by
  unfold ident Juxta.Descent.ident
  refine .lookup fun s => ?_
  dsimp only
  cases hfind : e.env.find? (node.text?.getD "") with
  | none => exact .pure _
  | some found =>
    obtain ⟨⟨_, kind, _⟩, _⟩ := found
    cases kind with
    | value bound =>
      dsimp only
      split
      · exact .pure _
      · refine .get fun t => ?_
        split
        · exact mirrors_applyFollowing h htake bound
        · exact .pure _
    | pending => exact .pure _
    | function params body scope =>
      exact .bind (htake _) fun taken =>
        mirrors_counted (mirrors_expand h (Environment.opens_function hfind rfl _)) taken.2
    | builtin tag arity =>
      exact .bind (htake _) fun taken =>
        mirrors_counted (mirrors_onStore (Fold.grows_builtin _ _ _ _)) taken.2

theorem mirrors_lambda (h : d.Follows e) (id : NodeId) (node : Node) :
    Mirrors e.env (d.lambda id node) (e.lambda id node) :=
  .get fun _ => .bind (h.inside _ _ _ _ (e.env.opens_params _ _ _ _)) fun _ =>
    mirrors_onStore (Fold.grows_rebuild _ _ _)

theorem mirrors_paren (h : d.Follows e) (htake : Takes e.env take take') (id : NodeId)
    (node : Node) : Mirrors e.env (d.paren stand take id node) (e.paren stand take' id node) := by
  unfold paren Juxta.Descent.paren
  refine .get fun s => .bind ?_ fun folded => .get fun t => ?_
  · dsimp only
    cases s.node? (node.child 0) <;> exact h.below _
  have hkeep : Mirrors e.env
      (do
        let sequence ← onStore (Fold.rebuild (node.child 0) .exprs folded)
        return (← onStore (Fold.rebuild id .paren [sequence]), 0))
      (do
        let sequence ← Fold.rebuild (node.child 0) .exprs folded
        return (← Fold.rebuild id .paren [sequence], 0)) :=
    .bind (mirrors_onStore (Fold.grows_rebuild _ _ _)) fun _ =>
      mirrors_counted (mirrors_onStore (Fold.grows_rebuild _ _ _)) 0
  match folded with
  | [] => exact hkeep
  | _ :: _ :: _ => exact hkeep
  | [only] =>
    dsimp only
    cases t.tag? only with
    | none => exact hkeep
    | some tag =>
      cases tag with
      | lambda => exact mirrors_applyFollowing h htake only
      | ident => exact hkeep
      | exprs => exact hkeep
      | paren => exact hkeep
      | _ => exact .pure _

theorem mirrors_conditional (h : d.Follows e) (id : NodeId) (node : Node) :
    Mirrors e.env (d.conditional id node) (e.conditional id node) := by
  unfold conditional Juxta.Descent.conditional
  refine .bind (mirrors_child h _) fun condition => .get fun s => ?_
  dsimp only
  cases s.literalTruth? (s.unwrap condition) with
  | some truth =>
    dsimp only
    generalize (if truth then node.child 1 else node.child 2) = branch
    split
    · exact mirrors_onStore (Fold.grows_intern _ _)
    · exact mirrors_unwrap (mirrors_child h _)
  | none =>
    refine .bind (mirrors_child h _) fun yes => .bind (mirrors_child h _) fun no => ?_
    exact mirrors_onStore (Fold.grows_rebuild _ _ _)

theorem mirrors_patterns (h : d.Follows e) (clauses : List NodeId) :
    Mirrors e.env (d.patterns clauses) (e.patterns clauses) := by
  induction clauses with
  | nil => exact .pure []
  | cons id rest ih =>
    unfold patterns Juxta.Descent.patterns
    refine .get fun s => ?_
    dsimp only
    cases s.node? id with
    | none => exact ih
    | some clause =>
      refine .bind (mirrors_child h _) fun folded => .get fun t => ?_
      exact .bind ih fun _ => .pure _

theorem mirrors_bodies (h : d.Follows e) (clauses : List Juxta.Descent.Clause) :
    Mirrors e.env (d.bodies clauses) (e.bodies clauses) := by
  induction clauses with
  | nil => exact .pure []
  | cons clause rest ih =>
    refine .bind (mirrors_child h _) fun body => ?_
    exact .bind (mirrors_onStore (Fold.grows_rebuild _ _ _)) fun _ => .bind ih fun _ => .pure _

theorem mirrors_select (h : d.Follows e) (id : NodeId) (node : Node) :
    Mirrors e.env (d.select id node) (e.select id node) := by
  unfold select Juxta.Descent.select
  refine .bind (mirrors_child h _) fun scrutinee => .get fun s => ?_
  refine .bind (mirrors_patterns h _) fun clauses => .get fun t => ?_
  dsimp only
  -- the same decision is made in place and without, whatever it is
  generalize @ite _ (_ = true) (instDecidableEqBool _ true) (Juxta.Descent.decided? t _ clauses)
    none = decided
  cases decided with
  | some clause => exact mirrors_unwrap (mirrors_child h _)
  | none =>
    exact .bind (mirrors_bodies h clauses) fun _ => mirrors_onStore (Fold.grows_rebuild _ _ _)

theorem mirrors_single (h : d.Follows e) (id : NodeId) (node : Node) :
    Mirrors e.env (d.single id node) (e.single id node) := by
  have hrow : ∀ tag, Mirrors e.env
      (do onStore (Fold.rebuild id tag (← d.below node.children)))
      (do Fold.rebuild id tag (← e.below node.children)) := fun _ =>
    .bind (h.below _) fun _ => mirrors_onStore (Fold.grows_rebuild _ _ _)
  unfold single Juxta.Descent.single
  cases node.tag with
  | num | str | bool | null | wildcard => exact .pure id
  | exprs | list => exact hrow _
  | binding =>
    exact .bind (mirrors_child h _) fun _ => .get fun _ =>
      mirrors_onStore (Fold.grows_rebuild _ _ _)
  | ifThen => exact mirrors_conditional h id node
  | case => exact mirrors_select h id node
  | _ => exact .bind (mirrors_children h _) fun _ => mirrors_onStore (Fold.grows_operation _ _ _)

/-- One term. -/
theorem mirrors_term (h : d.Follows e) (htake : Takes e.env take take') (id : NodeId) :
    Mirrors e.env (d.term stand take id) (e.term stand take' id) := by
  unfold term Juxta.Descent.term
  refine .get fun s => ?_
  dsimp only
  cases s.node? id with
  | none => exact .pure _
  | some node =>
    dsimp only
    rw [h.bound]
    split
    · exact .throw _ _ _
    · cases node.tag with
      | ident => exact mirrors_ident h htake id node
      | lambda => exact .bind (mirrors_lambda h id node) fun _ => mirrors_applyFollowing h htake _
      | paren => exact mirrors_paren h htake id node
      | _ => exact mirrors_counted (mirrors_single h id node) 0

/-- Terms in a row. -/
theorem mirrors_terms (h : d.Follows e) (ids : List NodeId) (stand : Stand)
    (count skip : Nat) :
    Mirrors e.env (d.terms ids stand count skip) (e.terms ids stand count skip) := by
  induction ids generalizing stand count skip with
  | nil => exact .pure _
  | cons id rest ih =>
    cases skip with
    | succ skip => exact ih stand count skip
    | zero =>
      cases count with
      | zero => exact .pure _
      | succ count =>
        -- the terms after a function are its arguments: the hypothesis for `rest` serves both
        unfold terms Juxta.Descent.terms
        refine .bind (mirrors_term h (fun count => ih .argument count 0) id) fun term => ?_
        exact .bind (ih stand count _) fun _ => .pure _

end Descent

/-! ## Nodes in place -/

theorem mirrors_foldSequence
    {inside : (name : String) → (parent : Option Nat) → List Word → NodeId → InPlace NodeId}
    {inside' : (name : String) → (parent : Option Nat) → List Word → NodeId → Fold NodeId}
    (h : ∀ name parent words body, env.Opens name parent words body →
      Mirrors env (inside name parent words body) (inside' name parent words body))
    (bound : Nat) (ids : List NodeId) :
    Mirrors env (foldSequence inside bound ids) (Juxta.foldSequence env inside' bound ids) := by
  induction bound generalizing ids with
  | zero =>
    have hd : Descent.Follows ⟨0, fun _ => return [], inside⟩
        ⟨env, 0, fun _ => return [], inside'⟩ := ⟨rfl, fun _ => .pure [], h⟩
    exact .bind (Descent.mirrors_terms hd ids .head ids.length 0) fun _ => .pure _
  | succ bound ih =>
    have hd : Descent.Follows ⟨bound + 1, foldSequence inside bound, inside⟩
        ⟨env, bound + 1, Juxta.foldSequence env inside' bound, inside'⟩ := ⟨rfl, ih, h⟩
    exact .bind (Descent.mirrors_terms hd ids .head ids.length 0) fun _ => .pure _

/-- Every scope that is entered takes from the room, so that the levels are not used up. -/
theorem mirrors_foldWithin (hpos : 0 < env.depth) {levels : Nat} (hlevels : env.room < levels)
    (id : NodeId) : Mirrors env (foldWithin levels id) (Juxta.fold env id) := by
  induction levels generalizing env id with
  | zero => exact absurd hlevels (Nat.not_lt_zero _)
  | succ levels ih =>
    have hinside : ∀ name parent words body, env.Opens name parent words body →
        Mirrors env (within name parent words (foldWithin levels body))
          (foldEntered Juxta.fold env name parent words body) := by
      intro name parent words body _
      refine mirrors_within hpos fun hlt => ih ?_ ?_ body
      · rw [Environment.entered, Environment.depth_addWords]
        exact Nat.succ_pos _
      · rw [Environment.entered, Environment.room_addWords_push]
        unfold Environment.room at hlevels ⊢
        omega
    rw [fold_eq]
    unfold foldWithin foldBy
    split
    · exact .pure id
    · exact .bind (mirrors_foldSequence hinside _ _) fun _ => .pure _

/-- Folding in place is folding. -/
theorem mirrors_fold (hpos : 0 < env.depth) (id : NodeId) :
    Mirrors env (fold id) (Juxta.fold env id) :=
  .lookup fun _ => mirrors_foldWithin hpos (Nat.lt_succ_self _) id

end InPlace

end Juxta
