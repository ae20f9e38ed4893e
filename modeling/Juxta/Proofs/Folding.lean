import Juxta.Folding
import Juxta.Proofs.Fields
import Juxta.Proofs.Grounded

/-!
# What folding stores

Folding adds nodes to a store whose children are stored already, so that a grounded store stays
grounded, and returns ids that have a node or are absent. In a grounded store nothing that is folded
comes before its children, so that only scopes make folding fail.

* `NodeId.UpTo` : an id that is absent or among the first ones; `WordKind.UpTo` and
  `Environment.UpTo` for what names mean;
* `Environment.AllKinds` : what holds of all that names stand for, also when words are added;
* `FoldError.IsRunaway` : the failures of folding that a grounded store allows;
* `Fold.Gives` : a step with its result;
* `Fold.Keeps` : a step that keeps the store grounded, with a condition on its result;
* `Descent.Sound` : what the terms of a sequence may rely on;
* `Descent.keeps_term`, `Descent.keeps_terms`, `keeps_fold` : terms, sequences and nodes.
-/

namespace Juxta

/-! ## Ids up to a number -/

/-- An id that is absent or among the first `n`. -/
def NodeId.UpTo (n : Nat) (id : NodeId) : Prop := id.index ≤ n

/-- Ids that are absent or among the first `n`. -/
abbrev NodeId.AllUpTo (n : Nat) (ids : List NodeId) : Prop := ∀ id ∈ ids, id.UpTo n

/-- The nodes that a name stands for are among the first `n`. -/
def WordKind.UpTo (n : Nat) : WordKind → Prop
  | .value id => id.UpTo n
  | .function _ body _ => body.UpTo n
  | _ => True

/-- Something holds of all that the names of scopes stand for. -/
def Environment.AllKinds (P : WordKind → Prop) (env : Environment) : Prop :=
  ∀ scope ∈ env.scopes, ∀ word ∈ scope.words, P word.2.kind

/-- The nodes that the names of all scopes stand for are among the first `n`. -/
abbrev Environment.UpTo (n : Nat) (env : Environment) : Prop := env.AllKinds (WordKind.UpTo n)

section

variable {n m : Nat}

theorem NodeId.UpTo.mono {id : NodeId} (h : id.UpTo n) (hle : n ≤ m) : id.UpTo m :=
  Nat.le_trans h hle

theorem NodeId.upTo_absent (n : Nat) : NodeId.absent.UpTo n := Nat.zero_le n

theorem NodeId.AllUpTo.mono {ids : List NodeId} (h : NodeId.AllUpTo n ids) (hle : n ≤ m) :
    NodeId.AllUpTo m ids := fun id hm => (h id hm).mono hle

theorem WordKind.UpTo.mono {kind : WordKind} (h : kind.UpTo n) (hle : n ≤ m) : kind.UpTo m := by
  cases kind with
  | value id => exact NodeId.UpTo.mono h hle
  | pending => exact trivial
  | function params body scope => exact NodeId.UpTo.mono h hle
  | builtin tag arity => exact trivial

namespace Environment

variable {env : Environment} {P Q : WordKind → Prop}

theorem AllKinds.imp (h : env.AllKinds P) (k : ∀ kind, P kind → Q kind) : env.AllKinds Q :=
  fun scope hs word hw => k _ (h scope hs word hw)

theorem UpTo.mono (h : env.UpTo n) (hle : n ≤ m) : env.UpTo m := h.imp fun _ hk => hk.mono hle

theorem of_search_of_all {name : String} {scopes : List Scope} {depth target : Nat} {word : Word}
    {number : Nat} (h : ∀ scope ∈ scopes, ∀ word ∈ scope.words, P word.2.kind)
    (hs : search name scopes depth target = some (word, number)) : P word.kind := by
  induction scopes generalizing depth target with
  | nil => cases hs
  | cons scope below ih =>
    obtain ⟨hfirst, hrest⟩ := List.forall_mem_cons.1 h
    unfold search at hs
    split at hs
    · split at hs
      · rename_i found hget
        cases hs
        exact Fields.of_get? (P := fun word : Word => P word.kind) hfirst hget
      · split at hs
        · exact ih hrest hs
        · cases hs
    · exact ih hrest hs

/-- What a name stands for. -/
theorem AllKinds.find? (h : env.AllKinds P) {name : String} {word : Word} {number : Nat}
    (hf : env.find? name = some (word, number)) : P word.kind :=
  of_search_of_all h hf

theorem AllKinds.push (h : env.AllKinds P) (name : String) (parent : Option Nat) :
    (env.push name parent).AllKinds P := by
  refine List.forall_mem_cons.2 ⟨fun word hw => ?_, h⟩
  exact absurd hw List.not_mem_nil

theorem AllKinds.addWord (h : env.AllKinds P) {word : Word} (hw : P word.kind) :
    (env.addWord word).AllKinds P := by
  obtain ⟨scopes, limit⟩ := env
  cases scopes with
  | nil => exact h
  | cons scope below =>
    obtain ⟨hfirst, hrest⟩ := List.forall_mem_cons.1 h
    exact List.forall_mem_cons.2
      ⟨Fields.forall_set (P := fun word : Word => P word.kind) hfirst hw, hrest⟩

theorem AllKinds.addWords (h : env.AllKinds P) {words : List Word}
    (hw : ∀ word ∈ words, P word.kind) : (env.addWords words).AllKinds P := by
  induction words generalizing env with
  | nil => exact h
  | cons word rest ih =>
    obtain ⟨hfirst, hrest⟩ := List.forall_mem_cons.1 hw
    exact ih (h.addWord hfirst) hrest

end Environment

end

namespace Store

variable {s : Store}

theorem Grounded.upTo_child (h : s.Grounded) {n : Nat} (hn : s.size ≤ n) {id : NodeId}
    {node : Node} (hnode : s.node? id = some node) (position : Nat) :
    (node.child position).UpTo n := Nat.le_trans (h.knows_child hnode position) hn

/-- The only element of a sequence, or the node itself. -/
theorem Grounded.upTo_unwrap (h : s.Grounded) {n : Nat} (hn : s.size ≤ n) {id : NodeId}
    (hid : id.UpTo n) : (s.unwrap id).UpTo n := by
  unfold unwrap
  split
  · rename_i only hnode
    exact h.upTo_child hn hnode 0
  · exact NodeId.upTo_absent n
  · exact hid

theorem Grounded.upTo_body (h : s.Grounded) {n : Nat} (hn : s.size ≤ n) (lambda : NodeId) :
    (s.body lambda).UpTo n := by
  unfold body
  split
  · rename_i node hnode
    exact h.upTo_child hn hnode 1
  · exact NodeId.upTo_absent n

/-- The result of an operation on literals is a literal. -/
theorem children_of_computed? {tag : Tag} {operands : List NodeId} {node : Node}
    (hc : s.computed? tag operands = some node) : node.children = [] := by
  unfold computed? at hc
  split at hc
  · simp only [bind, Option.bind_eq_some_iff] at hc
    obtain ⟨l, -, r, -, hc⟩ := hc
    split at hc <;>
      · obtain ⟨_, -, rfl⟩ := Option.map_eq_some_iff.1 hc
        rfl
  · split at hc
    · obtain ⟨_, -, rfl⟩ := Option.map_eq_some_iff.1 hc
      rfl
    · cases hc
  · cases hc

end Store

/-! ## Steps -/

/-- Too many scopes were entered. -/
def FoldError.IsRunaway : FoldError → Prop
  | .runaway _ => True
  | .unordered _ => False

namespace Fold

open NodeId (UpTo AllUpTo)

variable {α β : Type} {lo : Nat}

/-- A step after another one goes on with its result and its store, unless it fails. -/
theorem run_bind (step : Fold α) (next : α → Fold β) (s : Store) :
    (step >>= next).run.run s = match step.run.run s with
      | (.ok a, t) => (next a).run.run t
      | (.error error, t) => (.error error, t) := by
  rw [ExceptT.run_bind, StateT.run_bind]
  generalize step.run.run s = out
  obtain ⟨result, t⟩ := out
  cases result <;> rfl

/-- A step succeeds, with a result and another store. -/
def Gives (s : Store) (step : Fold α) (a : α) (t : Store) : Prop := step.run.run s = (.ok a, t)

theorem gives_pure (s : Store) (a : α) : Gives s (Pure.pure a) a s := rfl

theorem gives_get (s : Store) : Gives s get s s := rfl

theorem Gives.bind {s t u : Store} {step : Fold α} {next : α → Fold β} {a : α} {b : β}
    (h : Gives s step a t) (k : Gives t (next a) b u) : Gives s (step >>= next) b u := by
  unfold Gives at h k ⊢
  rw [run_bind, h]
  exact k

/-- What a step gives after another one. -/
theorem Gives.of_bind {s u : Store} {step : Fold α} {next : α → Fold β} {b : β}
    (h : Gives s (step >>= next) b u) : ∃ a t, Gives s step a t ∧ Gives t (next a) b u := by
  unfold Gives at h
  rw [run_bind] at h
  split at h
  · rename_i a t hstep
    exact ⟨a, t, hstep, h⟩
  · cases h

/-- A result that satisfies a condition, or a failure that a grounded store allows. -/
def Meets (condition : α → Prop) : Except FoldError α → Prop
  | .ok a => condition a
  | .error error => error.IsRunaway

/-- A step that keeps a store with at least `lo` nodes grounded. Its result, if there is one,
satisfies a condition together with the number of nodes that are stored then. -/
def Keeps (lo : Nat) (step : Fold α) (post : Nat → α → Prop) : Prop :=
  ∀ s : Store, s.Grounded → lo ≤ s.size →
    (step.run.run s).2.Grounded ∧ s.size ≤ (step.run.run s).2.size ∧
      Meets (post (step.run.run s).2.size) (step.run.run s).1

theorem Keeps.pure {a : α} {post : Nat → α → Prop} (h : ∀ n, lo ≤ n → post n a) :
    Keeps lo (Pure.pure a) post :=
  fun _ hs hlo => ⟨hs, Nat.le_refl _, h _ hlo⟩

theorem Keeps.throw {error : FoldError} {P : Nat → α → Prop} (h : error.IsRunaway) :
    Keeps lo (MonadExcept.throw error) P :=
  fun _ hs _ => ⟨hs, Nat.le_refl _, h⟩

theorem Keeps.bind {step : Fold α} {next : α → Fold β} {P : Nat → α → Prop}
    {Q : Nat → β → Prop} (h : Keeps lo step P)
    (k : ∀ n a, lo ≤ n → P n a → Keeps n (next a) Q) : Keeps lo (step >>= next) Q := by
  intro s hs hlo
  obtain ⟨hg, hle, hmid⟩ := h s hs hlo
  rw [run_bind]
  cases hstep : step.run.run s with
  | mk result t =>
    rw [hstep] at hg hle hmid
    cases result with
    | ok a =>
      obtain ⟨hg', hle', hpost⟩ := k t.size a (Nat.le_trans hlo hle) hmid t hg (Nat.le_refl _)
      exact ⟨hg', Nat.le_trans hle hle', hpost⟩
    | error error => exact ⟨hg, hle, hmid⟩

/-- The store as it is. -/
theorem keeps_get : Keeps lo (get : Fold Store) fun n s => s.Grounded ∧ s.size ≤ n :=
  fun _ hs _ => ⟨hs, Nat.le_refl _, hs, Nat.le_refl _⟩

theorem Keeps.upTo {id : NodeId} (h : id.UpTo lo) : Keeps lo (Pure.pure id) UpTo :=
  .pure fun _ => h.mono

theorem keeps_intern {node : Node} {coord : Option Coord}
    (hc : AllUpTo lo node.children) : Keeps lo (intern node coord) UpTo := by
  intro s hs hlo
  exact ⟨hs.intern (hc.mono hlo), s.size_intern_le node coord, s.knows_intern node coord⟩

theorem keeps_rebuild {origin : NodeId} {tag : Tag} {children : List NodeId}
    (hc : AllUpTo lo children) :
    Keeps lo (rebuild origin tag children) UpTo := by
  intro s hs hlo
  have hb : ∀ child ∈ (Node.branch tag children).children, child.UpTo s.size := by
    rw [Node.children_branch]
    exact hc.mono hlo
  exact ⟨hs.intern hb, s.size_intern_le _ _, s.knows_intern _ _⟩

theorem keeps_idents (names : List String) : Keeps lo (idents names) AllUpTo := by
  induction names generalizing lo with
  | nil => exact .pure fun _ _ => List.forall_mem_nil _
  | cons name rest ih =>
    refine .bind (keeps_intern (List.forall_mem_nil _)) fun n id _ hid => ?_
    refine .bind ih fun m ids hle hids => ?_
    exact .pure fun k hk => List.forall_mem_cons.2
      ⟨hid.mono (Nat.le_trans hle hk), hids.mono hk⟩

theorem keeps_residual (unbound : List String) {body : NodeId} (h : body.UpTo lo) :
    Keeps lo (residual unbound body) UpTo := by
  unfold residual
  split
  · exact .upTo h
  · refine .bind (keeps_idents unbound) fun n ids hn hids => ?_
    have hbody : body.UpTo n := h.mono hn
    refine .bind (keeps_intern ?_) fun m list hm hlist => ?_
    · rw [Node.children_branch]
      exact hids
    · have hlambda : ∀ k sequence, m ≤ k → sequence.UpTo k →
          Keeps k (intern (.branch .lambda [list, sequence]) none) UpTo := by
        intro k sequence hk hsequence
        refine keeps_intern ?_
        rw [Node.children_branch]
        exact List.forall_mem_cons.2 ⟨hlist.mono hk, List.forall_mem_singleton.2 hsequence⟩
      refine .bind keeps_get fun k s hk _ => ?_
      have hk' : body.UpTo k := hbody.mono (Nat.le_trans hm hk)
      dsimp only
      split
      · exact .bind (.upTo hk') fun l sequence hl hsequence =>
          hlambda l sequence (Nat.le_trans hk hl) hsequence
      · refine .bind (keeps_intern ?_) fun l sequence hl hsequence =>
          hlambda l sequence (Nat.le_trans hk hl) hsequence
        rw [Node.children_branch]
        exact List.forall_mem_singleton.2 hk'

theorem keeps_operation {origin : NodeId} {tag : Tag} {operands : List NodeId}
    (h : AllUpTo lo operands) :
    Keeps lo (operation origin tag operands) UpTo := by
  unfold operation
  refine .bind keeps_get fun n s hn _ => ?_
  split
  · rename_i result hc
    refine keeps_intern fun child hm => ?_
    rw [Store.children_of_computed? hc] at hm
    exact absurd hm List.not_mem_nil
  · exact keeps_rebuild (h.mono hn)

theorem keeps_builtin {origin : NodeId} {tag : Tag} {arity : Nat} {arguments : List NodeId}
    (h : AllUpTo lo arguments) :
    Keeps lo (builtin origin tag arity arguments) UpTo := by
  unfold builtin
  dsimp only
  refine .bind (keeps_idents _) fun n ids hn hids => ?_
  refine .bind (keeps_operation fun operand hm => ?_) fun m node _ hnode =>
    keeps_residual _ hnode
  rcases List.mem_append.1 hm with hm | hm
  · exact (h operand hm).mono hn
  · exact hids operand hm

end Fold

/-! ## Terms -/

/-- The words of parameters stand for their arguments. -/
theorem upTo_bindParams {n : Nat} {arguments : List NodeId}
    (h : NodeId.AllUpTo n arguments) (offset : Nat) (params : List String) :
    ∀ word ∈ bindParams offset params arguments, word.kind.UpTo n := by
  induction params generalizing offset arguments with
  | nil => exact List.forall_mem_nil _
  | cons param rest ih =>
    cases arguments with
    | nil => exact List.forall_mem_cons.2 ⟨NodeId.upTo_absent n, ih h (offset + 1)⟩
    | cons argument others =>
      obtain ⟨hfirst, hrest⟩ := List.forall_mem_cons.1 h
      exact List.forall_mem_cons.2 ⟨hfirst, ih hrest (offset + 1)⟩

/-- The first of some known nodes, or another one. -/
theorem upTo_headD {n : Nat} {ids : List NodeId} {id : NodeId} (h : NodeId.AllUpTo n ids)
    (hid : id.UpTo n) : (ids.headD id).UpTo n := by
  cases ids with
  | nil => exact hid
  | cons first rest => exact (List.forall_mem_cons.1 h).1

namespace Descent

open Fold
open NodeId (UpTo AllUpTo)

variable {lo : Nat} {d : Descent} {stand : Stand} {take : Nat → Fold (List NodeId × Nat)}

/-- An id that comes before some node of the sequence. -/
def Below (d : Descent) (id : NodeId) : Prop := id.index + 1 < d.bound

/-- What stands below a node comes before some node of the sequence. -/
structure Covers (d : Descent) (node : Node) : Prop where
  children : ∀ id ∈ node.children, d.Below id
  child : ∀ position, d.Below (node.child position)

/-- The children of a stored node of the sequence, or of a node before one. -/
theorem covers_of_lt {s : Store} (hs : s.Grounded) {id : NodeId} {node : Node}
    (hnode : s.node? id = some node) (hid : id.index < d.bound) : d.Covers node :=
  ⟨fun child hm => Nat.lt_of_le_of_lt (hs id node hnode child hm) hid,
    fun position => Nat.lt_of_le_of_lt (hs.child_lt hnode position) hid⟩

/-- What the terms of a sequence rely on in a store with at least `lo` nodes. -/
structure Sound (lo : Nat) (d : Descent) : Prop where
  env : d.env.UpTo lo
  /-- Nodes of the sequence are known. -/
  known : d.bound ≤ lo + 1
  below : ∀ n ids, lo ≤ n → (∀ id ∈ ids, d.Below id) → Keeps n (d.below ids) AllUpTo
  inside : ∀ n name parent words body, lo ≤ n → (∀ word ∈ words, word.kind.UpTo n) →
    body.UpTo n → Keeps n (d.inside name parent words body) UpTo

/-- A term, and how many terms after it were taken. -/
abbrev KnownTerm (n : Nat) (r : NodeId × Nat) : Prop := r.1.UpTo n

/-- Terms, and how many of them were taken. -/
abbrev KnownTerms (n : Nat) (r : List NodeId × Nat) : Prop := AllUpTo n r.1

/-- The terms that follow are known once they are folded. -/
abbrev Takes (lo : Nat) (take : Nat → Fold (List NodeId × Nat)) : Prop :=
  ∀ count n, lo ≤ n → Keeps n (take count) KnownTerms

theorem Sound.mono (h : d.Sound lo) {n : Nat} (hn : lo ≤ n) : d.Sound n :=
  ⟨h.env.mono hn, Nat.le_trans h.known (Nat.succ_le_succ hn),
    fun m ids hm => h.below m ids (Nat.le_trans hn hm),
    fun m name parent words body hm => h.inside m name parent words body (Nat.le_trans hn hm)⟩

/-- A node of the sequence. -/
theorem Sound.upTo (h : d.Sound lo) {id : NodeId} (hid : id.index < d.bound) : id.UpTo lo :=
  Nat.le_of_lt_succ (Nat.lt_of_lt_of_le hid h.known)

/-- A node before some node of the sequence. -/
theorem Sound.upTo_below (h : d.Sound lo) {id : NodeId} (hid : d.Below id) : id.UpTo lo :=
  h.upTo (Nat.lt_of_succ_lt hid)

theorem Takes.mono (h : Takes lo take) {n : Nat} (hn : lo ≤ n) : Takes n take :=
  fun count m hm => h count m (Nat.le_trans hn hm)

theorem keeps_counted {step : Fold NodeId} (h : Keeps lo step UpTo) (count : Nat) :
    Keeps lo (do return (← step, count)) KnownTerm :=
  .bind h fun _ _ _ hid => .pure fun _ => hid.mono

/-- The element of a sequence that has only one. -/
theorem keeps_unwrap {id : NodeId} (h : id.UpTo lo) :
    Keeps lo (do return (← get).unwrap id) UpTo := by
  refine .bind keeps_get fun n s hn hs => .upTo ?_
  exact hs.1.upTo_unwrap hs.2 (h.mono hn)

theorem keeps_child (h : d.Sound lo) {id : NodeId} (hid : d.Below id) :
    Keeps lo (d.child id) UpTo := by
  have hknown : id.UpTo lo := h.upTo_below hid
  unfold child
  split
  · exact .upTo hknown
  · refine .bind (h.below lo [id] (Nat.le_refl _) (List.forall_mem_singleton.2 hid))
      fun n ids hn hids => .upTo ?_
    exact upTo_headD hids (hknown.mono hn)

theorem keeps_children (h : d.Sound lo) {ids : List NodeId} (hids : ∀ id ∈ ids, d.Below id) :
    Keeps lo (d.children ids) AllUpTo := by
  induction ids generalizing lo with
  | nil => exact .pure fun _ _ => List.forall_mem_nil _
  | cons id rest ih =>
    obtain ⟨hid, hrest⟩ := List.forall_mem_cons.1 hids
    refine .bind (keeps_child h hid) fun n folded hn hfolded => ?_
    refine .bind (ih (h.mono hn) hrest) fun m others hm hothers => ?_
    exact .pure fun k hk => List.forall_mem_cons.2
      ⟨hfolded.mono (Nat.le_trans hm hk), hothers.mono hk⟩

theorem keeps_expand (h : d.Sound lo) (name : String) (parent : Option Nat)
    (params : List String) {body : NodeId} (hbody : body.UpTo lo) {arguments : List NodeId}
    (hargs : AllUpTo lo arguments) :
    Keeps lo (d.expand name parent params body arguments) UpTo := by
  unfold expand
  refine .bind (h.inside lo name parent _ body (Nat.le_refl _) (upTo_bindParams hargs 0 params)
    hbody) fun n folded _ hfolded => ?_
  refine .bind keeps_get fun m s hm hs => keeps_residual _ ?_
  exact hs.1.upTo_unwrap hs.2 (hfolded.mono hm)

theorem keeps_applyFollowing (h : d.Sound lo) (htake : Takes lo take) {lambda : NodeId}
    (hlambda : lambda.UpTo lo) : Keeps lo (d.applyFollowing stand take lambda) KnownTerm := by
  unfold applyFollowing
  split
  · exact .pure fun _ => hlambda.mono
  · refine .bind keeps_get fun n s hn _ => ?_
    dsimp only
    refine .bind (htake _ n hn) fun m taken hm hargs => ?_
    obtain ⟨arguments, count⟩ := taken
    have hle := Nat.le_trans hn hm
    dsimp only
    split
    · exact .pure fun k hk => hlambda.mono (Nat.le_trans hle hk)
    · refine .bind keeps_get fun k t hk ht => ?_
      have hsound := h.mono (Nat.le_trans hle hk)
      have hexpand := keeps_expand hsound "lambda" none (s.params lambda)
        (ht.1.upTo_body ht.2 lambda) (hargs.mono hk)
      exact keeps_counted hexpand count

theorem keeps_ident (h : d.Sound lo) (htake : Takes lo take) {id : NodeId} (hid : id.UpTo lo)
    (node : Node) : Keeps lo (d.ident stand take id node) KnownTerm := by
  unfold ident
  dsimp only
  split
  · rename_i bound _ _ hfind
    have hbound : bound.UpTo lo := h.env.find? hfind
    split
    · exact .pure fun _ => hid.mono
    · refine .bind keeps_get fun n s hn _ => ?_
      split
      · exact keeps_applyFollowing (h.mono hn) (htake.mono hn) (hbound.mono hn)
      · exact .pure fun m hm => hbound.mono (Nat.le_trans hn hm)
  · rename_i params body scope _ _ hfind
    have hbody : body.UpTo lo := h.env.find? hfind
    refine .bind (htake _ lo (Nat.le_refl _)) fun n taken hn hargs => ?_
    obtain ⟨arguments, count⟩ := taken
    exact keeps_counted (keeps_expand (h.mono hn) _ _ _ (hbody.mono hn) hargs) count
  · refine .bind (htake _ lo (Nat.le_refl _)) fun n taken hn hargs => ?_
    obtain ⟨arguments, count⟩ := taken
    exact keeps_counted (keeps_builtin hargs) count
  · exact .pure fun _ => hid.mono

theorem keeps_lambda (h : d.Sound lo) (id : NodeId) {node : Node} (hnode : d.Covers node) :
    Keeps lo (d.lambda id node) UpTo := by
  have hchild : ∀ position, (node.child position).UpTo lo :=
    fun position => h.upTo_below (hnode.child position)
  unfold lambda
  refine .bind keeps_get fun n s hn _ => ?_
  dsimp only
  have hparams : ∀ word ∈ bindParams 0 (s.params id) [], word.kind.UpTo n :=
    upTo_bindParams (List.forall_mem_nil _) 0 (s.params id)
  refine .bind (h.inside n "lambda" none _ _ hn hparams ((hchild 1).mono hn))
    fun m body hm hbody => keeps_rebuild ?_
  exact List.forall_mem_cons.2
    ⟨(hchild 0).mono (Nat.le_trans hn hm), List.forall_mem_singleton.2 hbody⟩

theorem keeps_paren (h : d.Sound lo) (htake : Takes lo take) (id : NodeId) {node : Node}
    (hnode : d.Covers node) : Keeps lo (d.paren stand take id node) KnownTerm := by
  unfold paren
  dsimp only
  refine .bind keeps_get fun n s hn hs => ?_
  have hinner : d.Below (node.child 0) := hnode.child 0
  refine .bind (h.below n _ hn ?_) fun m folded hm hfolded => ?_
  · split
    · rename_i sequence hsequence
      split
      · exact (covers_of_lt hs.1 hsequence (Nat.lt_of_succ_lt hinner)).children
      · exact List.forall_mem_singleton.2 hinner
    · exact List.forall_mem_nil _
  · refine .bind keeps_get fun k t hk _ => ?_
    have hkeep : Keeps k (do
        let sequence ← rebuild (node.child 0) .exprs folded
        return (← rebuild id .paren [sequence], 0)) KnownTerm := by
      refine .bind (keeps_rebuild (hfolded.mono hk)) fun l sequence _ hseq => ?_
      exact keeps_counted (keeps_rebuild (List.forall_mem_singleton.2 hseq)) 0
    have hle : lo ≤ k := Nat.le_trans hn (Nat.le_trans hm hk)
    split
    · rename_i only
      have honly : only.UpTo k := (List.forall_mem_singleton.1 hfolded).mono hk
      split
      · exact keeps_applyFollowing (h.mono hle) (htake.mono hle) honly
      · exact hkeep
      · exact hkeep
      · exact hkeep
      · exact hkeep
      · exact .pure fun _ => honly.mono
    · exact hkeep

theorem keeps_conditional (h : d.Sound lo) (id : NodeId) {node : Node} (hnode : d.Covers node) :
    Keeps lo (d.conditional id node) UpTo := by
  unfold conditional
  refine .bind (keeps_child h (hnode.child 0)) fun n condition hn hcondition => ?_
  refine .bind keeps_get fun m s hm hs => ?_
  have hle := Nat.le_trans hn hm
  have hsound := h.mono hle
  split
  · rename_i truth _
    have hbranch : d.Below (if truth then node.child 1 else node.child 2) := by
      split
      · exact hnode.child 1
      · exact hnode.child 2
    dsimp only
    generalize (if truth then node.child 1 else node.child 2) = branch at hbranch ⊢
    split
    · exact keeps_intern (List.forall_mem_nil _)
    · exact .bind (keeps_child hsound hbranch) fun k folded _ hfolded => keeps_unwrap hfolded
  · refine .bind (keeps_child hsound (hnode.child 1)) fun k yes hk hyes => ?_
    refine .bind (keeps_child (hsound.mono hk) (hnode.child 2))
      fun l no hl hno => keeps_rebuild ?_
    have hfirst : condition.UpTo l :=
      hcondition.mono (Nat.le_trans hm (Nat.le_trans hk hl))
    exact List.forall_mem_cons.2 ⟨hfirst, List.forall_mem_cons.2
      ⟨hyes.mono hl, List.forall_mem_singleton.2 hno⟩⟩

/-- Clauses whose patterns are known, and whose bodies are to be folded. -/
abbrev KnownClauses (d : Descent) (n : Nat) (clauses : List Clause) : Prop :=
  ∀ clause ∈ clauses, clause.pattern.UpTo n ∧ d.Below clause.body

theorem KnownClauses.mono {n m : Nat} {clauses : List Clause} (h : d.KnownClauses n clauses)
    (hle : n ≤ m) : d.KnownClauses m clauses :=
  fun clause hmem => ⟨(h clause hmem).1.mono hle, (h clause hmem).2⟩

theorem keeps_patterns (h : d.Sound lo) {clauses : List NodeId}
    (hclauses : ∀ id ∈ clauses, d.Below id) : Keeps lo (d.patterns clauses) d.KnownClauses := by
  induction clauses generalizing lo with
  | nil => exact .pure fun _ _ => List.forall_mem_nil _
  | cons id rest ih =>
    obtain ⟨hid, hrest⟩ := List.forall_mem_cons.1 hclauses
    unfold patterns
    refine .bind keeps_get fun n s hn hs => ?_
    have hsound := h.mono hn
    split
    · exact ih hsound hrest
    · rename_i clause hclause
      have hnode : d.Covers clause := covers_of_lt hs.1 hclause (Nat.lt_of_succ_lt hid)
      refine .bind (keeps_child hsound (hnode.child 0)) fun m folded hm hfolded => ?_
      refine .bind keeps_get fun k t hk ht => ?_
      have hpattern := ht.1.upTo_unwrap ht.2 (hfolded.mono hk)
      refine .bind (ih (hsound.mono (Nat.le_trans hm hk)) hrest) fun l others hl hothers => ?_
      exact .pure fun j hj => List.forall_mem_cons.2
        ⟨⟨hpattern.mono (Nat.le_trans hl hj), hnode.child 1⟩, KnownClauses.mono hothers hj⟩

theorem keeps_bodies (h : d.Sound lo) {clauses : List Clause} (hc : d.KnownClauses lo clauses) :
    Keeps lo (d.bodies clauses) AllUpTo := by
  induction clauses generalizing lo with
  | nil => exact .pure fun _ _ => List.forall_mem_nil _
  | cons clause rest ih =>
    obtain ⟨⟨hpattern, hbody⟩, hrest⟩ := List.forall_mem_cons.1 hc
    refine .bind (keeps_child h hbody) fun n body hn hfolded => ?_
    refine .bind (keeps_rebuild (List.forall_mem_cons.2
      ⟨hpattern.mono hn, List.forall_mem_singleton.2 hfolded⟩)) fun m rebuilt hm hrebuilt => ?_
    have hle := Nat.le_trans hn hm
    refine .bind (ih (h.mono hle) (KnownClauses.mono hrest hle)) fun k others hk hothers => ?_
    exact .pure fun l hl => List.forall_mem_cons.2
      ⟨hrebuilt.mono (Nat.le_trans hk hl), hothers.mono hl⟩

theorem mem_of_decided? {s : Store} {value : NodeId} {clauses : List Clause} {clause : Clause}
    (h : decided? s value clauses = some clause) : clause ∈ clauses := by
  induction clauses with
  | nil => cases h
  | cons first rest ih =>
    unfold decided? at h
    split at h
    · cases h
      exact List.mem_cons_self
    · exact List.mem_cons_of_mem first (ih h)
    · cases h

theorem keeps_select (h : d.Sound lo) (id : NodeId) {node : Node} (hnode : d.Covers node) :
    Keeps lo (d.select id node) UpTo := by
  have hdrop : ∀ id ∈ node.children.drop 1, d.Below id :=
    fun id hm => hnode.children id (List.mem_of_mem_drop hm)
  unfold select
  refine .bind (keeps_child h (hnode.child 0)) fun n scrutinee hn hscrutinee => ?_
  refine .bind keeps_get fun m s hm _ => ?_
  have hle := Nat.le_trans hn hm
  dsimp only
  refine .bind (keeps_patterns (h.mono hle) hdrop) fun k clauses hk hclauses => ?_
  refine .bind keeps_get fun l t hl _ => ?_
  have hkl := Nat.le_trans hle (Nat.le_trans hk hl)
  have hknown := KnownClauses.mono hclauses hl
  split
  · rename_i clause hclause
    have hmem : clause ∈ clauses := mem_of_decided? (Option.ite_none_right_eq_some.1 hclause).2
    exact .bind (keeps_child (h.mono hkl) (hknown clause hmem).2)
      fun j folded _ hfolded => keeps_unwrap hfolded
  · refine .bind (keeps_bodies (h.mono hkl) hknown) fun j bodies hj hbodies => keeps_rebuild ?_
    have hfirst : scrutinee.UpTo j :=
      hscrutinee.mono (Nat.le_trans hm (Nat.le_trans hk (Nat.le_trans hl hj)))
    exact List.forall_mem_cons.2 ⟨hfirst, hbodies⟩

theorem keeps_single (h : d.Sound lo) {id : NodeId} (hid : id.UpTo lo) {node : Node}
    (hnode : d.Covers node) : Keeps lo (d.single id node) UpTo := by
  have hbelow := h.below lo node.children (Nat.le_refl _) hnode.children
  unfold single
  split
  case h_6 | h_7 => exact .bind hbelow fun n folded _ hfolded => keeps_rebuild hfolded
  case h_8 =>
    refine .bind (keeps_child h (hnode.child 1)) fun n folded hn hfolded => ?_
    refine .bind keeps_get fun m s hm hs => keeps_rebuild ?_
    have hkey : (node.child 0).UpTo m :=
      (h.upTo_below (hnode.child 0)).mono (Nat.le_trans hn hm)
    exact List.forall_mem_cons.2
      ⟨hkey, List.forall_mem_singleton.2 (hs.1.upTo_unwrap hs.2 (hfolded.mono hm))⟩
  case h_9 => exact keeps_conditional h id hnode
  case h_10 => exact keeps_select h id hnode
  case h_11 =>
    exact .bind (keeps_children h hnode.children) fun n operands _ hoperands =>
      keeps_operation hoperands
  all_goals exact .upTo hid

/-- One term. -/
theorem keeps_term (h : d.Sound lo) (htake : Takes lo take) {id : NodeId}
    (hlt : id.index < d.bound) : Keeps lo (d.term stand take id) KnownTerm := by
  have hid : id.UpTo lo := h.upTo hlt
  unfold term
  refine .bind keeps_get fun n s hn hs => ?_
  have hsound := h.mono hn
  have htakes := Takes.mono htake hn
  split
  · exact .pure fun m hm => hid.mono (Nat.le_trans hn hm)
  · rename_i node hnode
    have hchildren : d.Covers node := covers_of_lt hs.1 hnode hlt
    dsimp only
    split
    · rename_i hle
      exact absurd hle (Nat.not_le_of_lt hlt)
    · split
      · exact keeps_ident hsound htakes (hid.mono hn) node
      · refine .bind (keeps_lambda hsound id hchildren) fun m lambda hm hlambda => ?_
        exact keeps_applyFollowing (hsound.mono hm) (Takes.mono htakes hm) hlambda
      · exact keeps_paren hsound htakes id hchildren
      · exact keeps_counted (keeps_single hsound (hid.mono hn) hchildren) 0

/-- Terms in a row. -/
theorem keeps_terms (h : d.Sound lo) {ids : List NodeId} (hids : ∀ id ∈ ids, id.index < d.bound)
    (stand : Stand) (count skip : Nat) : Keeps lo (d.terms ids stand count skip) KnownTerms := by
  induction ids generalizing lo stand count skip with
  | nil => exact .pure fun _ _ => List.forall_mem_nil _
  | cons id rest ih =>
    obtain ⟨hid, hrest⟩ := List.forall_mem_cons.1 hids
    cases skip with
    | succ skip => exact ih h hrest stand count skip
    | zero =>
      cases count with
      | zero => exact .pure fun _ _ => List.forall_mem_nil _
      | succ count =>
        -- the terms after a function are its arguments: the hypothesis for `rest` serves both
        have htake : Takes lo fun count => d.terms rest .argument count 0 :=
          fun count n hn => ih (h.mono hn) hrest .argument count 0
        unfold terms
        refine .bind (keeps_term h htake hid) fun n term hn hterm => ?_
        obtain ⟨folded, taken⟩ := term
        refine .bind (ih (h.mono hn) hrest stand count taken) fun m others hm hothers => ?_
        exact .pure fun k hk => List.forall_mem_cons.2
          ⟨hterm.mono (Nat.le_trans hm hk), hothers.mono hk⟩

end Descent

/-! ## Nodes -/

section

open Fold
open NodeId (UpTo AllUpTo)

variable {lo : Nat} {env : Environment}

theorem keeps_foldSequence (henv : env.UpTo lo)
    {inside : (name : String) → (parent : Option Nat) → List Word → NodeId → Fold NodeId}
    (hinside : ∀ n name parent words body, lo ≤ n → (∀ word ∈ words, word.kind.UpTo n) →
      body.UpTo n → Keeps n (inside name parent words body) UpTo)
    {bound : Nat} (hbound : bound ≤ lo + 1) {n : Nat} (hn : lo ≤ n) {ids : List NodeId}
    (hids : ∀ id ∈ ids, id.index < bound) :
    Keeps n (foldSequence env inside bound ids) AllUpTo := by
  induction bound generalizing n ids with
  | zero =>
    have hsound : (⟨env, 0, fun _ => return [], inside⟩ : Descent).Sound lo :=
      ⟨henv, hbound, fun m ids _ _ => .pure fun _ _ => List.forall_mem_nil _, hinside⟩
    exact .bind (Descent.keeps_terms (hsound.mono hn) hids .head ids.length 0)
      fun m folded hm hfolded => .pure fun k hk => hfolded.mono hk
  | succ bound ih =>
    have hsound : (⟨env, bound + 1, foldSequence env inside bound, inside⟩ : Descent).Sound lo :=
      ⟨henv, hbound, fun m ids hm hids => ih (Nat.le_of_succ_le hbound) hm fun id hid =>
        Nat.lt_of_succ_lt_succ (hids id hid), hinside⟩
    exact .bind (Descent.keeps_terms (hsound.mono hn) hids .head ids.length 0)
      fun m folded hm hfolded => .pure fun k hk => hfolded.mono hk

/-- The one node of a sequence that is folded by itself. -/
theorem keeps_alone {inside : (name : String) → (parent : Option Nat) → List Word → NodeId →
      Fold NodeId} (henv : env.UpTo lo)
    (hinside : ∀ n name parent words body, lo ≤ n → (∀ word ∈ words, word.kind.UpTo n) →
      body.UpTo n → Keeps n (inside name parent words body) UpTo)
    {id : NodeId} (hid : id.UpTo lo) :
    Keeps lo (do
      if id.isAbsent then return id
      return (← foldSequence env inside (id.index + 1) [id]).headD id) UpTo := by
  split
  · exact .upTo hid
  · refine .bind (keeps_foldSequence henv hinside (Nat.succ_le_succ hid) (Nat.le_refl lo)
      (List.forall_mem_singleton.2 (Nat.lt_succ_self _))) fun n folded hn hfolded => .upTo ?_
    exact upTo_headD hfolded (hid.mono hn)

/-- Folding a node keeps the store grounded, whether it fails or not. It fails only when too many
scopes are entered. -/
theorem keeps_foldWithin (room : Nat) (henv : env.UpTo lo) {id : NodeId} (hid : id.UpTo lo) :
    Keeps lo (foldWithin room env id) UpTo := by
  -- every new scope takes from the room, so the hypothesis covers what is folded inside
  induction room generalizing lo env id with
  | zero =>
    unfold foldWithin
    refine keeps_alone henv (fun n name _ _ _ _ _ _ => ?_) hid
    exact .throw (trivial : (FoldError.runaway ⟨env.limit, name⟩).IsRunaway)
  | succ room ih =>
    unfold foldWithin
    refine keeps_alone henv (fun n name parent words body hn hwords hbody => ?_) hid
    exact ih (((henv.mono hn).push name parent).addWords hwords) hbody

theorem keeps_fold (henv : env.UpTo lo) {id : NodeId} (hid : id.UpTo lo) :
    Keeps lo (fold env id) UpTo := keeps_foldWithin env.room henv hid

end

end Juxta
