import Juxta.Proofs.FormedNodes

/-!
# Folding keeps nodes well-formed

* `WordKind.Formed`, `Environment.Formed` : names that stand for nodes that are stored, or for
  operations with as many operands as they take terms;
* `Fold.Forms` : a step that keeps the nodes of a store well-formed, whether it fails or not, with a
  condition on its result;
* `Descent.Forming` : what the terms of a sequence may rely on;
* `Descent.forms_term`, `Descent.forms_terms`, `forms_fold` : terms, sequences and nodes. What comes
  of a sequence is a sequence, and what comes of a field is a field.
-/

namespace Juxta

/-- What a name stands for is stored, and a builtin function has as many parameters as the operation
that it builds has operands. -/
def WordKind.Formed (s : Store) : WordKind → Prop
  | .value id => id.isAbsent = false → s.Present id
  | .pending => True
  | .function _ body _ => s.Present body
  | .builtin tag arity => tag.operands? = some arity

/-- What the names of all scopes stand for is stored. -/
abbrev Environment.Formed (s : Store) (env : Environment) : Prop :=
  env.AllKinds (WordKind.Formed s)

/-- A node that is stored in the place of another one. Only sequences and fields have to stay what
they are, as there are nodes that may have no others below them. -/
structure Store.Replaces (s : Store) (id : NodeId) (t : Store) (id' : NodeId) : Prop where
  present : t.Present id'
  tag : ∀ tag, tag = .exprs ∨ tag = .binding → s.tag? id = some tag → t.tag? id' = some tag

section

variable {s t u : Store} {id id' : NodeId} {node : Node}

theorem WordKind.Formed.extend {kind : WordKind} (h : kind.Formed s) (he : s.Extends t) :
    kind.Formed t := by
  cases kind with
  | value id => exact fun hp => (h hp).extend he
  | pending => trivial
  | function params body scope => exact Store.Present.extend h he
  | builtin tag arity => exact h

theorem Environment.Formed.extend {env : Environment} (h : env.Formed s) (he : s.Extends t) :
    env.Formed t := h.imp fun _ hk => hk.extend he

namespace Store

theorem Replaces.extend (h : s.Replaces id t id') (he : t.Extends u) : s.Replaces id u id' :=
  ⟨h.present.extend he, fun tag hk ht => he.tag?_of_some (h.tag tag hk ht)⟩

/-- The node that is replaced was there before. -/
theorem Replaces.of_extends (h : t.Replaces id u id') (he : s.Extends t) : s.Replaces id u id' :=
  ⟨h.present, fun tag hk ht => h.tag tag hk (he.tag?_of_some ht)⟩

theorem Replaces.of_tag (hn : s.node? id = some node) (ht : t.tag? id' = some node.tag) :
    s.Replaces id t id' :=
  ⟨present_of_tag? ht, fun _ _ hs => ht.trans ((tag?_of_node? hn).symm.trans hs)⟩

theorem Replaces.of_present (hn : s.node? id = some node) (hp : t.Present id')
    (hne : ¬ (node.tag = .exprs ∨ node.tag = .binding)) : s.Replaces id t id' :=
  ⟨hp, fun _ hk hs => absurd (Option.some.inj ((tag?_of_node? hn).symm.trans hs) ▸ hk) hne⟩

/-- The result of an operation on literals is a literal. -/
theorem formed_of_computed? {tag : Tag} {operands : List NodeId}
    (hc : s.computed? tag operands = some node) (t : Store) : node.Formed t := by
  unfold computed? at hc
  split at hc
  · simp only [bind, Option.bind_eq_some_iff] at hc
    obtain ⟨l, -, r, -, hc⟩ := hc
    split at hc
    case h_7 =>
      obtain ⟨_, -, rfl⟩ := Option.map_eq_some_iff.1 hc
      exact .flag
    all_goals
      obtain ⟨_, -, rfl⟩ := Option.map_eq_some_iff.1 hc
      exact .leaf (.inl rfl)
  · split at hc
    · obtain ⟨_, -, rfl⟩ := Option.map_eq_some_iff.1 hc
      exact .leaf (.inl rfl)
    · cases hc
  · cases hc

theorem Idents.tags {ids : List NodeId} {params : List String} (h : s.Idents ids params) :
    ∀ id ∈ ids, s.tag? id = some .ident := by
  induction h with
  | nil => exact List.forall_mem_nil _
  | cons hid _ ih => exact List.forall_mem_cons.2 ⟨tag?_of_node? hid, ih⟩

theorem Idents.present {ids : List NodeId} {params : List String} (h : s.Idents ids params) :
    s.AllPresent ids := fun id hm => present_of_tag? (h.tags id hm)

end Store

end

/-! ## Steps -/

namespace Fold

open Store (Present AllPresent)

variable {α β : Type} {s t : Store}

/-- A step that only adds well-formed nodes to a store that has those of `s`. Its result, if there
is one, satisfies a condition together with the new store. -/
def Forms (s : Store) (step : Fold α) (post : Store → α → Prop) : Prop :=
  ∀ t, s.Extends t → t.Formed →
    t.Extends (step.run.run t).2 ∧ (step.run.run t).2.Formed ∧
      ∀ a, (step.run.run t).1 = .ok a → post (step.run.run t).2 a

theorem Forms.extend {step : Fold α} {post : Store → α → Prop} (h : Forms s step post)
    (he : s.Extends t) : Forms t step post := fun u hu => h u (he.trans hu)

theorem Forms.pure {a : α} {post : Store → α → Prop} (h : ∀ t, s.Extends t → post t a) :
    Forms s (Pure.pure a) post := by
  refine fun t ht hf => ⟨.refl t, hf, fun b hb => ?_⟩
  cases hb
  exact h t ht

theorem Forms.throw (error : FoldError) (post : Store → α → Prop) :
    Forms s (MonadExcept.throw error) post :=
  fun t _ hf => ⟨.refl t, hf, nofun⟩

theorem Forms.bind {step : Fold α} {next : α → Fold β} {P : Store → α → Prop}
    {Q : Store → β → Prop} (h : Forms s step P)
    (k : ∀ t a, s.Extends t → t.Formed → P t a → Forms t (next a) Q) :
    Forms s (step >>= next) Q := by
  intro t ht hf
  obtain ⟨he, hmid, hpost⟩ := h t ht hf
  rw [run_bind]
  cases hrun : step.run.run t with
  | mk result u =>
    rw [hrun] at he hmid hpost
    cases result with
    | ok a =>
      obtain ⟨he', hend, hpost'⟩ := k u a (ht.trans he) hmid (hpost a rfl) u (.refl u) hmid
      exact ⟨he.trans he', hend, hpost'⟩
    | error error => exact ⟨he, hmid, nofun⟩

theorem Forms.imp {step : Fold α} {P Q : Store → α → Prop} (h : Forms s step P)
    (k : ∀ t a, s.Extends t → P t a → Q t a) : Forms s step Q := by
  intro t ht hf
  obtain ⟨he, hend, hpost⟩ := h t ht hf
  exact ⟨he, hend, fun a ha => k _ a (ht.trans he) (hpost a ha)⟩

/-- The store as it is. -/
theorem forms_get : Forms s get fun t a => a = t := by
  refine fun t _ hf => ⟨.refl t, hf, fun a ha => ?_⟩
  cases ha
  rfl

theorem forms_intern {node : Node} (hn : node.Formed s) (coord : Option Coord) :
    Forms s (intern node coord) fun t id => t.node? id = some node := by
  refine fun t ht hf => ⟨t.extends_intern node coord, hf.intern (hn.extend ht) coord, ?_⟩
  intro id hid
  cases hid
  exact t.node?_intern node coord

theorem forms_rebuild {tag : Tag} {children : List NodeId} (origin : NodeId)
    (hn : (Node.branch tag children).Formed s) :
    Forms s (rebuild origin tag children) fun t id => t.node? id = some (.branch tag children) := by
  refine fun t ht hf => ⟨t.extends_intern _ _, hf.intern (hn.extend ht) _, ?_⟩
  intro id hid
  cases hid
  exact t.node?_intern _ _

theorem forms_idents (params : List String) :
    Forms s (idents params) fun t ids => t.Idents ids params := by
  induction params generalizing s with
  | nil => exact .pure fun _ _ => List.Forall₂.nil
  | cons param rest ih =>
    refine .bind (forms_intern (.leaf (.inr (.inr rfl))) _) fun t id _ _ hid => ?_
    refine .bind ih fun u ids hu _ hids => ?_
    exact .pure fun v hv => List.Forall₂.cons ((hu.trans hv).node?_of_some hid) (hids.extend hv)

/-- A lambda over some parameters, or the body alone. -/
theorem forms_residual (unbound : List String) {body : NodeId} (h : s.Present body) :
    Forms s (residual unbound body) Present := by
  unfold residual
  split
  · exact .pure fun t ht => h.extend ht
  · refine .bind (forms_idents unbound) fun t ids ht _ hids => ?_
    refine .bind (forms_intern (.row (.inr rfl) hids.present) _) fun u list hu _ hlist => ?_
    have hlambda : ∀ v sequence, u.Extends v → v.tag? sequence = some .exprs →
        Forms v (intern (.branch .lambda [list, sequence]) none) Present := by
      intro v sequence hv hsequence
      refine (forms_intern (.lambda (hv.node?_of_some hlist) (fun param hm => ?_) hsequence) _).imp
        fun w id _ hid => ⟨_, hid⟩
      exact (hu.trans hv).tag?_of_some (hids.tags param hm)
    refine .bind forms_get fun _ v hv _ heq => ?_
    subst heq
    dsimp only
    split
    · rename_i htag
      exact .bind (.pure fun w hw => hw.tag?_of_some htag) fun w sequence hw _ hsequence =>
        hlambda w sequence (hv.trans hw) hsequence
    · have hrow : (Node.branch .exprs [body]).Formed v :=
        .row (.inl rfl) (List.forall_mem_singleton.2 (h.extend (ht.trans (hu.trans hv))))
      exact .bind (forms_intern hrow _) fun w sequence hw _ hsequence =>
        hlambda w sequence (hv.trans hw) (Store.tag?_of_node? hsequence)

theorem forms_operation {tag : Tag} {operands : List NodeId}
    (h : (Node.branch tag operands).Formed s) (origin : NodeId) :
    Forms s (operation origin tag operands) Present := by
  unfold operation
  refine .bind forms_get fun _ t ht _ heq => ?_
  subst heq
  split
  · rename_i result hc
    exact (forms_intern (Store.formed_of_computed? hc _) _).imp fun u id _ hid => ⟨_, hid⟩
  · exact (forms_rebuild origin (h.extend ht)).imp fun u id _ hid => ⟨_, hid⟩

/-- A builtin function with as many arguments as it takes or fewer. -/
theorem forms_builtin {tag : Tag} {arity : Nat} (hr : tag.operands? = some arity)
    {arguments : List NodeId} (h : s.AllPresent arguments) (hlength : arguments.length ≤ arity)
    (origin : NodeId) : Forms s (builtin origin tag arity arguments) Present := by
  unfold builtin
  dsimp only
  generalize hunbound : (List.range' arguments.length (arity - arguments.length)).map _ = unbound
  have hcount : unbound.length = arity - arguments.length := by
    rw [← hunbound, List.length_map, List.length_range']
  refine .bind (forms_idents unbound) fun t ids ht _ hids => ?_
  refine .bind (forms_operation (.operation ?_ fun operand hm => ?_) origin) fun u node _ _ hnode =>
    forms_residual unbound hnode
  · rw [hr, List.length_append, hids.length_eq, hcount]
    congr 1
    omega
  · rcases List.mem_append.1 hm with hm | hm
    · exact (h operand hm).extend ht
    · exact hids.present operand hm

end Fold

/-! ## Terms -/

section

variable {s t : Store}

/-- The words of parameters stand for their arguments, or for themselves. -/
theorem formed_bindParams {arguments : List NodeId} (h : s.AllPresent arguments) (offset : Nat)
    (params : List String) : ∀ word ∈ bindParams offset params arguments, word.kind.Formed s := by
  induction params generalizing offset arguments with
  | nil => exact List.forall_mem_nil _
  | cons param rest ih =>
    cases arguments with
    | nil => exact List.forall_mem_cons.2 ⟨nofun, ih h (offset + 1)⟩
    | cons argument others =>
      obtain ⟨hfirst, hrest⟩ := List.forall_mem_cons.1 h
      exact List.forall_mem_cons.2 ⟨fun _ => hfirst, ih hrest (offset + 1)⟩

namespace Descent

open Fold
open Store (Present AllPresent)

/-- What the terms of a sequence may rely on: sequences below them and nodes in new scopes are
folded to nodes that are stored. -/
structure Forming (d : Descent) (s : Store) : Prop where
  env : d.env.Formed s
  below : 0 < d.bound → ∀ t ids, s.Extends t → t.AllPresent ids →
    Forms t (d.below ids) AllPresent
  /-- A sequence of one node gives at least one. -/
  alone : 0 < d.bound → ∀ t id, s.Extends t → t.Present id →
    Forms t (d.below [id]) fun u folded => ∃ id' rest, folded = id' :: rest ∧ t.Replaces id u id'
  inside : ∀ t name parent words body, s.Extends t → (∀ word ∈ words, word.kind.Formed t) →
    t.Present body → Forms t (d.inside name parent words body) (t.Replaces body)

variable {d : Descent} {stand : Stand} {take : Nat → Fold (List NodeId × Nat)}

theorem Forming.extend (h : d.Forming s) (he : s.Extends t) : d.Forming t :=
  ⟨h.env.extend he, fun hb u ids hu => h.below hb u ids (he.trans hu),
    fun hb u id hu => h.alone hb u id (he.trans hu),
    fun u name parent words body hu => h.inside u name parent words body (he.trans hu)⟩

/-- Folds the next terms as arguments, at most as many as are asked for. -/
abbrev TakesPresent (s : Store) (take : Nat → Fold (List NodeId × Nat)) : Prop :=
  ∀ count, Forms s (take count) fun t taken => t.AllPresent taken.1 ∧ taken.1.length ≤ count

/-- A result with the number of the terms that were taken. -/
abbrev TermPresent (t : Store) (term : NodeId × Nat) : Prop := t.Present term.1

theorem forms_counted {step : Fold NodeId} {P : Store → NodeId → Prop} (h : Forms s step P)
    (hp : ∀ t u id, t.Extends u → P t id → P u id) (count : Nat) :
    Forms s (do return (← step, count)) fun t term => P t term.1 :=
  .bind h fun t id _ _ hid => .pure fun u hu => hp t u id hu hid

theorem forms_countedPresent {step : Fold NodeId} (h : Forms s step Present) (count : Nat) :
    Forms s (do return (← step, count)) TermPresent :=
  forms_counted h (fun _ _ _ he hid => Store.Present.extend hid he) count

theorem forms_child (h : d.Forming s) (hb : 0 < d.bound) {id : NodeId} (hid : s.Present id) :
    Forms s (d.child id) (s.Replaces id) := by
  unfold child
  rw [hid.isAbsent]
  refine .bind (h.alone hb s id (.refl s) hid) fun t folded _ _ hfolded => .pure fun u hu => ?_
  obtain ⟨id', rest, rfl, hreplaces⟩ := hfolded
  exact hreplaces.extend hu

/-- A branch that may be missing. -/
theorem forms_branch (h : d.Forming s) (hb : 0 < d.bound) {id : NodeId}
    (hid : id = .absent ∨ s.Present id) :
    Forms s (d.child id) fun t folded => folded = .absent ∨ t.Present folded := by
  rcases hid with rfl | hid
  · exact .pure fun _ _ => .inl rfl
  · exact (forms_child h hb hid).imp fun t folded _ hfolded => .inr hfolded.present

/-- As many nodes as there are children, each in the place of one. -/
theorem forms_children (h : d.Forming s) (hb : 0 < d.bound) {ids : List NodeId}
    (hids : s.AllPresent ids) :
    Forms s (d.children ids) fun t folded =>
      folded.length = ids.length ∧ ∀ id' ∈ folded, ∃ id ∈ ids, s.Replaces id t id' := by
  induction ids generalizing s with
  | nil => exact .pure fun _ _ => ⟨rfl, List.forall_mem_nil _⟩
  | cons id rest ih =>
    obtain ⟨hid, hrest⟩ := List.forall_mem_cons.1 hids
    unfold children
    refine .bind (forms_child h hb hid) fun t folded ht _ hfolded => ?_
    refine .bind (ih (h.extend ht) (Store.AllPresent.extend hrest ht)) fun u others hu _ hothers =>
      .pure fun v hv => ⟨congrArg (· + 1) hothers.1, List.forall_mem_cons.2 ⟨?_, fun id' hm => ?_⟩⟩
    · exact ⟨id, List.mem_cons_self, hfolded.extend (hu.trans hv)⟩
    · obtain ⟨old, hold, hreplaces⟩ := hothers.2 id' hm
      exact ⟨old, List.mem_cons_of_mem _ hold, (hreplaces.extend hv).of_extends ht⟩

theorem forms_expand (h : d.Forming s) (name : String) (parent : Option Nat)
    (params : List String) {body : NodeId} (hbody : s.Present body) {arguments : List NodeId}
    (hargs : s.AllPresent arguments) :
    Forms s (d.expand name parent params body arguments) Present := by
  unfold expand
  refine .bind (h.inside s name parent _ body (.refl s) (formed_bindParams hargs 0 params) hbody)
    fun t folded _ _ hfolded => ?_
  refine .bind forms_get fun _ u hu hf heq => ?_
  subst heq
  exact forms_residual _ (.unwrap hf (hfolded.present.extend hu))

theorem forms_applyFollowing (h : d.Forming s) (htake : TakesPresent s take) {lambda : NodeId}
    (htag : s.tag? lambda = some .lambda) :
    Forms s (d.applyFollowing stand take lambda) TermPresent := by
  have hlambda := Store.present_of_tag? htag
  unfold applyFollowing
  split
  · exact .pure fun t ht => hlambda.extend ht
  · refine .bind forms_get fun _ t ht _ heq => ?_
    subst heq
    dsimp only
    refine .bind ((htake _).extend ht) fun u taken hu _ htaken => ?_
    obtain ⟨arguments, count⟩ := taken
    have hle := ht.trans hu
    dsimp only
    split
    · exact .pure fun v hv => hlambda.extend (hle.trans hv)
    · refine .bind forms_get fun _ v hv hf heq => ?_
      subst heq
      obtain ⟨node, hnode, hkind⟩ := Option.map_eq_some_iff.1 ((hle.trans hv).tag?_of_some htag)
      obtain ⟨list, body, params, rfl, -, -, hbody⟩ := (hf _ _ hnode).of_lambda hkind
      have hsame : v.body lambda = body := by
        unfold Store.body
        rw [hnode]
        rfl
      rw [hsame]
      exact forms_countedPresent (forms_expand (h.extend (hle.trans hv)) "lambda" none _
        (Store.present_of_tag? hbody) (htaken.1.extend hv)) count

theorem forms_ident (h : d.Forming s) (htake : TakesPresent s take) {id : NodeId}
    (hid : s.Present id) (node : Node) : Forms s (d.ident stand take id node) TermPresent := by
  unfold ident
  dsimp only
  split
  · rename_i bound _ _ hfind
    have hbound := h.env.find? hfind
    split
    · exact .pure fun t ht => hid.extend ht
    · rename_i hp
      have hpresent : s.Present bound := hbound (Bool.not_eq_true _ ▸ hp)
      refine .bind forms_get fun _ t ht _ heq => ?_
      subst heq
      split
      · rename_i htag
        exact forms_applyFollowing (h.extend ht) (fun count => (htake count).extend ht) htag
      · exact .pure fun u hu => hpresent.extend (ht.trans hu)
  · rename_i params body scope _ _ hfind
    have hbody : s.Present body := h.env.find? hfind
    refine .bind (htake _) fun t taken ht _ htaken => ?_
    obtain ⟨arguments, count⟩ := taken
    exact forms_countedPresent
      (forms_expand (h.extend ht) _ _ _ (hbody.extend ht) htaken.1) count
  · rename_i tag arity _ _ hfind
    refine .bind (htake _) fun t taken ht _ htaken => ?_
    obtain ⟨arguments, count⟩ := taken
    exact forms_countedPresent (forms_builtin (h.env.find? hfind) htaken.1 htaken.2 id) count
  · exact .pure fun t ht => hid.extend ht

theorem forms_lambda (h : d.Forming s) (hf : s.Formed) {id : NodeId} {node : Node}
    (hn : s.node? id = some node) (ht : node.tag = .lambda) :
    Forms s (d.lambda id node) fun t lambda => t.tag? lambda = some .lambda := by
  obtain ⟨list, body, params, rfl, hlist, hparams, hbody⟩ := (hf id node hn).of_lambda ht
  unfold lambda
  refine .bind forms_get fun _ t ht _ heq => ?_
  subst heq
  dsimp only
  have hpresent : t.Present body := (Store.present_of_tag? hbody).extend ht
  refine .bind (h.inside t "lambda" none _ body ht
    (formed_bindParams (List.forall_mem_nil _) 0 _) hpresent) fun u folded hu _ hfolded => ?_
  have hle := ht.trans hu
  refine (forms_rebuild id (.lambda (hle.node?_of_some hlist) (fun param hm => ?_) ?_)).imp
    fun v lambda _ hlambda => Store.tag?_of_node? hlambda
  · exact hle.tag?_of_some (hparams param hm)
  · exact hfolded.tag _ (.inl rfl) (ht.tag?_of_some hbody)

theorem forms_paren (h : d.Forming s) (hf : s.Formed) (hb : 0 < d.bound)
    (htake : TakesPresent s take) {id : NodeId} {node : Node} (hn : s.node? id = some node)
    (ht : node.tag = .paren) : Forms s (d.paren stand take id node) TermPresent := by
  have hone : node.tag.operands? = some 1 := ht ▸ rfl
  obtain ⟨operands, hnode, hlength, hall⟩ := (hf id node hn).of_operation hone
  obtain ⟨inner, rfl⟩ := List.length_eq_one_iff.1 hlength
  rw [ht] at hnode
  subst hnode
  have hinner : s.Present inner := hall inner List.mem_cons_self
  unfold paren
  dsimp only
  refine .bind forms_get fun _ t ht hft heq => ?_
  subst heq
  refine .bind (h.below hb t _ ht ?_) fun u folded hu _ hfolded => ?_
  · have hchild : (Node.branch .paren [inner]).child 0 = inner := rfl
    rw [hchild]
    split
    · rename_i sequence hsequence
      split
      · rename_i hexprs
        obtain ⟨ids, hids, hpresent⟩ := (hft _ _ hsequence).of_row (.inl hexprs)
        rw [hids, Node.children_branch]
        exact hpresent
      · exact List.forall_mem_singleton.2 (hinner.extend ht)
    · exact List.forall_mem_nil _
  · refine .bind forms_get fun _ v hv _ heq => ?_
    subst heq
    have hall : v.AllPresent folded := hfolded.extend hv
    have hkeep : Forms v (do
        let sequence ← rebuild inner .exprs folded
        return (← rebuild id .paren [sequence], 0)) TermPresent := by
      refine .bind (forms_rebuild inner (.row (.inl rfl) hall)) fun w sequence _ _ hsequence => ?_
      refine forms_countedPresent ((forms_rebuild id (.operation rfl ?_)).imp
        fun x paren _ hparen => ⟨_, hparen⟩) 0
      exact List.forall_mem_singleton.2 ⟨_, hsequence⟩
    have hle := ht.trans (hu.trans hv)
    split
    · rename_i only
      split
      · rename_i htag
        exact forms_applyFollowing (h.extend hle) (fun count => (htake count).extend hle) htag
      · exact hkeep
      · exact hkeep
      · exact hkeep
      · exact hkeep
      · exact .pure fun w hw => (hall only List.mem_cons_self).extend hw
    · exact hkeep

/-- Whatever has been folded, without the sequence around a single term. -/
theorem forms_unwrap {step : Fold NodeId} {P : Store → NodeId → Prop} (h : Forms s step P)
    (hp : ∀ t id, P t id → t.Present id) :
    Forms s (do
      let folded ← step
      return (← get).unwrap folded) Present := by
  refine .bind h fun t folded _ _ hfolded => .bind forms_get fun _ u hu hf heq => ?_
  subst heq
  have hpresent := (hp t folded hfolded).extend hu
  exact .pure fun v hv => (hpresent.unwrap hf).extend hv

theorem forms_conditional (h : d.Forming s) (hf : s.Formed) (hb : 0 < d.bound) {id : NodeId}
    {node : Node} (hn : s.node? id = some node) (ht : node.tag = .ifThen) :
    Forms s (d.conditional id node) Present := by
  obtain ⟨condition, yes, no, rfl, hcondition, hyes, hno⟩ := (hf id node hn).of_choice ht
  unfold conditional
  refine .bind (forms_child h hb hcondition) fun t folded ht _ hfolded => ?_
  refine .bind forms_get fun _ u hu _ heq => ?_
  subst heq
  have hle := ht.trans hu
  split
  · rename_i truth _
    dsimp only
    generalize hbranch : (if truth = true then (Node.branch .ifThen [condition, yes, no]).child 1
      else (Node.branch .ifThen [condition, yes, no]).child 2) = branch
    split
    · exact (forms_intern (.bare (.inl rfl)) _).imp fun v id _ hid => ⟨_, hid⟩
    · rename_i hp
      have hpresent : s.Present branch := by
        subst hbranch
        cases truth with
        | true => exact hyes
        | false =>
          refine hno.resolve_left fun habsent => hp ?_
          rw [habsent]
          rfl
      exact forms_unwrap (forms_child (h.extend hle) hb (hpresent.extend hle))
        fun _ _ => Store.Replaces.present
  · refine .bind (forms_child (h.extend hle) hb (hyes.extend hle)) fun v yes hv _ hyes => ?_
    refine .bind (forms_branch (h.extend (hle.trans hv)) hb
      (hno.imp_right fun hno => hno.extend (hle.trans hv))) fun w no hw _ hno => ?_
    refine (forms_rebuild id (.choice ?_ (hyes.present.extend hw) hno)).imp
      fun x id _ hid => ⟨_, hid⟩
    exact hfolded.present.extend (hu.trans (hv.trans hw))

/-- Clauses whose pattern and body are stored. -/
abbrev ClausesPresent (t : Store) (clauses : List Clause) : Prop :=
  ∀ clause ∈ clauses, t.Present clause.pattern ∧ t.Present clause.body

theorem ClausesPresent.extend {clauses : List Clause} (h : ClausesPresent s clauses)
    (he : s.Extends t) : ClausesPresent t clauses :=
  fun clause hm => ⟨(h clause hm).1.extend he, (h clause hm).2.extend he⟩

theorem forms_patterns (h : d.Forming s) (hb : 0 < d.bound) {clauses : List NodeId}
    (hc : ∀ clause ∈ clauses, s.tag? clause = some .clause) :
    Forms s (d.patterns clauses) ClausesPresent := by
  induction clauses generalizing s with
  | nil => exact .pure fun _ _ => List.forall_mem_nil _
  | cons id rest ih =>
    obtain ⟨hid, hrest⟩ := List.forall_mem_cons.1 hc
    have later : ∀ t, s.Extends t → Forms t (d.patterns rest) ClausesPresent :=
      fun t he => ih (h.extend he) fun id hm => he.tag?_of_some (hrest id hm)
    unfold patterns
    refine .bind forms_get fun _ t ht hf heq => ?_
    subst heq
    split
    · exact later t ht
    · rename_i clause hclause
      have htag : clause.tag = .clause :=
        Option.some.inj ((Store.tag?_of_node? hclause).symm.trans (ht.tag?_of_some hid))
      have htwo : clause.tag.operands? = some 2 := htag ▸ rfl
      obtain ⟨operands, hnode, hlength, hall⟩ := (hf _ _ hclause).of_operation htwo
      obtain ⟨pattern, body, rfl⟩ := List.length_eq_two.1 hlength
      obtain ⟨hpattern, hbody⟩ := List.forall_mem_cons.1 hall
      rw [hnode]
      refine .bind (forms_child (h.extend ht) hb hpattern) fun u folded hu _ hfolded => ?_
      refine .bind forms_get fun _ v hv hfv heq => ?_
      subst heq
      have hle := hu.trans hv
      refine .bind (later v (ht.trans hle)) fun w others hw _ hothers => ?_
      refine .pure fun x hx => List.forall_mem_cons.2 ⟨⟨?_, ?_⟩, ClausesPresent.extend hothers hx⟩
      · exact ((hfolded.present.extend hv).unwrap hfv).extend (hw.trans hx)
      · exact (List.forall_mem_singleton.1 hbody).extend (hle.trans (hw.trans hx))

/-- The clauses with their bodies. -/
theorem forms_bodies (h : d.Forming s) (hb : 0 < d.bound) {clauses : List Clause}
    (hc : ClausesPresent s clauses) :
    Forms s (d.bodies clauses) fun t folded =>
      ∀ clause ∈ folded, t.tag? clause = some .clause := by
  induction clauses generalizing s with
  | nil => exact .pure fun _ _ => List.forall_mem_nil _
  | cons clause rest ih =>
    obtain ⟨⟨hpattern, hbody⟩, hrest⟩ := List.forall_mem_cons.1 hc
    unfold bodies
    refine .bind (forms_child h hb hbody) fun t body ht _ hfolded => ?_
    have hformed : (Node.branch .clause [clause.pattern, body]).Formed t :=
      .operation rfl (List.forall_mem_cons.2
        ⟨hpattern.extend ht, List.forall_mem_singleton.2 hfolded.present⟩)
    refine .bind (forms_rebuild clause.node hformed) fun u rebuilt hu _ hrebuilt => ?_
    have hle := ht.trans hu
    refine .bind (ih (h.extend hle) (ClausesPresent.extend hrest hle)) fun v others hv _ hothers =>
      .pure fun w hw => List.forall_mem_cons.2 ⟨?_, fun id hm => hw.tag?_of_some (hothers id hm)⟩
    exact (hv.trans hw).tag?_of_some (Store.tag?_of_node? hrebuilt)

theorem forms_select (h : d.Forming s) (hf : s.Formed) (hb : 0 < d.bound) {id : NodeId}
    {node : Node} (hn : s.node? id = some node) (ht : node.tag = .case) :
    Forms s (d.select id node) Present := by
  obtain ⟨scrutinee, clauses, rfl, hscrutinee, hclauses⟩ := (hf id node hn).of_case ht
  have hrest : (Node.branch .case (scrutinee :: clauses)).children.drop 1 = clauses := by
    rw [Node.children_branch]
    rfl
  unfold select
  rw [hrest]
  refine .bind (forms_child h hb hscrutinee) fun t folded ht _ hfolded => ?_
  refine .bind forms_get fun _ u hu _ heq => ?_
  subst heq
  have hle := ht.trans hu
  dsimp only
  refine .bind (forms_patterns (h.extend hle) hb fun id hm => hle.tag?_of_some (hclauses id hm))
    fun v clauses hv _ hclauses => ?_
  refine .bind forms_get fun _ w hw _ heq => ?_
  subst heq
  have hknown := ClausesPresent.extend hclauses hw
  have hforming := h.extend (hle.trans (hv.trans hw))
  split
  · rename_i clause hclause
    have hm : clause ∈ clauses := mem_of_decided? (Option.ite_none_right_eq_some.1 hclause).2
    exact forms_unwrap (forms_child hforming hb (hknown clause hm).2)
      fun _ _ => Store.Replaces.present
  · refine .bind (forms_bodies hforming hb hknown) fun x bodies hx _ hbodies => ?_
    refine (forms_rebuild id (.case ?_ hbodies)).imp fun y id _ hid => ⟨_, hid⟩
    exact hfolded.present.extend (hu.trans (hv.trans (hw.trans hx)))

theorem forms_operands (h : d.Forming s) (hf : s.Formed) (hb : 0 < d.bound) {id : NodeId}
    {node : Node} (hn : s.node? id = some node) {count : Nat}
    (ht : node.tag.operands? = some count) :
    Forms s (do operation id node.tag (← d.children node.children)) Present := by
  obtain ⟨operands, hnode, hlength, hall⟩ := (hf id node hn).of_operation ht
  rw [hnode, Node.children_branch]
  refine .bind (forms_children h hb hall) fun t folded _ _ hfolded => ?_
  refine forms_operation (.operation ?_ fun operand hm => ?_) id
  · show node.tag.operands? = _
    rw [ht, hfolded.1, hlength]
  · obtain ⟨old, -, hreplaces⟩ := hfolded.2 operand hm
    exact hreplaces.present

theorem forms_record (h : d.Forming s) (hf : s.Formed) (hb : 0 < d.bound) {id : NodeId}
    {node : Node} (hn : s.node? id = some node) (ht : node.tag = .record) :
    Forms s (do operation id node.tag (← d.children node.children)) Present := by
  obtain ⟨fields, rfl, hfields⟩ := (hf id node hn).of_record ht
  rw [Node.children_branch]
  have hall : s.AllPresent fields := fun field hm => Store.present_of_tag? (hfields field hm)
  refine .bind (forms_children h hb hall) fun t folded _ _ hfolded => ?_
  refine forms_operation (.record fun field hm => ?_) id
  obtain ⟨old, hold, hreplaces⟩ := hfolded.2 field hm
  exact hreplaces.tag _ (.inr rfl) (hfields old hold)

theorem forms_row (h : d.Forming s) (hf : s.Formed) (hb : 0 < d.bound) {id : NodeId}
    {node : Node} (hn : s.node? id = some node) (ht : node.tag = .exprs ∨ node.tag = .list) :
    Forms s (do rebuild id node.tag (← d.below node.children)) (s.Replaces id) := by
  obtain ⟨ids, hnode, hall⟩ := (hf id node hn).of_row ht
  have hchildren : node.children = ids := hnode ▸ Node.children_branch _ _
  rw [hchildren]
  refine .bind (h.below hb s ids (.refl s) hall) fun t folded _ _ hfolded => ?_
  refine (forms_rebuild id (.row ht hfolded)).imp fun u id' _ hid => ?_
  exact .of_tag hn (by rw [Store.tag?_of_node? hid]; rfl)

theorem forms_binding (h : d.Forming s) (hf : s.Formed) (hb : 0 < d.bound) {id : NodeId}
    {node : Node} (hn : s.node? id = some node) (ht : node.tag = .binding) :
    Forms s (do
      let folded ← d.child (node.child 1)
      rebuild id .binding [node.child 0, (← get).unwrap folded]) (s.Replaces id) := by
  obtain ⟨key, value, rfl, hkey, hvalue⟩ := (hf id node hn).of_binding ht
  refine .bind (forms_child h hb hvalue) fun t folded ht _ hfolded => ?_
  refine .bind forms_get fun _ u hu hfu heq => ?_
  subst heq
  have hle := ht.trans hu
  have hpresent := (hfolded.present.extend hu).unwrap hfu
  refine (forms_rebuild id (.binding (hle.tag?_of_some hkey) hpresent)).imp fun v id' _ hid => ?_
  exact .of_tag hn (by rw [Store.tag?_of_node? hid]; rfl)

theorem forms_single (h : d.Forming s) (hf : s.Formed) (hb : 0 < d.bound) {id : NodeId}
    {node : Node} (hn : s.node? id = some node)
    (hterm : node.tag ≠ .ident ∧ node.tag ≠ .lambda ∧ node.tag ≠ .paren) :
    Forms s (d.single id node) (s.Replaces id) := by
  have same : ∀ t, s.Extends t → s.Replaces id t id :=
    fun t he => .of_tag hn (he.tag?_of_some (Store.tag?_of_node? hn))
  have other : ∀ {step : Fold NodeId}, ¬ (node.tag = .exprs ∨ node.tag = .binding) →
      Forms s step Present → Forms s step (s.Replaces id) :=
    fun hne hstep => hstep.imp fun t id' _ hid => .of_present hn hid hne
  unfold single
  split
  case h_6 ht => exact forms_row h hf hb hn (.inl ht)
  case h_7 ht => exact forms_row h hf hb hn (.inr ht)
  case h_8 ht => exact forms_binding h hf hb hn ht
  case h_9 ht => exact other (by rw [ht]; nofun) (forms_conditional h hf hb hn ht)
  case h_10 ht => exact other (by rw [ht]; nofun) (forms_select h hf hb hn ht)
  case h_11 =>
    refine other (by grind) ?_
    by_cases hrecord : node.tag = .record
    · exact forms_record h hf hb hn hrecord
    · cases hcount : node.tag.operands? with
      | some count => exact forms_operands h hf hb hn hcount
      | none =>
        have hkind := Tag.kind_of_operands? hcount
        simp_all
  all_goals exact .pure same

/-- One term. -/
theorem forms_term (h : d.Forming s) (htake : TakesPresent s take) {id : NodeId}
    (hid : s.Present id) :
    Forms s (d.term stand take id) fun t term => s.Replaces id t term.1 := by
  unfold term
  refine .bind forms_get fun _ t ht hf heq => ?_
  subst heq
  obtain ⟨node, hnode⟩ := hid.extend ht
  have hforming := h.extend ht
  have htakes : TakesPresent t take := fun count => (htake count).extend ht
  have of_present : ∀ {step : Fold (NodeId × Nat)}, ¬ (node.tag = .exprs ∨ node.tag = .binding) →
      Forms t step TermPresent → Forms t step fun u term => s.Replaces id u term.1 :=
    fun hne hstep => hstep.imp fun u term _ hterm =>
      (Store.Replaces.of_present hnode hterm hne).of_extends ht
  rw [hnode]
  dsimp only
  split
  · exact .bind (.throw _ fun _ _ => False) fun _ _ _ _ => False.elim
  · rename_i hlt
    have hb : 0 < d.bound := Nat.zero_lt_of_lt (Nat.lt_of_not_le hlt)
    split
    · rename_i htag
      refine of_present (by rw [htag]; nofun) ?_
      exact forms_ident hforming htakes ⟨node, hnode⟩ node
    · rename_i htag
      refine of_present (by rw [htag]; nofun) ?_
      refine .bind (forms_lambda hforming hf hnode htag) fun u lambda hu _ hlambda => ?_
      exact forms_applyFollowing (hforming.extend hu) (fun count => (htakes count).extend hu)
        hlambda
    · rename_i htag
      refine of_present (by rw [htag]; nofun) ?_
      exact forms_paren hforming hf hb htakes hnode htag
    · rename_i hident hlambda hparen
      refine (forms_counted (forms_single hforming hf hb hnode ⟨hident, hlambda, hparen⟩)
        (fun _ _ _ he hreplaces => hreplaces.extend he) 0).imp fun u term _ hterm => ?_
      exact hterm.of_extends ht

/-- Terms in a row. -/
theorem forms_terms (h : d.Forming s) {ids : List NodeId} (hids : s.AllPresent ids)
    (stand : Stand) (count skip : Nat) :
    Forms s (d.terms ids stand count skip) fun t folded =>
      t.AllPresent folded.1 ∧ folded.1.length ≤ count := by
  induction ids generalizing s stand count skip with
  | nil => exact .pure fun _ _ => ⟨List.forall_mem_nil _, Nat.zero_le _⟩
  | cons id rest ih =>
    obtain ⟨hid, hrest⟩ := List.forall_mem_cons.1 hids
    cases skip with
    | succ skip => exact ih h hrest stand count skip
    | zero =>
      cases count with
      | zero => exact .pure fun _ _ => ⟨List.forall_mem_nil _, Nat.zero_le _⟩
      | succ count =>
        -- the terms after a function are its arguments: the hypothesis for `rest` serves both
        have htake : TakesPresent s fun count => d.terms rest .argument count 0 :=
          fun count => ih h hrest .argument count 0
        unfold terms
        refine .bind (forms_term h htake hid) fun t term ht _ hterm => ?_
        obtain ⟨folded, taken⟩ := term
        refine .bind (ih (h.extend ht) (Store.AllPresent.extend hrest ht) stand count taken)
          fun u others hu _ hothers => .pure fun v hv => ⟨?_, Nat.succ_le_succ hothers.2⟩
        exact List.forall_mem_cons.2
          ⟨hterm.present.extend (hu.trans hv), Store.AllPresent.extend hothers.1 hv⟩

/-- All terms of a sequence. -/
theorem forms_all (h : d.Forming s) {ids : List NodeId} (hids : s.AllPresent ids) :
    Forms s (do return (← d.terms ids .head ids.length 0).1) AllPresent :=
  .bind (forms_terms h hids .head ids.length 0) fun _ _ _ _ hfolded => .pure fun _ hu =>
    Store.AllPresent.extend hfolded.1 hu

/-- The only term of a sequence. -/
theorem forms_only (h : d.Forming s) {id : NodeId} (hid : s.Present id) :
    Forms s (do return (← d.terms [id] .head 1 0).1) fun t folded =>
      ∃ id' rest, folded = id' :: rest ∧ s.Replaces id t id' := by
  have htake : TakesPresent s fun count => d.terms [] .argument count 0 :=
    fun count => forms_terms h (List.forall_mem_nil _) .argument count 0
  unfold terms
  rw [bind_assoc]
  refine .bind (forms_term h htake hid) fun t term _ _ hterm => ?_
  obtain ⟨folded, taken⟩ := term
  exact .pure fun u hu => ⟨folded, [], rfl, hterm.extend hu⟩

end Descent

/-! ## Nodes -/

section

open Fold
open Store (AllPresent)

variable {env : Environment}
  {inside : (name : String) → (parent : Option Nat) → List Word → NodeId → Fold NodeId}

/-- Nodes in new scopes are folded to nodes that are stored. -/
abbrev FormsInside (s : Store)
    (inside : (name : String) → (parent : Option Nat) → List Word → NodeId → Fold NodeId) : Prop :=
  ∀ t name parent words body, s.Extends t → (∀ word ∈ words, word.kind.Formed t) →
    t.Present body → Forms t (inside name parent words body) (t.Replaces body)

theorem FormsInside.extend (h : FormsInside s inside) (he : s.Extends t) : FormsInside t inside :=
  fun u name parent words body hu => h u name parent words body (he.trans hu)

theorem forming_foldSequence (henv : env.Formed s) (hinside : FormsInside s inside) (bound : Nat) :
    Descent.Forming ⟨env, bound + 1, foldSequence env inside bound, inside⟩ s := by
  induction bound generalizing s with
  | zero =>
    have hd : ∀ t, s.Extends t →
        Descent.Forming ⟨env, 0, fun _ => return [], inside⟩ t := fun t ht =>
      ⟨henv.extend ht, fun hb => absurd hb (Nat.lt_irrefl 0),
        fun hb => absurd hb (Nat.lt_irrefl 0), hinside.extend ht⟩
    exact ⟨henv, fun _ t ids ht hids => Descent.forms_all (hd t ht) hids,
      fun _ t id ht hid => Descent.forms_only (hd t ht) hid, hinside⟩
  | succ bound ih =>
    exact ⟨henv, fun _ t ids ht hids =>
        Descent.forms_all (ih (henv.extend ht) (hinside.extend ht)) hids,
      fun _ t id ht hid => Descent.forms_only (ih (henv.extend ht) (hinside.extend ht)) hid,
      hinside⟩

/-- The one node of a sequence that is folded by itself. -/
theorem forms_alone (henv : env.Formed s) (hinside : FormsInside s inside) {id : NodeId}
    (hid : s.Present id) :
    Forms s (do
      if id.isAbsent then return id
      return (← foldSequence env inside (id.index + 1) [id]).headD id) (s.Replaces id) := by
  rw [hid.isAbsent]
  refine .bind (Descent.forms_only (forming_foldSequence henv hinside id.index) hid)
    fun t folded _ _ hfolded => .pure fun u hu => ?_
  obtain ⟨id', rest, rfl, hreplaces⟩ := hfolded
  exact hreplaces.extend hu

theorem forms_foldWithin (room : Nat) (henv : env.Formed s) {id : NodeId} (hid : s.Present id) :
    Forms s (foldWithin room env id) (s.Replaces id) := by
  -- every new scope takes from the room, so the hypothesis covers what is folded inside
  induction room generalizing s env id with
  | zero =>
    unfold foldWithin
    exact forms_alone henv (fun _ _ _ _ _ _ _ _ => .throw _ _) hid
  | succ room ih =>
    unfold foldWithin
    exact forms_alone henv (fun t name parent words body ht hwords hbody =>
      ih (((henv.extend ht).push name parent).addWords hwords) hbody) hid

/-- Folding a node leaves all nodes well-formed. -/
theorem forms_fold (henv : env.Formed s) {id : NodeId} (hid : s.Present id) :
    Forms s (fold env id) (s.Replaces id) := forms_foldWithin env.room henv hid

end

end

end Juxta
