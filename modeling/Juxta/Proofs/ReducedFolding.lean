import Juxta.Proofs.FoldedNames
import Juxta.Proofs.ReducedNodes

/-!
# Folding reduces nodes

Whatever is folded, the result is reduced, if the names of the scopes stand for nodes that have been
folded.

* `WordKind.Reduced`, `Environment.Reduced` : names that stand for reduced nodes;
* `Descent.Reducing` : what the terms of a sequence may rely on;
* `Descent.reduces_term`, `Descent.reduces_terms`, `reduces_fold` : terms, sequences and nodes.
-/

namespace Juxta

/-- What a name stands for is reduced, and builtin functions are operations. The bodies of functions
are folded again for every call. -/
def WordKind.Reduced (s : Store) : WordKind → Prop
  | .value id => id.isAbsent = false → s.Reduced id
  | .builtin tag _ => tag.IsOperation
  | _ => True

/-- What the names of all scopes stand for is reduced. -/
abbrev Environment.Reduced (s : Store) (env : Environment) : Prop :=
  env.AllKinds (WordKind.Reduced s)

section

variable {s t : Store}

theorem WordKind.Reduced.extend {kind : WordKind} (h : kind.Reduced s) (he : s.Extends t) :
    kind.Reduced t := by
  cases kind with
  | value id => exact fun hp => (h hp).extend he
  | pending => trivial
  | function params body scope => trivial
  | builtin tag arity => exact h

theorem Environment.Reduced.extend {env : Environment} (h : env.Reduced s) (he : s.Extends t) :
    env.Reduced t := h.imp fun _ hk => hk.extend he

theorem Store.AllReduced.present {ids : List NodeId} (h : s.AllReduced ids) : s.AllPresent ids :=
  fun id hm => (h id hm).present

end

/-! ## Steps -/

namespace Fold

open Store (Present AllPresent Reduced AllReduced)

variable {α : Type} {s t : Store}

theorem Forms.and {step : Fold α} {P Q : Store → α → Prop} (h : Forms s step P)
    (k : Forms s step Q) : Forms s step fun t a => P t a ∧ Q t a := by
  intro t ht hf
  obtain ⟨he, hend, hP⟩ := h t ht hf
  obtain ⟨-, -, hQ⟩ := k t ht hf
  exact ⟨he, hend, fun a ha => ⟨hP a ha, hQ a ha⟩⟩

/-- A lambda over some parameters, or the body alone. -/
theorem reduces_residual (unbound : List String) {body : NodeId} (h : s.Reduced body) :
    Forms s (residual unbound body) Reduced := by
  unfold residual
  split
  · exact .pure fun t ht => h.extend ht
  · refine .bind (forms_idents unbound) fun t ids ht _ hids => ?_
    refine .bind (forms_intern (.row (.inr rfl) hids.present) _) fun u list hu _ hlist => ?_
    have hlambda : ∀ v sequence, u.Extends v → v.tag? sequence = some .exprs →
        v.Reduced sequence → Forms v (intern (.branch .lambda [list, sequence]) none) Reduced := by
      intro v sequence hv htag hsequence
      refine (forms_intern (.lambda (hv.node?_of_some hlist) (fun param hm => ?_) htag) _).imp
        fun w id hw hid => .lambda hid (hsequence.extend hw)
      exact (hu.trans hv).tag?_of_some (hids.tags param hm)
    refine .bind forms_get fun _ v hv _ heq => ?_
    subst heq
    have hbody := h.extend (ht.trans (hu.trans hv))
    dsimp only
    split
    · rename_i htag
      have hsame : Forms v (Pure.pure body) fun w sequence =>
          w.tag? sequence = some .exprs ∧ w.Reduced sequence :=
        .pure fun w hw => ⟨hw.tag?_of_some htag, hbody.extend hw⟩
      exact .bind hsame fun w sequence hw _ hsequence =>
        hlambda w sequence (hv.trans hw) hsequence.1 hsequence.2
    · have hrow : (Node.branch .exprs [body]).Formed v :=
        .row (.inl rfl) (List.forall_mem_singleton.2 hbody.present)
      refine .bind (forms_intern hrow _) fun w sequence hw _ hsequence => ?_
      exact hlambda w sequence (hv.trans hw) (Store.tag?_of_node? hsequence)
        (.row hsequence (.inl rfl) (List.forall_mem_singleton.2 (hbody.extend hw)))

theorem reduces_operation {tag : Tag} {operands : List NodeId}
    (h : (Node.branch tag operands).Formed s) (ht : tag.IsOperation) (hi : s.AllReduced operands)
    (origin : NodeId) : Forms s (operation origin tag operands) Reduced := by
  unfold operation
  refine .bind forms_get fun _ t hle _ heq => ?_
  subst heq
  split
  · rename_i result hc
    exact (forms_intern (Store.formed_of_computed? hc _) _).imp fun u id _ hid =>
      .scalar hid (scalar_of_computed? hc)
  · rename_i hc
    refine (forms_rebuild origin (h.extend hle)).imp fun u id hu hid =>
      .operation hid ht (hi.extend (hle.trans hu)) ?_
    exact ((hi.extend hle).present.computed?_extend hu tag).trans hc

theorem reduces_idents {ids : List NodeId} {params : List String} (h : s.Idents ids params) :
    s.AllReduced ids := by
  induction h with
  | nil => exact List.forall_mem_nil _
  | cons hid _ ih => exact List.forall_mem_cons.2 ⟨.name hid, ih⟩

/-- A builtin function with as many arguments as it takes or fewer. -/
theorem reduces_builtin {tag : Tag} {arity : Nat} (hr : tag.operands? = some arity)
    (ht : tag.IsOperation) {arguments : List NodeId} (h : s.AllReduced arguments)
    (hlength : arguments.length ≤ arity) (origin : NodeId) :
    Forms s (builtin origin tag arity arguments) Reduced := by
  unfold builtin
  dsimp only
  generalize hunbound : (List.range' arguments.length (arity - arguments.length)).map _ = unbound
  have hcount : unbound.length = arity - arguments.length := by
    rw [← hunbound, List.length_map, List.length_range']
  refine .bind (forms_idents unbound) fun t ids hle _ hids => ?_
  have hall : t.AllReduced (arguments ++ ids) := fun operand hm =>
    (List.mem_append.1 hm).elim (fun hm => (h operand hm).extend hle) (reduces_idents hids operand)
  refine .bind (reduces_operation (.operation ?_ hall.present) ht hall origin)
    fun u node _ _ hnode => reduces_residual unbound hnode
  rw [hr, List.length_append, hids.length_eq, hcount, Nat.add_sub_cancel' hlength]

end Fold

/-! ## Terms -/

section

variable {s t : Store}

/-- The words of parameters stand for their arguments, or for themselves. -/
theorem reduced_bindParams {arguments : List NodeId} (h : s.AllReduced arguments) (offset : Nat)
    (params : List String) : ∀ word ∈ bindParams offset params arguments, word.kind.Reduced s := by
  induction params generalizing offset arguments with
  | nil => exact List.forall_mem_nil _
  | cons param rest ih =>
    cases arguments with
    | nil => exact List.forall_mem_cons.2 ⟨nofun, ih h (offset + 1)⟩
    | cons argument others =>
      obtain ⟨hfirst, hrest⟩ := List.forall_mem_cons.1 h
      exact List.forall_mem_cons.2 ⟨fun _ => hfirst, ih hrest (offset + 1)⟩

namespace Descent

open Fold
open Store (Present AllPresent Reduced AllReduced)

/-- What the terms of a sequence may rely on: sequences below them and nodes in new scopes are
folded to reduced nodes. -/
structure Reducing (d : Descent) (s : Store) : Prop extends d.Forming s where
  words : d.env.Reduced s
  rows : 0 < d.bound → ∀ t ids, s.Extends t → t.AllPresent ids → Forms t (d.below ids) AllReduced
  scopes : ∀ t name parent words body, s.Extends t → (∀ word ∈ words, word.kind.Formed t) →
    (∀ word ∈ words, word.kind.Reduced t) → t.Present body →
    Forms t (d.inside name parent words body) Reduced

variable {d : Descent} {stand : Stand} {take : Nat → Fold (List NodeId × Nat)}

theorem Reducing.extend (h : d.Reducing s) (he : s.Extends t) : d.Reducing t :=
  ⟨h.toForming.extend he, h.words.extend he, fun hb u ids hu => h.rows hb u ids (he.trans hu),
    fun u name parent words body hu => h.scopes u name parent words body (he.trans hu)⟩

/-- Folds the next terms as arguments, at most as many as are asked for. -/
abbrev TakesReduced (s : Store) (take : Nat → Fold (List NodeId × Nat)) : Prop :=
  ∀ count, Forms s (take count) fun t taken => t.AllReduced taken.1 ∧ taken.1.length ≤ count

/-- A result with the number of the terms that were taken. -/
abbrev TermReduced (t : Store) (term : NodeId × Nat) : Prop := t.Reduced term.1

/-- A node that is stored in the place of another one, and reduced. -/
abbrev Refines (s : Store) (id : NodeId) (t : Store) (id' : NodeId) : Prop :=
  s.Replaces id t id' ∧ t.Reduced id'

theorem reduces_counted {step : Fold NodeId} (h : Forms s step Reduced) (count : Nat) :
    Forms s (do return (← step, count)) TermReduced :=
  forms_counted h (fun _ _ _ he hid => hid.extend he) count

theorem reduces_child (h : d.Reducing s) (hb : 0 < d.bound) {id : NodeId} (hid : s.Present id) :
    Forms s (d.child id) (Refines s id) := by
  unfold child
  rw [hid.isAbsent]
  have hrow := h.rows hb s [id] (.refl s) (List.forall_mem_singleton.2 hid)
  refine .bind ((h.alone hb s id (.refl s) hid).and hrow) fun t folded _ _ hfolded =>
    .pure fun u hu => ?_
  obtain ⟨⟨id', rest, rfl, hreplaces⟩, hall⟩ := hfolded
  exact ⟨hreplaces.extend hu, (hall id' List.mem_cons_self).extend hu⟩

/-- A branch that may be missing. -/
theorem reduces_branch (h : d.Reducing s) (hb : 0 < d.bound) {id : NodeId}
    (hid : id = .absent ∨ s.Present id) :
    Forms s (d.child id) fun t folded => folded = .absent ∨ t.Reduced folded := by
  rcases hid with rfl | hid
  · exact .pure fun _ _ => .inl rfl
  · exact (reduces_child h hb hid).imp fun t folded _ hfolded => .inr hfolded.2

theorem reduces_children (h : d.Reducing s) (hb : 0 < d.bound) {ids : List NodeId}
    (hids : s.AllPresent ids) : Forms s (d.children ids) AllReduced := by
  induction ids generalizing s with
  | nil => exact .pure fun _ _ => List.forall_mem_nil _
  | cons id rest ih =>
    obtain ⟨hid, hrest⟩ := List.forall_mem_cons.1 hids
    unfold children
    refine .bind (reduces_child h hb hid) fun t folded ht _ hfolded => ?_
    refine .bind (ih (h.extend ht) (Store.AllPresent.extend hrest ht)) fun u others hu _ hothers =>
      .pure fun v hv => ?_
    exact List.forall_mem_cons.2
      ⟨hfolded.2.extend (hu.trans hv), Store.AllReduced.extend hothers hv⟩

/-- Whatever has been folded, without the sequence around a single term. -/
theorem reduces_unwrap {step : Fold NodeId} (h : Forms s step Reduced) :
    Forms s (do
      let folded ← step
      return (← get).unwrap folded) Reduced := by
  refine .bind h fun t folded _ _ hfolded => .bind forms_get fun _ u hu _ heq => ?_
  subst heq
  exact .pure fun v hv => (hfolded.extend hu).unwrap.extend hv

theorem reduces_expand (h : d.Reducing s) (name : String) (parent : Option Nat)
    (params : List String) {body : NodeId} (hbody : s.Present body) {arguments : List NodeId}
    (hargs : s.AllReduced arguments) :
    Forms s (d.expand name parent params body arguments) Reduced := by
  unfold expand
  refine .bind (h.scopes s name parent _ body (.refl s) (formed_bindParams hargs.present 0 params)
    (reduced_bindParams hargs 0 params) hbody) fun t folded _ _ hfolded => ?_
  refine .bind forms_get fun _ u hu hf heq => ?_
  subst heq
  exact reduces_residual _ (hfolded.extend hu).unwrap

theorem reduces_applyFollowing (h : d.Reducing s) (htake : TakesReduced s take) {lambda : NodeId}
    (hl : s.Reduced lambda) (htag : s.tag? lambda = some .lambda) :
    Forms s (d.applyFollowing stand take lambda) TermReduced := by
  unfold applyFollowing
  split
  · exact .pure fun t ht => hl.extend ht
  · refine .bind forms_get fun _ t ht _ heq => ?_
    subst heq
    dsimp only
    refine .bind ((htake _).extend ht) fun u taken hu _ htaken => ?_
    obtain ⟨arguments, count⟩ := taken
    have hle := ht.trans hu
    dsimp only
    split
    · exact .pure fun v hv => hl.extend (hle.trans hv)
    · refine .bind forms_get fun _ v hv hf heq => ?_
      subst heq
      obtain ⟨node, hnode, hkind⟩ := Option.map_eq_some_iff.1 ((hle.trans hv).tag?_of_some htag)
      obtain ⟨list, body, params, rfl, -, -, hbody⟩ := (hf _ _ hnode).of_lambda hkind
      have hsame : v.body lambda = body := by
        unfold Store.body
        rw [hnode]
        rfl
      rw [hsame]
      exact reduces_counted (reduces_expand (h.extend (hle.trans hv)) "lambda" none _
        (Store.present_of_tag? hbody) (htaken.1.extend hv)) count

theorem reduces_ident (h : d.Reducing s) (hf : s.Formed) (htake : TakesReduced s take)
    {id : NodeId} {node : Node} (hn : s.node? id = some node) (ht : node.tag = .ident) :
    Forms s (d.ident stand take id node) TermReduced := by
  obtain ⟨name, rfl⟩ := (hf id node hn).of_name ht
  have hleft : s.Reduced id := .name hn
  unfold ident
  dsimp only
  split
  · rename_i bound _ _ hfind
    split
    · exact .pure fun t ht => hleft.extend ht
    · rename_i hp
      have hbound : s.Reduced bound := h.words.find? hfind (Bool.not_eq_true _ ▸ hp)
      refine .bind forms_get fun _ t ht _ heq => ?_
      subst heq
      split
      · rename_i htag
        exact reduces_applyFollowing (h.extend ht) (fun count => (htake count).extend ht)
          (hbound.extend ht) htag
      · exact .pure fun u hu => hbound.extend (ht.trans hu)
  · rename_i params body scope _ _ hfind
    have hbody : s.Present body := h.env.find? hfind
    refine .bind (htake _) fun t taken ht _ htaken => ?_
    obtain ⟨arguments, count⟩ := taken
    exact reduces_counted
      (reduces_expand (h.extend ht) _ _ _ (hbody.extend ht) htaken.1) count
  · rename_i tag arity _ _ hfind
    refine .bind (htake _) fun t taken ht _ htaken => ?_
    obtain ⟨arguments, count⟩ := taken
    exact reduces_counted (reduces_builtin (h.env.find? hfind) (h.words.find? hfind) htaken.1
      htaken.2 id) count
  · exact .pure fun t ht => hleft.extend ht

theorem reduces_lambda (h : d.Reducing s) (hf : s.Formed) {id : NodeId} {node : Node}
    (hn : s.node? id = some node) (ht : node.tag = .lambda) :
    Forms s (d.lambda id node) fun t lambda =>
      t.Reduced lambda ∧ t.tag? lambda = some .lambda := by
  refine .and (P := Reduced) ?_ (forms_lambda h.toForming hf hn ht)
  obtain ⟨list, body, params, rfl, hlist, hparams, hbody⟩ := (hf id node hn).of_lambda ht
  unfold lambda
  refine .bind forms_get fun _ t ht _ heq => ?_
  subst heq
  dsimp only
  have hpresent : t.Present body := (Store.present_of_tag? hbody).extend ht
  have hnone := List.forall_mem_nil t.Reduced
  have hwords := formed_bindParams (Store.AllReduced.present hnone) 0 (t.params id)
  refine .bind ((h.inside t "lambda" none _ body ht hwords hpresent).and
    (h.scopes t "lambda" none _ body ht hwords (reduced_bindParams hnone 0 _) hpresent))
    fun u folded hu _ hfolded => ?_
  have hle := ht.trans hu
  refine (forms_rebuild id (.lambda (hle.node?_of_some hlist) (fun param hm => ?_) ?_)).imp
    fun v lambda hv hlambda => .lambda hlambda (hfolded.2.extend hv)
  · exact hle.tag?_of_some (hparams param hm)
  · exact hfolded.1.tag _ (.inl rfl) (ht.tag?_of_some hbody)

/-- What stands in parentheses. -/
theorem present_inParens (hf : s.Formed) {inner : NodeId} (h : s.Present inner) :
    s.AllPresent (match s.node? inner with
      | some sequence => if sequence.tag = .exprs then sequence.children else [inner]
      | none => []) := by
  split
  · rename_i sequence hsequence
    split
    · rename_i hexprs
      obtain ⟨ids, hids, hpresent⟩ := (hf _ _ hsequence).of_row (.inl hexprs)
      rw [hids, Node.children_branch]
      exact hpresent
    · exact List.forall_mem_singleton.2 h
  · exact List.forall_mem_nil _

theorem reduces_paren (h : d.Reducing s) (hf : s.Formed) (hb : 0 < d.bound)
    (htake : TakesReduced s take) {id : NodeId} {node : Node} (hn : s.node? id = some node)
    (ht : node.tag = .paren) : Forms s (d.paren stand take id node) TermReduced := by
  have hone : node.tag.operands? = some 1 := ht ▸ rfl
  obtain ⟨operands, hnode, hlength, hall⟩ := (hf id node hn).of_operation hone
  obtain ⟨inner, rfl⟩ := List.length_eq_one_iff.1 hlength
  rw [ht] at hnode
  subst hnode
  have hinner : s.Present inner := hall inner List.mem_cons_self
  unfold paren
  dsimp only
  refine .bind forms_get fun _ t ht hft heq => ?_
  subst heq
  refine .bind (h.rows hb t _ ht (present_inParens hft (hinner.extend ht)))
    fun u folded hu _ hfolded => ?_
  refine .bind forms_get fun _ v hv _ heq => ?_
  subst heq
  have hall := Store.AllReduced.extend hfolded hv
  have hkeep : (∀ only, folded = [only] → v.NeedsParens only) → Forms v (do
      let sequence ← rebuild inner .exprs folded
      return (← rebuild id .paren [sequence], 0)) TermReduced := by
    intro hneeds
    refine .bind (forms_rebuild inner (.row (.inl rfl) hall.present))
      fun w sequence hw _ hsequence => ?_
    refine reduces_counted ((forms_rebuild id (.operation rfl ?_)).imp
      fun x paren hx hparen => ?_) 0
    · exact List.forall_mem_singleton.2 ⟨_, hsequence⟩
    · exact .paren hparen (hx.node?_of_some hsequence) (hall.extend (hw.trans hx))
        fun only hone => (hneeds only hone).extend (hw.trans hx)
  have hle := ht.trans (hu.trans hv)
  split
  · rename_i only
    have honly := hall only List.mem_cons_self
    have hneeds : v.NeedsParens only → ∀ other, [only] = [other] → v.NeedsParens other := by
      rintro hneeds other ⟨⟩
      exact hneeds
    split
    · rename_i htag
      exact reduces_applyFollowing (h.extend hle) (fun count => (htake count).extend hle)
        honly htag
    · rename_i htag
      exact hkeep (hneeds (.inl htag))
    · rename_i htag
      exact hkeep (hneeds (.inr (.inl htag)))
    · rename_i htag
      exact hkeep (hneeds (.inr (.inr htag)))
    · rename_i htag
      obtain ⟨node, hnode⟩ := honly.present
      exact nomatch htag.symm.trans (Store.tag?_of_node? hnode)
    · exact .pure fun w hw => honly.extend hw
  · rename_i hmore
    exact hkeep fun only hone => absurd hone (hmore only)

theorem reduces_conditional (h : d.Reducing s) (hf : s.Formed) (hb : 0 < d.bound) {id : NodeId}
    {node : Node} (hn : s.node? id = some node) (ht : node.tag = .ifThen) :
    Forms s (d.conditional id node) Reduced := by
  obtain ⟨condition, yes, no, rfl, hcondition, hyes, hno⟩ := (hf id node hn).of_choice ht
  unfold conditional
  refine .bind (reduces_child h hb hcondition) fun t folded ht _ hfolded => ?_
  refine .bind forms_get fun _ u hu _ heq => ?_
  subst heq
  have hle := ht.trans hu
  split
  · rename_i truth _
    dsimp only
    generalize hbranch : (if truth = true then (Node.branch .ifThen [condition, yes, no]).child 1
      else (Node.branch .ifThen [condition, yes, no]).child 2) = branch
    split
    · exact (forms_intern (.bare (.inl rfl)) _).imp fun v id _ hid => .scalar hid rfl
    · rename_i hp
      have hpresent : s.Present branch := by
        subst hbranch
        cases truth with
        | true => exact hyes
        | false =>
          refine hno.resolve_left fun habsent => hp ?_
          rw [habsent]
          rfl
      exact reduces_unwrap ((reduces_child (h.extend hle) hb (hpresent.extend hle)).imp
        fun _ _ _ => And.right)
  · rename_i hopen
    have hcondition := hfolded.2.extend hu
    refine .bind (reduces_child (h.extend hle) hb (hyes.extend hle)) fun v yes hv _ hyes => ?_
    refine .bind (reduces_branch (h.extend (hle.trans hv)) hb
      (hno.imp_right fun hno => hno.extend (hle.trans hv))) fun w no hw _ hno => ?_
    refine (forms_rebuild id (.choice ?_ (hyes.1.present.extend hw)
      (hno.imp_right Store.Reduced.present))).imp fun x id hx hid => ?_
    · exact hcondition.present.extend (hv.trans hw)
    · have hfrom := hv.trans (hw.trans hx)
      refine .choice hid (hcondition.extend hfrom) (hyes.2.extend (hw.trans hx))
        (fun hp => (hno.resolve_left hp).extend hx) ?_
      rw [hcondition.present.unwrap_extend hfrom,
        hcondition.unwrap.present.literalTruth?_extend hfrom]
      exact hopen

/-- Clauses with a pattern that is reduced and a body that is stored. -/
abbrev ClausesReduced (t : Store) (clauses : List Clause) : Prop :=
  ∀ clause ∈ clauses, t.Reduced clause.pattern ∧ t.Present clause.body

theorem ClausesReduced.extend {clauses : List Clause} (h : ClausesReduced s clauses)
    (he : s.Extends t) : ClausesReduced t clauses :=
  fun clause hm => ⟨(h clause hm).1.extend he, (h clause hm).2.extend he⟩

theorem reduces_patterns (h : d.Reducing s) (hb : 0 < d.bound) {clauses : List NodeId}
    (hc : ∀ clause ∈ clauses, s.tag? clause = some .clause) :
    Forms s (d.patterns clauses) ClausesReduced := by
  induction clauses generalizing s with
  | nil => exact .pure fun _ _ => List.forall_mem_nil _
  | cons id rest ih =>
    obtain ⟨hid, hrest⟩ := List.forall_mem_cons.1 hc
    have later : ∀ t, s.Extends t → Forms t (d.patterns rest) ClausesReduced :=
      fun t he => ih (h.extend he) fun id hm => he.tag?_of_some (hrest id hm)
    unfold patterns
    refine .bind forms_get fun _ t ht hf heq => ?_
    subst heq
    split
    · exact later t ht
    · rename_i clause hclause
      have htag : clause.tag = .clause :=
        Option.some.inj ((Store.tag?_of_node? hclause).symm.trans (ht.tag?_of_some hid))
      have htwo : clause.tag.operands? = some 2 := htag ▸ rfl
      obtain ⟨operands, hnode, hlength, hall⟩ := (hf _ _ hclause).of_operation htwo
      obtain ⟨pattern, body, rfl⟩ := List.length_eq_two.1 hlength
      obtain ⟨hpattern, hbody⟩ := List.forall_mem_cons.1 hall
      rw [hnode]
      refine .bind (reduces_child (h.extend ht) hb hpattern) fun u folded hu _ hfolded => ?_
      refine .bind forms_get fun _ v hv _ heq => ?_
      subst heq
      have hle := hu.trans hv
      refine .bind (later v (ht.trans hle)) fun w others hw _ hothers => ?_
      refine .pure fun x hx => List.forall_mem_cons.2 ⟨⟨?_, ?_⟩, ClausesReduced.extend hothers hx⟩
      · exact (hfolded.2.extend hv).unwrap.extend (hw.trans hx)
      · exact (List.forall_mem_singleton.1 hbody).extend (hle.trans (hw.trans hx))

/-- Clauses that are stored with some patterns. -/
structure Clauses (clauses : List Clause) (t : Store) (ids : List NodeId) : Prop where
  reduced : t.AllReduced ids
  tag : ∀ id ∈ ids, t.tag? id = some .clause
  patterns : clauses.map Clause.pattern = (t.clauses ids).map Clause.pattern

theorem reduces_bodies (h : d.Reducing s) (hb : 0 < d.bound) {clauses : List Clause}
    (hc : ClausesReduced s clauses) : Forms s (d.bodies clauses) (Clauses clauses) := by
  induction clauses generalizing s with
  | nil => exact .pure fun _ _ => ⟨List.forall_mem_nil _, List.forall_mem_nil _, rfl⟩
  | cons clause rest ih =>
    obtain ⟨⟨hpattern, hbody⟩, hrest⟩ := List.forall_mem_cons.1 hc
    unfold bodies
    refine .bind (reduces_child h hb hbody) fun t body ht _ hfolded => ?_
    have hformed : (Node.branch .clause [clause.pattern, body]).Formed t :=
      .operation rfl (List.forall_mem_cons.2
        ⟨hpattern.present.extend ht, List.forall_mem_singleton.2 hfolded.1.present⟩)
    refine .bind (forms_rebuild clause.node hformed) fun u rebuilt hu _ hrebuilt => ?_
    have hle := ht.trans hu
    refine .bind (ih (h.extend hle) (ClausesReduced.extend hrest hle)) fun v others hv _ hothers =>
      .pure fun w hw => ?_
    have hnode := (hv.trans hw).node?_of_some hrebuilt
    refine ⟨List.forall_mem_cons.2 ⟨?_, hothers.reduced.extend hw⟩,
      List.forall_mem_cons.2 ⟨Store.tag?_of_node? hnode, fun id hm => ?_⟩, ?_⟩
    · exact .clause hnode (hpattern.extend (hle.trans (hv.trans hw)))
        (hfolded.2.extend (hu.trans (hv.trans hw)))
    · exact hw.tag?_of_some (hothers.tag id hm)
    · rw [List.map_cons, hothers.patterns,
        ← Store.AllPresent.clauses_extend hothers.reduced.present hw, Store.clauses_cons hnode,
        List.map_cons]
      rfl

theorem reduces_select (h : d.Reducing s) (hf : s.Formed) (hb : 0 < d.bound) {id : NodeId}
    {node : Node} (hn : s.node? id = some node) (ht : node.tag = .case) :
    Forms s (d.select id node) Reduced := by
  obtain ⟨scrutinee, clauses, rfl, hscrutinee, hclauses⟩ := (hf id node hn).of_case ht
  have hrest : (Node.branch .case (scrutinee :: clauses)).children.drop 1 = clauses := by
    rw [Node.children_branch]
    rfl
  unfold select
  rw [hrest]
  refine .bind (reduces_child h hb hscrutinee) fun t folded ht _ hfolded => ?_
  refine .bind forms_get fun _ u hu _ heq => ?_
  subst heq
  have hle := ht.trans hu
  have hvalue := hfolded.2.extend hu
  dsimp only
  refine .bind (reduces_patterns (h.extend hle) hb fun id hm => hle.tag?_of_some (hclauses id hm))
    fun v clauses hv _ hclauses => ?_
  refine .bind forms_get fun _ w hw _ heq => ?_
  subst heq
  have hknown := ClausesReduced.extend hclauses hw
  have hreducing := h.extend (hle.trans (hv.trans hw))
  split
  · rename_i clause hclause
    have hm : clause ∈ clauses := mem_of_decided? (Option.ite_none_right_eq_some.1 hclause).2
    exact reduces_unwrap ((reduces_child hreducing hb (hknown clause hm).2).imp
      fun _ _ _ => And.right)
  · rename_i hopen
    have hvw := hv.trans hw
    refine .bind (reduces_bodies hreducing hb hknown) fun x bodies hx _ hbodies => ?_
    refine (forms_rebuild id (.case ?_ hbodies.tag)).imp fun y id hy hid => ?_
    · exact hvalue.present.extend (hvw.trans hx)
    · have hfrom := hvw.trans (hx.trans hy)
      refine .case hid (hvalue.extend hfrom) (hbodies.reduced.extend hy)
        (fun clause hm => hy.tag?_of_some (hbodies.tag clause hm)) ?_
      rw [hvalue.present.unwrap_extend hfrom,
        Store.AllPresent.clauses_extend hbodies.reduced.present hy]
      refine Store.chosen?_eq_none_of_patterns hbodies.patterns ?_
      have hvalue' := (hvalue.unwrap.extend hvw).present
      rw [hvalue'.chosen?_extend (fun clause hm => (hknown clause hm).1.present) (hx.trans hy)]
      exact hopen

theorem reduces_operands (h : d.Reducing s) (hf : s.Formed) (hb : 0 < d.bound) {id : NodeId}
    {node : Node} (hn : s.node? id = some node) (ht : node.tag.IsOperation) :
    Forms s (do operation id node.tag (← d.children node.children)) Reduced := by
  cases hcount : node.tag.operands? with
  | some count =>
    obtain ⟨operands, hnode, hlength, hall⟩ := (hf id node hn).of_operation hcount
    have hchildren : node.children = operands := hnode ▸ Node.children_branch _ _
    rw [hchildren]
    refine .bind ((forms_children h.toForming hb hall).and (reduces_children h hb hall))
      fun t folded _ _ hfolded => ?_
    refine reduces_operation (.operation ?_ hfolded.2.present) ht hfolded.2 id
    rw [hcount, hfolded.1.1, hlength]
  | none =>
    have hrecord : node.tag = .record := by
      obtain ⟨hrole, hexprs, hlist⟩ := ht
      have hkind := Tag.kind_of_operands? hcount
      cases htag : node.tag <;> simp_all [Tag.role]
    obtain ⟨fields, rfl, hfields⟩ := (hf id node hn).of_record hrecord
    have hall : s.AllPresent fields := fun field hm => Store.present_of_tag? (hfields field hm)
    rw [Node.children_branch]
    refine .bind ((forms_children h.toForming hb hall).and (reduces_children h hb hall))
      fun t folded _ _ hfolded => ?_
    refine reduces_operation (.record fun field hm => ?_) ht hfolded.2 id
    obtain ⟨old, hold, hreplaces⟩ := hfolded.1.2 field hm
    exact hreplaces.tag _ (.inr rfl) (hfields old hold)

/-- A clause by itself. No operation is carried out on a pattern and a body. -/
theorem reduces_clause (h : d.Reducing s) (hf : s.Formed) (hb : 0 < d.bound) {id : NodeId}
    {node : Node} (hn : s.node? id = some node) (ht : node.tag = .clause) :
    Forms s (do operation id node.tag (← d.children node.children)) Reduced := by
  have htwo : node.tag.operands? = some 2 := ht ▸ rfl
  obtain ⟨operands, hnode, hlength, hall⟩ := (hf id node hn).of_operation htwo
  have hchildren : node.children = operands := hnode ▸ Node.children_branch _ _
  rw [hchildren]
  refine .bind ((forms_children h.toForming hb hall).and (reduces_children h hb hall))
    fun t folded _ _ hfolded => ?_
  obtain ⟨⟨hcount, -⟩, hreduced⟩ := hfolded
  obtain ⟨pattern, body, rfl⟩ := List.length_eq_two.1 (hcount.trans hlength)
  obtain ⟨hpattern, hbody⟩ := List.forall_mem_cons.1 hreduced
  rw [ht]
  unfold operation
  refine .bind forms_get fun _ u hu _ heq => ?_
  subst heq
  rw [Store.computed?_clause]
  have hformed : (Node.branch .clause [pattern, body]).Formed u :=
    .operation rfl (Store.AllPresent.extend hreduced.present hu)
  exact (forms_rebuild id hformed).imp fun v id' hv hid =>
    .clause hid (hpattern.extend (hu.trans hv))
      ((List.forall_mem_singleton.1 hbody).extend (hu.trans hv))

theorem reduces_row (h : d.Reducing s) (hf : s.Formed) (hb : 0 < d.bound) {id : NodeId}
    {node : Node} (hn : s.node? id = some node) (ht : node.tag = .exprs ∨ node.tag = .list) :
    Forms s (do rebuild id node.tag (← d.below node.children)) Reduced := by
  obtain ⟨ids, hnode, hall⟩ := (hf id node hn).of_row ht
  have hchildren : node.children = ids := hnode ▸ Node.children_branch _ _
  rw [hchildren]
  refine .bind (h.rows hb s ids (.refl s) hall) fun t folded _ _ hfolded => ?_
  exact (forms_rebuild id (.row ht hfolded.present)).imp fun u id' hu hid =>
    .row hid ht (hfolded.extend hu)

theorem reduces_binding (h : d.Reducing s) (hf : s.Formed) (hb : 0 < d.bound) {id : NodeId}
    {node : Node} (hn : s.node? id = some node) (ht : node.tag = .binding) :
    Forms s (do
      let folded ← d.child (node.child 1)
      rebuild id .binding [node.child 0, (← get).unwrap folded]) Reduced := by
  obtain ⟨key, value, rfl, hkey, hvalue⟩ := (hf id node hn).of_binding ht
  refine .bind (reduces_child h hb hvalue) fun t folded ht _ hfolded => ?_
  refine .bind forms_get fun _ u hu _ heq => ?_
  subst heq
  have hle := ht.trans hu
  have hreduced := (hfolded.2.extend hu).unwrap
  exact (forms_rebuild id (.binding (hle.tag?_of_some hkey) hreduced.present)).imp
    fun v id' hv hid => .binding hid (hreduced.extend hv)

theorem reduces_single (h : d.Reducing s) (hf : s.Formed) (hb : 0 < d.bound) {id : NodeId}
    {node : Node} (hn : s.node? id = some node)
    (hterm : node.tag ≠ .ident ∧ node.tag ≠ .lambda ∧ node.tag ≠ .paren) :
    Forms s (d.single id node) Reduced := by
  unfold single
  split
  case h_6 ht => exact reduces_row h hf hb hn (.inl ht)
  case h_7 ht => exact reduces_row h hf hb hn (.inr ht)
  case h_8 ht => exact reduces_binding h hf hb hn ht
  case h_9 ht => exact reduces_conditional h hf hb hn ht
  case h_10 ht => exact reduces_select h hf hb hn ht
  case h_11 =>
    by_cases hclause : node.tag = .clause
    · exact reduces_clause h hf hb hn hclause
    · refine reduces_operands h hf hb hn ⟨?_, by assumption, by assumption⟩
      obtain ⟨hident, hlambda, hparen⟩ := hterm
      cases htag : node.tag <;> first | rfl | contradiction
  all_goals
    rename_i ht
    exact .pure fun t he => .scalar (he.node?_of_some hn) (ht ▸ rfl)

/-- One term. -/
theorem reduces_term (h : d.Reducing s) (htake : TakesReduced s take) {id : NodeId}
    (hid : s.Present id) : Forms s (d.term stand take id) TermReduced := by
  unfold term
  refine .bind forms_get fun _ t ht hf heq => ?_
  subst heq
  obtain ⟨node, hnode⟩ := hid.extend ht
  have hreducing := h.extend ht
  have htakes : TakesReduced t take := fun count => (htake count).extend ht
  rw [hnode]
  dsimp only
  split
  · exact .bind (.throw _ fun _ _ => False) fun _ _ _ _ => False.elim
  · rename_i hlt
    have hb : 0 < d.bound := Nat.zero_lt_of_lt (Nat.lt_of_not_le hlt)
    split
    · exact reduces_ident hreducing hf htakes hnode (by assumption)
    · refine .bind (reduces_lambda hreducing hf hnode (by assumption))
        fun u lambda hu _ hlambda => ?_
      exact reduces_applyFollowing (hreducing.extend hu) (fun count => (htakes count).extend hu)
        hlambda.1 hlambda.2
    · exact reduces_paren hreducing hf hb htakes hnode (by assumption)
    · rename_i hident hlambda hparen
      exact reduces_counted (reduces_single hreducing hf hb hnode ⟨hident, hlambda, hparen⟩) 0

/-- Terms in a row. -/
theorem reduces_terms (h : d.Reducing s) {ids : List NodeId} (hids : s.AllPresent ids)
    (stand : Stand) (count skip : Nat) :
    Forms s (d.terms ids stand count skip) fun t folded =>
      t.AllReduced folded.1 ∧ folded.1.length ≤ count := by
  induction ids generalizing s stand count skip with
  | nil => exact .pure fun _ _ => ⟨List.forall_mem_nil _, Nat.zero_le _⟩
  | cons id rest ih =>
    obtain ⟨hid, hrest⟩ := List.forall_mem_cons.1 hids
    cases skip with
    | succ skip => exact ih h hrest stand count skip
    | zero =>
      cases count with
      | zero => exact .pure fun _ _ => ⟨List.forall_mem_nil _, Nat.zero_le _⟩
      | succ count =>
        -- the terms after a function are its arguments: the hypothesis for `rest` serves both
        have htake : TakesReduced s fun count => d.terms rest .argument count 0 :=
          fun count => ih h hrest .argument count 0
        unfold terms
        refine .bind (reduces_term h htake hid) fun t term ht _ hterm => ?_
        obtain ⟨folded, taken⟩ := term
        refine .bind (ih (h.extend ht) (Store.AllPresent.extend hrest ht) stand count taken)
          fun u others hu _ hothers => .pure fun v hv => ⟨?_, Nat.succ_le_succ hothers.2⟩
        exact List.forall_mem_cons.2
          ⟨hterm.extend (hu.trans hv), Store.AllReduced.extend hothers.1 hv⟩

/-- All terms of a sequence. -/
theorem reduces_all (h : d.Reducing s) {ids : List NodeId} (hids : s.AllPresent ids) :
    Forms s (do return (← d.terms ids .head ids.length 0).1) AllReduced :=
  .bind (reduces_terms h hids .head ids.length 0) fun _ _ _ _ hfolded => .pure fun _ hu =>
    Store.AllReduced.extend hfolded.1 hu

end Descent

/-! ## Nodes -/

section

open Fold
open Store (AllPresent Reduced)

variable {env : Environment}
  {inside : (name : String) → (parent : Option Nat) → List Word → NodeId → Fold NodeId}

/-- Nodes in new scopes are folded to reduced nodes. -/
abbrev ReducesInside (s : Store)
    (inside : (name : String) → (parent : Option Nat) → List Word → NodeId → Fold NodeId) : Prop :=
  ∀ t name parent words body, s.Extends t → (∀ word ∈ words, word.kind.Formed t) →
    (∀ word ∈ words, word.kind.Reduced t) → t.Present body →
    Forms t (inside name parent words body) Reduced

theorem ReducesInside.extend (h : ReducesInside s inside) (he : s.Extends t) :
    ReducesInside t inside := fun u name parent words body hu => h u name parent words body
  (he.trans hu)

theorem reducing_foldSequence (henv : env.Formed s) (hinside : FormsInside s inside)
    (hwords : env.Reduced s) (hscopes : ReducesInside s inside) (bound : Nat) :
    Descent.Reducing ⟨env, bound + 1, foldSequence env inside bound, inside⟩ s := by
  have hforming := forming_foldSequence henv hinside bound
  induction bound generalizing s with
  | zero =>
    refine ⟨hforming, hwords, fun _ t ids ht hids => ?_, hscopes⟩
    have hd : Descent.Reducing ⟨env, 0, fun _ => return [], inside⟩ t :=
      ⟨⟨henv.extend ht, fun hb => absurd hb (Nat.lt_irrefl 0),
        fun hb => absurd hb (Nat.lt_irrefl 0), hinside.extend ht⟩, hwords.extend ht,
        fun hb => absurd hb (Nat.lt_irrefl 0), hscopes.extend ht⟩
    exact Descent.reduces_all hd hids
  | succ bound ih =>
    refine ⟨hforming, hwords, fun _ t ids ht hids => ?_, hscopes⟩
    exact Descent.reduces_all (ih (henv.extend ht) (hinside.extend ht) (hwords.extend ht)
      (hscopes.extend ht) (forming_foldSequence (henv.extend ht) (hinside.extend ht) bound)) hids

/-- The one node of a sequence that is folded by itself. -/
theorem reduces_alone (henv : env.Formed s) (hinside : FormsInside s inside)
    (hwords : env.Reduced s) (hscopes : ReducesInside s inside) {id : NodeId}
    (hid : s.Present id) :
    Forms s (do
      if id.isAbsent then return id
      return (← foldSequence env inside (id.index + 1) [id]).headD id) Reduced := by
  rw [hid.isAbsent]
  have hone : s.AllPresent [id] := List.forall_mem_singleton.2 hid
  refine .bind ((Descent.forms_only (forming_foldSequence henv hinside id.index) hid).and
    (Descent.reduces_all (reducing_foldSequence henv hinside hwords hscopes id.index) hone))
    fun t folded _ _ hfolded => .pure fun u hu => ?_
  obtain ⟨⟨id', rest, rfl, -⟩, hall⟩ := hfolded
  exact (hall id' List.mem_cons_self).extend hu

theorem reduces_foldWithin (room : Nat) (henv : env.Formed s) (hwords : env.Reduced s)
    {id : NodeId} (hid : s.Present id) : Forms s (foldWithin room env id) Reduced := by
  -- every new scope takes from the room, so the hypothesis covers what is folded inside
  induction room generalizing s env id with
  | zero =>
    unfold foldWithin
    exact reduces_alone henv (fun _ _ _ _ _ _ _ _ => .throw _ _) hwords
      (fun _ _ _ _ _ _ _ _ _ => .throw _ _) hid
  | succ room ih =>
    unfold foldWithin
    refine reduces_alone henv (fun t name parent words body ht hformed hbody =>
      forms_foldWithin room (((henv.extend ht).push name parent).addWords hformed) hbody) hwords
      (fun t name parent words body ht hformed hreduced hbody => ?_) hid
    exact ih (((henv.extend ht).push name parent).addWords hformed)
      (((hwords.extend ht).push name parent).addWords hreduced) hbody

/-- What has been folded is reduced. -/
theorem reduces_fold (henv : env.Formed s) (hwords : env.Reduced s) {id : NodeId}
    (hid : s.Present id) : Forms s (fold env id) Reduced :=
  reduces_foldWithin env.room henv hwords hid

end

end

end Juxta
