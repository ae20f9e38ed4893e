import Juxta.Proofs.PlainFolding

/-!
# Calls in stages

A function with a plain body that gets literals for some of its parameters becomes a lambda over the
others. The lambda makes of more literals what the function makes of all of them.

* `Tree.called` : what a function makes of its arguments;
* `Tree.called_remaining` : some arguments first, and others later;
* `Environment.Calls` : a name that stands for a function with a plain body;
* `Descent.builds_call`, `Descent.builds_staged` : its name with literals after it, and its name
  with some literals in parentheses and others after them;
* `builds_fold_call`, `builds_fold_staged` : sequences of these terms only.
-/

namespace Juxta

open Juxta.Tree (Plain Literals Term given orElse)

/-! ## Arguments -/

namespace Tree

/-- What the parameters of a function stand for. Where a name occurs twice its last place counts. -/
def assigned : (params : List String) → (arguments : List Tree) → String → Option Tree
  | [], _, _ => none
  | param :: rest, arguments, name =>
    if name ∈ rest then assigned rest arguments.tail name
    else if name = param then arguments.head?
    else none

/-- A tree as the body of a lambda. -/
def sequenced (tree : Tree) : Tree := if tree.tag = .exprs then tree else .branch .exprs [tree]

/-- A lambda over the parameters that are left, or the result if there are none. -/
def residual (unbound : List String) (result : Tree) : Tree :=
  if unbound.isEmpty then result else .lambda unbound result.sequenced

/-- What a function makes of its arguments. -/
def called (params : List String) (body : Tree) (arguments : List Tree) : Tree :=
  residual (params.drop arguments.length) (body.given (assigned params arguments)).unwrapped

theorem assigned_nil (params : List String) (name : String) : assigned params [] name = none := by
  induction params with
  | nil => rfl
  | cons param rest ih =>
    unfold assigned
    rw [List.tail_nil, ih, List.head?_nil, ite_self, ite_self]

theorem assigned_of_not_mem {params : List String} {name : String} (h : name ∉ params)
    (arguments : List Tree) : assigned params arguments name = none := by
  cases params with
  | nil => rfl
  | cons param rest =>
    unfold assigned
    obtain ⟨hne, hnot⟩ := not_or.1 (mt List.mem_cons.2 h)
    rw [if_neg hnot, if_neg hne]

/-- Some arguments first, and others later. -/
theorem orElse_assigned (params : List String) (first later : List Tree) :
    orElse (assigned params first) (assigned (params.drop first.length) later) =
      assigned params (first ++ later) := by
  induction params generalizing first with
  | nil =>
    funext name
    unfold orElse
    rw [List.drop_nil]
    rfl
  | cons param rest ih =>
    funext name
    cases first with
    | nil =>
      unfold orElse
      rw [assigned_nil]
      rfl
    | cons argument others =>
      have hih := congrFun (ih others) name
      unfold orElse at hih ⊢
      rw [List.length_cons, List.drop_succ_cons, List.cons_append, assigned, assigned]
      by_cases hm : name ∈ rest
      · rw [if_pos hm, if_pos hm]
        exact hih
      · rw [if_neg hm, if_neg hm, assigned_of_not_mem fun hd => hm (List.mem_of_mem_drop hd),
          Option.or_none]
        rfl

theorem mem_drop_of_assigned {params : List String} {arguments : List Tree} {name : String}
    (hm : name ∈ params) (h : assigned params arguments name = none) :
    name ∈ params.drop arguments.length := by
  induction params generalizing arguments with
  | nil => cases hm
  | cons param rest ih =>
    cases arguments with
    | nil => exact hm
    | cons argument others =>
      unfold assigned at h
      by_cases hrest : name ∈ rest
      · rw [if_pos hrest] at h
        exact ih hrest h
      · rw [if_neg hrest, if_pos ((List.mem_cons.1 hm).resolve_right hrest)] at h
        cases h

theorem literals_assigned {params : List String} {arguments : List Tree}
    (h : ∀ argument ∈ arguments, argument.Literal) : Literals (assigned params arguments) := by
  intro name tree hvalue
  induction params generalizing arguments with
  | nil => cases hvalue
  | cons param rest ih =>
    unfold assigned at hvalue
    split at hvalue
    · exact ih (fun argument hm => h argument (List.mem_of_mem_tail hm)) hvalue
    · split at hvalue
      · exact h tree (List.mem_of_mem_head? hvalue)
      · cases hvalue

variable {room : Nat} {params : List String} {body : Tree} {names : String → Prop}

/-- A sequence whose only term is a sequence is that sequence. -/
theorem Term.unwrapped_sequenced {tree : Tree} (h : Term names room tree) :
    tree.sequenced.unwrapped = tree := by
  unfold sequenced
  split
  · exact h.unwrapped
  · rfl

theorem Term.sequenced {tree : Tree} (h : Term names room tree) :
    Plain names room tree.sequenced := by
  unfold Tree.sequenced
  split
  · exact h.plain
  · exact Term.row (List.forall_mem_singleton.2 h) (List.pairwise_singleton _ _)

/-- What is left of the body of a function that gets some of its arguments. -/
def remaining (params : List String) (body : Tree) (arguments : List Tree) : Tree :=
  (body.given (assigned params arguments)).unwrapped.sequenced

theorem plain_remaining (h : Plain (· ∈ params) room body)
    {arguments : List Tree} (ha : ∀ argument ∈ arguments, argument.Literal) :
    Plain (· ∈ params.drop arguments.length) room (remaining params body arguments) := by
  have hσ : Literals (assigned params arguments) := literals_assigned ha
  have hterm := (h.given hσ).plain.term_unwrapped
  exact hterm.sequenced.mono fun name ⟨hm, hnone⟩ => mem_drop_of_assigned hm hnone

/-- A function that does not get all of its arguments. -/
theorem called_lambda {arguments : List Tree} (h : arguments.length < params.length) :
    called params body arguments =
      lambda (params.drop arguments.length) (remaining params body arguments) := by
  unfold called residual
  rw [if_neg]
  · rfl
  · rw [List.isEmpty_iff, List.drop_eq_nil_iff]
    omega

/-- A function gets some of its arguments first, and the others later. -/
theorem called_remaining (h : Plain (· ∈ params) room body)
    {first later : List Tree} (hfirst : ∀ argument ∈ first, argument.Literal)
    (hlater : ∀ argument ∈ later, argument.Literal) :
    called (params.drop first.length) (remaining params body first) later =
      called params body (first ++ later) := by
  have hσ : Literals (assigned params first) := literals_assigned hfirst
  have hτ : Literals (assigned (params.drop first.length) later) := literals_assigned hlater
  have hstays := h.given hσ
  have hterm := hstays.plain.term_unwrapped
  have hbody : ((remaining params body first).given
      (assigned (params.drop first.length) later)).unwrapped =
        (body.given (assigned params (first ++ later))).unwrapped := by
    rw [remaining, (hterm.sequenced.given hτ).unwrapped, hterm.unwrapped_sequenced,
      ← (hstays.plain.given hτ).unwrapped, h.given_given hσ hτ, orElse_assigned]
  rw [called, called, hbody, List.drop_drop, List.length_append]

end Tree

/-! ## Parameters -/

namespace Environment

theorem get?_wordsWith_of_not_mem {words : List Word} {key : String}
    (h : key ∉ words.map Word.name) (fields : Fields Word) :
    (wordsWith fields words).get? key = fields.get? key := by
  induction words generalizing fields with
  | nil => rfl
  | cons word rest ih =>
    obtain ⟨hne, hrest⟩ := not_or.1 (mt List.mem_cons.2 h)
    refine (ih hrest _).trans ?_
    rw [Fields.get?_set, if_neg hne]

/-- A parameter stands for its argument, or for nothing if there is none. -/
theorem get?_bindParams {s : Store} {params : List String} {ids : List NodeId} {trees : List Tree}
    (h : s.HoldsAll ids trees) {name : String} (hm : name ∈ params) (offset : Nat)
    (fields : Fields Word) :
    ∃ word, (wordsWith fields (bindParams offset params ids)).get? name = some word ∧
      ((∃ tree id, Tree.assigned params trees name = some tree ∧ word.kind = .value id ∧
          s.Holds id tree) ∨
        Tree.assigned params trees name = none ∧ word.kind = .value .absent) := by
  induction params generalizing ids trees offset fields with
  | nil => cases hm
  | cons param rest ih =>
    have htail : s.HoldsAll ids.tail trees.tail := by
      cases h with
      | nil => exact .nil
      | cons _ hrest => exact hrest
    unfold Tree.assigned
    by_cases hrest : name ∈ rest
    · rw [if_pos hrest]
      exact ih htail hrest _ _
    · obtain rfl : name = param := (List.mem_cons.1 hm).resolve_right hrest
      have hnot : name ∉ (bindParams (offset + 1) rest ids.tail).map Word.name := by
        rwa [names_bindParams]
      have hfirst : (wordsWith fields (bindParams offset (name :: rest) ids)).get? name =
          some (.value name (ids.headD .absent) offset) := by
        refine (get?_wordsWith_of_not_mem hnot _).trans ?_
        rw [Fields.get?_set]
        exact if_pos rfl
      rw [if_neg hrest, if_pos rfl]
      refine ⟨_, hfirst, ?_⟩
      cases h with
      | nil => exact .inr ⟨rfl, rfl⟩
      | cons hid _ => exact .inl ⟨_, _, rfl, rfl, hid⟩

/-- Parameters stand for their arguments where a function is entered. -/
theorem offers_entered {s : Store} {params : List String} {ids : List NodeId} {trees : List Tree}
    (h : s.HoldsAll ids trees) (env : Environment) (name : String) (parent : Option Nat) :
    (env.entered name parent (bindParams 0 params ids)).Offers s (· ∈ params)
      (Tree.assigned params trees) := by
  have found : ∀ {param word}, (wordsWith [] (bindParams 0 params ids)).get? param = some word →
      (env.entered name parent (bindParams 0 params ids)).find? param = some (word, env.depth) := by
    intro param word hword
    rw [find?_entered, hword]
  constructor
  · intro param tree hm hvalue
    obtain ⟨word, hword, ⟨_, id, hassigned, hkind, hid⟩ | ⟨hnone, -⟩⟩ :=
      get?_bindParams h hm 0 []
    · obtain rfl := Option.some.inj (hassigned.symm.trans hvalue)
      exact ⟨word, _, id, found hword, hkind, hid⟩
    · cases hnone.symm.trans hvalue
  · rintro param hm hvalue ⟨word', number, hfind, -, habsent⟩
    obtain ⟨word, hword, ⟨_, _, hassigned, -⟩ | ⟨-, hkind⟩⟩ := get?_bindParams h hm 0 []
    · cases hassigned.symm.trans hvalue
    · obtain ⟨rfl, -⟩ := Prod.mk.inj (Option.some.inj ((found hword).symm.trans hfind))
      exact habsent hkind

end Environment

/-! ## Lambdas over the parameters that are left -/

namespace Fold

variable {s : Store} {id : NodeId} {tree : Tree}

theorem builds_idents (hs : s.Grounded) (names : List String) :
    Builds s (idents names) (TellsAll (names.map (.leaf .ident))) := by
  induction names generalizing s with
  | nil => exact .pure hs .nil
  | cons name rest ih =>
    refine (builds_alone hs (.leaf .ident name) rfl none).bind fun t id _ ht hid => ?_
    refine (ih ht).bind fun u ids he hu hids => ?_
    exact .pure hu (.cons (hid.extend ht hu he) hids)

/-- The tree of a lambda over the parameters that are left. -/
theorem builds_residual (hs : s.Grounded) (hid : s.Holds id tree) (unbound : List String) :
    Builds s (residual unbound id) (Tells (Tree.residual unbound tree)) := by
  unfold residual Tree.residual
  split
  · exact .pure hs hid
  · refine (builds_idents hs unbound).bind fun t ids he ht hids => ?_
    refine (builds_intern ht .list hids none).bind fun u list he' hu hlist => .get ?_
    have hid := hid.extend hs hu (he.trans he')
    have hlambda : ∀ v sequence, u.Extends v → v.Grounded → v.Holds sequence tree.sequenced →
        Builds v (intern (.branch .lambda [list, sequence]) none)
          (Tells (Tree.lambda unbound tree.sequenced)) := fun v sequence he hv hsequence =>
      builds_intern hv .lambda (.cons (hlist.extend hu hv he) (.cons hsequence .nil)) none
    unfold Tree.sequenced at hlambda ⊢
    rw [hid.tag? hu]
    by_cases htag : tree.tag = .exprs
    · rw [if_pos htag] at hlambda ⊢
      rw [if_pos (congrArg some htag)]
      exact hlambda u id (.refl u) hu hid
    · rw [if_neg htag] at hlambda ⊢
      rw [if_neg fun h => htag (Option.some.inj h)]
      exact (builds_intern hu .exprs (.cons hid .nil) none).bind
        fun v sequence => hlambda v sequence

end Fold

/-! ## Calls -/

namespace Descent

open Fold

/-- How the terms of a sequence are folded where so many more scopes may be entered from the scopes
that are entered next. -/
def within (room : Nat) (env : Environment) (bound : Nat) : Descent :=
  let inside name parent words := foldWithin room (env.entered name parent words)
  ⟨env, bound + 1, foldSequence env inside bound, inside⟩

variable {room : Nat} {s : Store} {params : List String} {body : NodeId} {tree : Tree}
  {ids : List NodeId} {arguments : List Tree}

/-- A function with some arguments. -/
theorem builds_expand (env : Environment) (bound : Nat) (hs : s.Grounded)
    (hbody : s.Holds body tree) (hp : Plain (· ∈ params) room tree)
    (hids : s.HoldsAll ids arguments) (hl : ∀ argument ∈ arguments, argument.Literal)
    (name : String) (parent : Option Nat) :
    Builds s ((within room env bound).expand name parent params body ids)
      (Tells (Tree.called params tree arguments)) := by
  have hσ : Literals (Tree.assigned params arguments) := Tree.literals_assigned hl
  have hoffers : (env.entered name parent (bindParams 0 params ids)).Offers s (· ∈ params)
      (Tree.assigned params arguments) := Environment.offers_entered hids env name parent
  unfold expand Tree.called
  refine (builds_foldWithin hs hσ hoffers hbody hp).bind fun t folded _ ht hfolded => .get ?_
  rw [hids.length_eq]
  exact builds_residual ht (hfolded.unwrap ht (hp.given hσ).plain) _

/-- A literal is left as it is. -/
theorem gives_literal_term {d : Descent} {literal : Tree} {id : NodeId} (hs : s.Grounded)
    (hid : s.Holds id literal) (hl : literal.Literal) (hlt : id.index < d.bound) (stand : Stand)
    (take : Nat → Fold (List NodeId × Nat)) : Gives s (d.term stand take id) (id, 0) s := by
  obtain ⟨slots, hn, -⟩ := hid.exists_node hs
  have hrole := hl.scalar.role
  generalize literal.tag = tag at hn hrole
  have hsingle : d.single id ⟨tag, slots⟩ = pure id := by
    unfold single
    cases tag <;> first | rfl | cases hrole
  refine gives_term_single hn hlt ⟨?_, ?_, ?_⟩ (hsingle ▸ gives_pure s id) <;>
    · rintro rfl
      cases hrole

/-- Literals are left as they are, if there are no more of them than are wanted. -/
theorem gives_literals {d : Descent} (hs : s.Grounded) (hids : s.HoldsAll ids arguments)
    (hl : ∀ argument ∈ arguments, argument.Literal) (hlt : ∀ id ∈ ids, id.index < d.bound)
    (stand : Stand) {count : Nat} (hle : ids.length ≤ count) :
    Gives s (d.terms ids stand count 0) (ids, ids.length) s := by
  induction hids generalizing count with
  | nil => exact gives_pure s _
  | @cons id argument ids arguments hid _ ih =>
    obtain ⟨hfirst, hothers⟩ := List.forall_mem_cons.1 hl
    obtain ⟨hbefore, hlater⟩ := List.forall_mem_cons.1 hlt
    obtain ⟨more, rfl⟩ : ∃ more, count = more + 1 := ⟨count - 1, by
      rw [List.length_cons] at hle
      omega⟩
    have hrest := ih hothers hlater (Nat.le_of_succ_le_succ hle)
    unfold terms
    refine (gives_literal_term hs hid hfirst hbefore stand _).bind (hrest.bind ?_)
    show Gives s (pure (id :: ids, 1 + 0 + ids.length)) (id :: ids, ids.length + 1) s
    rw [Nat.add_zero, Nat.add_comm 1]
    exact gives_pure s _

/-- The terms below a node, in a row. -/
theorem builds_below {env : Environment} {bound : Nat} {post : Store → List NodeId → Prop}
    (hlt : ∀ id ∈ ids, id.index < bound) (hne : ids ≠ [])
    (h : ∀ less, (∀ id ∈ ids, id.index < (within room env less).bound) →
      Builds s ((within room env less).terms ids .head ids.length 0) fun t result =>
        post t result.1) :
    Builds s ((within room env bound).below ids) post := by
  obtain ⟨id, hm⟩ := List.exists_mem_of_ne_nil ids hne
  cases bound with
  | zero => exact absurd (hlt id hm) (Nat.not_lt_zero _)
  | succ less => exact (h less hlt).bind fun t result _ ht hall => .pure ht hall

/-- A term that takes all terms after it. -/
theorem builds_terms_all {d : Descent} {id : NodeId} {post : Store → NodeId → Prop}
    (h : Builds s (d.term .head (fun count => d.terms ids .argument count 0) id) fun t result =>
      post t result.1 ∧ result.2 = ids.length) :
    Builds s (d.terms (id :: ids) .head (ids.length + 1) 0) fun t result =>
      ∃ only, result.1 = [only] ∧ post t only := by
  unfold terms
  refine h.bind fun t result he ht hresult => ?_
  obtain ⟨folded, taken⟩ := result
  obtain ⟨hfolded, rfl⟩ := hresult
  dsimp only
  rw [terms_skip, List.drop_length]
  exact .pure ht ⟨folded, rfl, hfolded⟩

theorem builds_terms_held {d : Descent} {id : NodeId}
    (h : Builds s (d.term .head (fun count => d.terms ids .argument count 0) id) fun t result =>
      t.Holds result.1 tree ∧ result.2 = ids.length) :
    Builds s (d.terms (id :: ids) .head (ids.length + 1) 0) fun t result =>
      t.HoldsAll result.1 [tree] := by
  have hall : Builds s (d.terms (id :: ids) .head (ids.length + 1) 0) fun t result =>
      ∃ only, result.1 = [only] ∧ Tells tree t only := builds_terms_all h
  refine hall.imp fun t result _ _ ⟨only, honly, hfolded⟩ => ?_
  rw [honly]
  exact .cons hfolded .nil

end Descent

/-- Some terms in parentheses. -/
def Store.Encloses (s : Store) (id : NodeId) (terms : List NodeId) : Prop :=
  ∃ row, s.node? id = some (.branch .paren [row]) ∧ s.node? row = some (.branch .exprs terms)

/-- A name stands for a function, with a body in which only its parameters are free. -/
structure Environment.Calls (env : Environment) (s : Store) (room : Nat) (name : String)
    (params : List String) (tree : Tree) : Prop where
  function : ∃ word number body scope, env.find? name = some (word, number) ∧
    word.kind = .function params body scope ∧ s.Holds body tree
  plain : Plain (· ∈ params) room tree

theorem Environment.Calls.extend {env : Environment} {s t : Store} {room : Nat} {name : String}
    {params : List String} {tree : Tree} (h : env.Calls s room name params tree) (hs : s.Grounded)
    (ht : t.Grounded) (he : s.Extends t) : env.Calls t room name params tree := by
  obtain ⟨word, number, body, scope, hfind, hkind, hbody⟩ := h.function
  exact ⟨⟨word, number, body, scope, hfind, hkind, hbody.extend hs ht he⟩, h.plain⟩

namespace Descent

open Fold

variable {room : Nat} {env : Environment} {bound : Nat} {s : Store} {name : String}
  {params : List String} {tree : Tree} {id : NodeId} {ids : List NodeId} {arguments : List Tree}

/-- A function takes the terms after its name. -/
theorem builds_call (hs : s.Grounded) (h : env.Calls s room name params tree)
    (hid : s.Holds id (.leaf .ident name)) (hids : s.HoldsAll ids arguments)
    (hl : ∀ argument ∈ arguments, argument.Literal)
    (hlt : ∀ term ∈ id :: ids, term.index < (within room env bound).bound)
    (hle : ids.length ≤ params.length) :
    Builds s ((within room env bound).terms (id :: ids) .head (ids.length + 1) 0)
      fun t result => t.HoldsAll result.1 [Tree.called params tree arguments] := by
  obtain ⟨⟨_, kind, _⟩, number, body, scope, hfind, hkind, hbody⟩ := h.function
  obtain rfl : kind = .function params body scope := hkind
  obtain ⟨hbefore, hlater⟩ := List.forall_mem_cons.1 hlt
  have htaken : Gives s ((within room env bound).terms ids .argument params.length 0) _ s :=
    gives_literals hs hids hl hlater .argument hle
  have htext : (Node.leaf .ident name).text?.getD "" = name := rfl
  obtain ⟨result, t, hexpand, he, ht, hresult⟩ :=
    builds_expand env bound hs hbody h.plain hids hl name (some scope)
  refine builds_terms_held ⟨(result, ids.length), t, ?_, he, ht, hresult, rfl⟩
  unfold term
  refine (gives_get s).bind ?_
  rw [hid.of_leaf hs]
  dsimp only
  rw [if_neg (Nat.not_le_of_lt hbefore)]
  show Gives s ((within room env bound).ident .head _ id (.leaf .ident name)) _ t
  unfold ident
  rw [htext]
  dsimp only
  rw [show (within room env bound).env.find? name = _ from hfind]
  exact htaken.bind (hexpand.bind (gives_pure t _))

/-- A lambda that is left of a function takes the terms after it. -/
theorem builds_applyFollowing {unbound : List String} {lambda : NodeId} (hs : s.Grounded)
    (hlambda : s.Holds lambda (.lambda unbound tree)) (hp : Plain (· ∈ unbound) room tree)
    (hids : s.HoldsAll ids arguments) (hl : ∀ argument ∈ arguments, argument.Literal)
    (hne : ids ≠ []) {take : Nat → Fold (List NodeId × Nat)}
    (htake : Gives s (take unbound.length) (ids, ids.length) s) :
    Builds s ((within room env bound).applyFollowing .head take lambda) fun t result =>
      t.Holds result.1 (Tree.called unbound tree arguments) ∧ result.2 = ids.length := by
  obtain ⟨list, inner, hn, -, hinner, hparams⟩ := hlambda.of_lambda hs
  have hbody : s.body lambda = inner := by
    unfold Store.body
    rw [hn]
    rfl
  obtain ⟨result, t, hexpand, he, ht, hresult⟩ :=
    builds_expand env bound hs hinner hp hids hl "lambda" none
  refine ⟨(result, ids.length), t, ?_, he, ht, hresult, rfl⟩
  unfold applyFollowing
  rw [if_neg (by decide)]
  refine (gives_get s).bind ?_
  rw [hparams]
  refine htake.bind ?_
  dsimp only
  rw [List.isEmpty_eq_false_iff.2 hne]
  refine (gives_get s).bind ?_
  rw [hbody]
  exact hexpand.bind (gives_pure t _)

/-- A call with some arguments, in parentheses, takes the terms after it. -/
theorem builds_staged (hs : s.Grounded) (h : env.Calls s room name params tree)
    {first later : List Tree} (hid : s.Holds id (.branch .paren
      [.branch .exprs (.leaf .ident name :: first)])) (hids : s.HoldsAll ids later)
    (hfirst : ∀ argument ∈ first, argument.Literal) (hlater : ∀ argument ∈ later, argument.Literal)
    (hlt : ∀ term ∈ id :: ids, term.index < (within room env bound).bound) (hne : ids ≠ [])
    (hle : first.length + later.length ≤ params.length) :
    Builds s ((within room env bound).terms (id :: ids) .head (ids.length + 1) 0)
      fun t result => t.HoldsAll result.1 [Tree.called params tree (first ++ later)] := by
  obtain ⟨hbefore, hbounds⟩ := List.forall_mem_cons.1 hlt
  obtain ⟨_, hn, hinner⟩ := hid.of_branch hs
  obtain ⟨sequence, rfl, hsequence⟩ := hinner.of_single
  obtain ⟨_, hns, hterms⟩ := hsequence.of_branch hs
  obtain ⟨head, others, hhead, hothers, rfl⟩ := List.forall₂_cons_right_iff.1 hterms
  have hlength := hids.length_eq
  have hsome : 0 < ids.length := List.length_pos_iff.2 hne
  have hbelow : Builds s ((within room env bound).below (head :: others))
      (TellsAll [.lambda (params.drop first.length) (Tree.remaining params tree first)]) := by
    rw [← Tree.called_lambda (by omega)]
    have hcovers := (covers_of_lt hs hns (d := within room env bound)
      (Nat.lt_trans (hs id _ hn sequence List.mem_cons_self) hbefore)).children
    rw [Node.children_branch] at hcovers
    refine builds_below (fun term hm => Nat.lt_of_succ_lt_succ (hcovers term hm))
      (List.cons_ne_nil _ _) fun less hlt => ?_
    refine builds_call hs h hhead hothers hfirst hlt ?_
    have := hothers.length_eq
    omega
  rw [← Tree.called_remaining h.plain hfirst hlater]
  refine builds_terms_held ?_
  unfold term
  refine .get ?_
  rw [hn]
  dsimp only
  rw [if_neg (Nat.not_le_of_lt hbefore)]
  show Builds s ((within room env bound).paren .head _ id (.branch .paren [sequence])) _
  unfold paren
  refine .get ?_
  have hchild : (Node.branch .paren [sequence]).child 0 = sequence := rfl
  have htag : (Node.branch .exprs (head :: others)).tag = .exprs := rfl
  rw [hchild, hns]
  dsimp only
  rw [if_pos htag, Node.children_branch]
  refine hbelow.bind fun t folded he ht hfolded => .get ?_
  obtain ⟨lambda, rfl, hlambda⟩ := hfolded.of_single
  have hids := hids.extend hs ht he
  dsimp only
  rw [hlambda.tag? ht]
  refine builds_applyFollowing ht hlambda (Tree.plain_remaining h.plain hfirst) hids hlater
    hne ?_
  refine gives_literals ht hids hlater hbounds .argument ?_
  rw [List.length_drop]
  omega

end Descent

/-! ## Sequences -/

section

open Fold

variable {room : Nat} {env : Environment} {s : Store} {name : String} {params : List String}
  {tree : Tree} {id : NodeId}

theorem builds_fold_exprs (hs : s.Grounded) (hroom : env.room = room + 1) {ids : List NodeId}
    (hn : s.node? id = some (.branch .exprs ids)) (hne : ids ≠ []) {trees : List Tree}
    (h : ∀ less, (∀ id ∈ ids, id.index < (Descent.within room env less).bound) →
      Builds s ((Descent.within room env less).terms ids .head ids.length 0) fun t result =>
        t.HoldsAll result.1 trees) :
    Builds s (fold env id) (Tells (.branch .exprs trees)) := by
  have hbelow : ∀ child ∈ ids, child.index < id.index := by
    have hchildren := hs id _ hn
    rwa [Node.children_branch] at hchildren
  have hsingle : Builds s ((Descent.within room env id.index).single id (.branch .exprs ids))
      (Tells (.branch .exprs trees)) := by
    show Builds s
      ((Descent.within room env id.index).below (Node.branch .exprs ids).children >>=
        rebuild id .exprs) _
    rw [Node.children_branch]
    exact (Descent.builds_below hbelow hne h).bind fun t folded _ ht hfolded =>
      builds_rebuild ht hfolded id
  obtain ⟨folded, t, hsingle, he, ht, hfolded⟩ := hsingle
  refine ⟨folded, t, ?_, he, ht, hfolded⟩
  unfold fold
  rw [hroom]
  unfold foldWithin
  rw [Store.isAbsent_of_node? hn]
  have hsole : Tag.exprs ≠ .ident ∧ Tag.exprs ≠ .lambda ∧ Tag.exprs ≠ .paren := by decide
  exact (gives_foldSequence hn (Nat.le_refl _) hsole hsingle).bind (gives_pure t _)

/-- The name of a function with its arguments. -/
theorem builds_fold_call (hs : s.Grounded) (hroom : env.room = room + 1)
    (h : env.Calls s room name params tree) {arguments : List Tree}
    (hid : s.Holds id (.branch .exprs (.leaf .ident name :: arguments)))
    (hl : ∀ argument ∈ arguments, argument.Literal) (hle : arguments.length ≤ params.length) :
    Builds s (fold env id) (Tells (.branch .exprs [Tree.called params tree arguments])) := by
  obtain ⟨_, hn, hterms⟩ := hid.of_branch hs
  obtain ⟨head, ids, hhead, hids, rfl⟩ := List.forall₂_cons_right_iff.1 hterms
  refine builds_fold_exprs hs hroom hn (List.cons_ne_nil _ _) fun less hlt => ?_
  exact Descent.builds_call hs h hhead hids hl hlt (hids.length_eq ▸ hle)

/-- The name of a function with some of its arguments in parentheses, and the others after them. -/
theorem builds_fold_staged (hs : s.Grounded) (hroom : env.room = room + 1)
    (h : env.Calls s room name params tree) {first later : List Tree}
    (hid : s.Holds id (.branch .exprs
      (.branch .paren [.branch .exprs (.leaf .ident name :: first)] :: later)))
    (hfirst : ∀ argument ∈ first, argument.Literal) (hlater : ∀ argument ∈ later, argument.Literal)
    (hne : later ≠ []) (hle : first.length + later.length ≤ params.length) :
    Builds s (fold env id) (Tells (.branch .exprs [Tree.called params tree (first ++ later)])) := by
  obtain ⟨_, hn, hterms⟩ := hid.of_branch hs
  obtain ⟨head, ids, hhead, hids, rfl⟩ := List.forall₂_cons_right_iff.1 hterms
  refine builds_fold_exprs hs hroom hn (List.cons_ne_nil _ _) fun less hlt => ?_
  refine Descent.builds_staged hs h hhead hids hfirst hlater hlt (fun hnil => ?_) hle
  rw [hnil] at hids
  cases hids
  exact hne rfl

end

end Juxta
