import Juxta.Proofs.FoldedMeaning
import Juxta.Proofs.StagedCalls

/-!
# Lambdas that are applied while folding

A lambda in front of its arguments is folded to its body, with the arguments in the place of the
parameters. An APPLY node calls the lambda with the values of the arguments, in a scope in which the
parameters have these values.

* `Comparison.calling` : the scope of a call, and that around it;
* `Environment.called` : bodies in which the two can be compared;
* `Environment.reads_applied` : parameters that stand for arguments;
* `Descent.builds_expanded`, `Descent.builds_applied` : what a lambda in front of its arguments, and
  a call of it, are folded to;
* `Evaluator.exists_reaches_expanded` : both come to the same;
* `expansion_of_call` : lambdas that are applied while folding or while evaluating.
-/

namespace Juxta

open Fold

/-! ## The contexts of a call -/

namespace Evaluator

variable {e : Evaluator} {t : Store} {context : Context} {id : NodeId} {value : Value}

/-- A node comes to a value like this one. -/
def ComesTo (e : Evaluator) (context : Context) (id : NodeId) (value : Value) : Prop :=
  ∃ r, e.walk.Reaches context id r ∧ value.Alike e.store.rescaling r.2

theorem knows_of_reaches {r : Walk.Result Value} (h : e.walk.Reaches context id r) :
    e.store.Knows id := by
  rw [Walk.reaches_iff] at h
  split at h
  · rename_i habsent
    rw [NodeId.eq_absent_of_isAbsent habsent]
    exact e.store.knows_absent
  · obtain ⟨node, hn, -⟩ := h
    exact Store.knows_of_node? hn

theorem ComesTo.extend (h : e.ComesTo context id value) (hserves : e.Serves e.store)
    (hc : context.Within e.Callable 0) (he : e.store.Extends t) (ht : t.Grounded) :
    ComesTo { e with store := t } context id value := by
  obtain ⟨r, hr, hsame⟩ := h
  obtain ⟨r', hr', -, hv⟩ := (hserves.alike ht he).yields
    (.visit ⟨rfl, knows_of_reaches hr⟩ (alike_context hc)) ((Walk.yields_visit_iff _ _ _ _).2 hr)
  have hsame : value.Alike e.store.rescaling r'.2 := Store.rescaling_trans hsame hv
  exact ⟨r', (Walk.yields_visit_iff _ _ _ _).1 hr',
    Store.rescaling_symm (.refl t) (Store.rescaling_symm he hsame)⟩

end Evaluator

namespace Comparison

/-- The body of a lambda that is called, and a node at the call. Parameters have the values that
some nodes come to there, where diagnostics of these nodes can be added. -/
def calling (params : List String) (ids : List NodeId) : Comparison where
  contexts e context context' := context.Within e.Callable 0 ∧ context'.Within e.Callable 0 ∧
    ∃ values, List.Forall₂ (e.ComesTo context') ids values ∧ ∀ name, context.scope.get? name =
      ((Fields.ofPairs (params.zip values)).get? name).or (context'.scope.get? name)
  said found found' := (found.map Diagnostic.gist).Sublist (found'.map Diagnostic.gist)
  of_gists h := h ▸ List.Sublist.refl _
  append h hmore := by
    rw [List.map_append, List.map_append]
    exact h.append hmore

theorem silent_calling (params : List String) (ids : List NodeId) :
    (calling params ids).Silent := fun _ h => List.map_eq_nil_iff.1 (List.sublist_nil.1 h)

theorem stable_calling (params : List String) (ids : List NodeId) :
    (calling params ids).Stable where
  silent := silent_calling params ids
  within h := h.1
  extend := by
    rintro e context context' t hserves ⟨hc, hc', values, hvalues, hscope⟩ he ht
    exact ⟨Evaluator.within_extend he hc, Evaluator.within_extend he hc', values,
      hvalues.imp fun _ _ hid => hid.extend hserves hc' he ht, hscope⟩

end Comparison

/-! ## Names in the body -/

namespace Environment

theorem wordsWith_nil (words : List Word) :
    wordsWith [] words = Fields.ofPairs (words.map fun word => (word.name, word)) := by
  unfold wordsWith Fields.ofPairs
  rw [List.foldl_map]

/-- Parameters stand for arguments where there are enough of them. -/
theorem rel_bindParams {β : Type} {S : NodeId → β → Prop} {params : List String}
    {ids : List NodeId} {values : List β} (h : List.Forall₂ S ids values)
    (hle : params.length ≤ ids.length) (offset : Nat) :
    Fields.Rel (fun word value => ∃ id, word.kind = .value id ∧ S id value)
      ((bindParams offset params ids).map fun word => (word.name, word)) (params.zip values) := by
  induction params generalizing ids values offset with
  | nil => exact .nil
  | cons param rest ih =>
    cases h with
    | nil => exact absurd hle (Nat.not_succ_le_zero _)
    | cons hid hrest =>
      exact .cons ⟨rfl, _, rfl, hid⟩ (ih hrest (Nat.le_of_succ_le_succ hle) (offset + 1))

/-- The bodies of lambdas that can be compared with what becomes of them: names are parameters or
stand for themselves, no node depends on the context but for its names, and no number is negated. -/
def called (env : Environment) (params : List String) : Manner where
  names name := name ∈ params ∨ ¬ env.Means name
  kinds tag := tag ∉ Tag.readers ∧ tag ≠ .neg

variable {env : Environment} {s : Store} {params : List String} {ids : List NodeId}

/-- In a lambda parameters stand for themselves. -/
theorem reads_lambda (env : Environment) (s : Store) (params : List String) :
    (env.entered "lambda" none (bindParams 0 params [])).Reads s .same (env.called params)
      (env.called params) := by
  refine reads_same (fun name hname hmeans => ?_) ⟨by decide, nofun⟩
  obtain ⟨hparam, hmeans⟩ := hmeans.of_entered
  exact hname.elim hparam (· hmeans)

end Environment

namespace Store

open Evaluator

variable {t : Store} {R : Comparison} {id bound : NodeId} {name : String}

theorem reaches_name {e : Evaluator} (hn : e.store.node? id = some (.leaf .ident name))
    (context : Context) :
    e.walk.Reaches context id ([], (context.scope.get? name).getD (.string name)) :=
  (reaches_node_iff hn).2 ((Walk.yields_done_iff _ _ _ _).2 rfl)

/-- A name with the same value in both contexts. -/
theorem agree_name (hn : t.node? id = some (.leaf .ident name))
    (h : ∀ e context context', R.contexts e context context' →
      context.Within e.Callable 0 ∧ context.scope.get? name = context'.scope.get? name) :
    t.Agree R id id := by
  refine agree_of_reaches fun e he context context' hR => ?_
  obtain ⟨hc, hname⟩ := h e context context' hR
  have hn := he.holds.node?_of_some hn
  refine ⟨_, _, reaches_name hn context, reaches_name hn context', R.of_gists rfl, ?_⟩
  rw [← hname]
  exact .getD ((alike_context hc).scope.get? name) (.string name)

/-- A name with the value of a node. -/
theorem agree_bound (hn : t.node? id = some (.leaf .ident name)) (hs : ∀ found, R.said [] found)
    (h : ∀ e context context', R.contexts e context context' → ∃ value,
      context.scope.get? name = some value ∧ e.ComesTo context' bound value) :
    t.Agree R id bound := by
  refine agree_of_reaches fun e he context context' hR => ?_
  obtain ⟨value, hname, r, hr, hsame⟩ := h e context context' hR
  have hself := reaches_name (he.holds.node?_of_some hn) context
  rw [hname] at hself
  exact ⟨_, r, hself, hr, hs _, hsame⟩

end Store

namespace Environment

variable {env : Environment} {s : Store} {params : List String} {ids : List NodeId}

/-- In the body of a lambda that is applied parameters stand for arguments. -/
theorem reads_applied (hids : ∀ id ∈ ids, s.Unapplied env.unmeant id)
    (hle : params.length ≤ ids.length) :
    (env.entered "lambda" none (bindParams 0 params ids)).Reads s (.calling params ids)
      (env.called params) env.unmeant where
  stable := Comparison.stable_calling params ids
  sequences := trivial
  kinds _ _ := trivial
  admits _ htag := Comparison.admits_of_not_mem htag.1
  name {t id name} he _ hname hn := by
    -- the values of parameters are those of the nodes that the names stand for
    have hvalue : ∀ e context context',
        (Comparison.calling params ids).contexts e context context' →
        ∃ value : Option Value, Option.Rel (fun word value =>
            ∃ bound, word.kind = .value bound ∧ e.ComesTo context' bound value)
          ((wordsWith [] (bindParams 0 params ids)).get? name) value ∧
          context.scope.get? name = value.or (context'.scope.get? name) := by
      rintro e context context' ⟨-, -, values, hvalues, hscope⟩
      rw [wordsWith_nil]
      exact ⟨_, (rel_bindParams hvalues hle 0).ofPairs.get? name, hscope name⟩
    cases hword : (wordsWith [] (bindParams 0 params ids)).get? name with
    | none =>
      have hparam : name ∉ params := fun hm => by
        rw [← names_bindParams 0 params ids] at hm
        exact get?_wordsWith_ne_none (.inl (List.mem_map.1 hm)) hword
      have hmeans : ¬ env.Means name := hname.resolve_left hparam
      refine .inl ⟨fun ⟨word, number, hfind, hw⟩ => hmeans ⟨word, number, ?_, hw⟩, .name hn hmeans,
        Store.agree_name hn fun e context context' hR => ⟨hR.1, ?_⟩⟩
      · rw [find?_entered, hword] at hfind
        exact hfind
      · obtain ⟨value, hrel, hscope⟩ := hvalue e context context' hR
        rw [hword] at hrel
        cases hrel
        exact hscope
    | some word =>
      have hself : List.Forall₂ (fun id _ => id ∈ ids) ids ids := List.forall₂_same.2 fun _ hm => hm
      have hbound := (rel_bindParams hself hle 0).ofPairs.get? name
      rw [← wordsWith_nil, hword] at hbound
      generalize Fields.get? (Fields.ofPairs (params.zip ids)) name = other at hbound
      obtain ⟨bound, hkind, hm⟩ : ∃ bound, word.kind = .value bound ∧ bound ∈ ids := by
        cases hbound with
        | some hbound => exact hbound
      refine .inr ⟨word, env.depth, bound, ?_, hkind, (hids bound hm).extend he, ?_⟩
      · rw [find?_entered, hword]
      · refine Store.agree_bound hn (fun _ => List.nil_sublist _) fun e context context' hR => ?_
        obtain ⟨value, hrel, hscope⟩ := hvalue e context context' hR
        rw [hword] at hrel
        cases hrel with
        | some hrel =>
          obtain ⟨id, hid, hcomes⟩ := hrel
          obtain rfl : bound = id := by
            rw [hkind] at hid
            exact WordKind.value.inj hid
          exact ⟨_, hscope, hcomes⟩

end Environment

/-! ## What lambdas become -/

namespace Store

variable {s t : Store} {env : Environment} {params : List String} {m : Manner}
  {id lambda list body body' : NodeId}

/-- A lambda whose body has taken the place of another one. -/
structure FoldsLambda (t : Store) (env : Environment) (params : List String)
    (body lambda list body' : NodeId) : Prop where
  node : t.node? lambda = some (.branch .lambda [list, body'])
  body : t.FoldsTo .same (env.called params) body body'
  params : t.params lambda = params

/-- The body of a lambda with the arguments in the place of the parameters. -/
def Expands (t : Store) (env : Environment) (params : List String) (body : NodeId)
    (args : List NodeId) (expanded : NodeId) : Prop :=
  ∃ body' ids, t.FoldsTo .same (env.called params) body body' ∧
    List.Forall₂ (t.FoldsTo .same env.unmeant) args ids ∧
    t.FoldsTo (.calling params ids) env.unmeant body' expanded

/-- A call of a lambda with a list of arguments. -/
def Applies (t : Store) (env : Environment) (params : List String) (body items call : NodeId) :
    Prop :=
  ∃ lambda list body' items', t.node? call = some (.branch .apply [lambda, items']) ∧
    t.FoldsLambda env params body lambda list body' ∧ t.FoldsTo .same env.unmeant items items'

/-- The only term in parentheses, with or without them. -/
def Groups (t : Store) (id only : NodeId) : Prop :=
  id = only ∨ ∃ row, t.node? id = some (.branch .paren [row]) ∧
    t.node? row = some (.branch .exprs [only])

theorem params_extend (hs : s.Grounded) (ht : t.Grounded) (he : s.Extends t) (hid : s.Knows id) :
    t.params id = s.params id := ((Store.alike_extends hs ht he).params_eq ⟨rfl, hid⟩).symm

theorem FoldsLambda.extend (h : s.FoldsLambda env params body lambda list body')
    (hs : s.Grounded) (ht : t.Grounded) (he : s.Extends t) :
    t.FoldsLambda env params body lambda list body' where
  node := he.node?_of_some h.node
  body := h.body.extend he
  params := (params_extend hs ht he (knows_of_node? h.node)).trans h.params

theorem Expands.extend {args : List NodeId} {expanded : NodeId}
    (h : s.Expands env params body args expanded) (he : s.Extends t) :
    t.Expands env params body args expanded := by
  obtain ⟨first, ids, hfirst, hids, hexpanded⟩ := h
  exact ⟨first, ids, hfirst.extend he, hids.imp fun _ _ h => h.extend he, hexpanded.extend he⟩

theorem Applies.extend {items call : NodeId} (h : s.Applies env params body items call)
    (hs : s.Grounded) (ht : t.Grounded) (he : s.Extends t) :
    t.Applies env params body items call := by
  obtain ⟨lambda, list, body', items', hcall, hlambda, hitems⟩ := h
  exact ⟨lambda, list, body', items', he.node?_of_some hcall, hlambda.extend hs ht he,
    hitems.extend he⟩

theorem Groups.extend {only : NodeId} (h : s.Groups id only) (he : s.Extends t) :
    t.Groups id only :=
  h.imp_right fun ⟨row, hid, hrow⟩ => ⟨row, he.node?_of_some hid, he.node?_of_some hrow⟩

theorem FoldsLambda.body_eq (h : s.FoldsLambda env params body lambda list body') :
    s.body lambda = body' := by
  unfold Store.body
  rw [h.node]
  rfl

theorem Unapplied.not_negatesZero (h : s.Unapplied m id) (hneg : ¬ m.kinds .neg) (R : Comparison) :
    ¬ s.NegatesZero R id := by
  rintro ⟨negation, ⟨tag, slots⟩, operand, hbelow, hn, htag, -, -⟩
  obtain rfl : tag = .neg := htag
  exact hneg ((h.beneath hbelow (isAbsent_of_node? hn)).kinds hn rfl nofun)

theorem Unapplied.foldable_called (h : s.Unapplied (env.called params) id) (R : Comparison) :
    s.Foldable R (env.called params) id :=
  ⟨h, h.not_negatesZero (fun hneg => hneg.2 rfl) R⟩

end Store

namespace Descent

variable {room bound : Nat} {env : Environment} {s : Store} {R : Comparison} {m m' : Manner}
  {params : List String} {lambda list body : NodeId} {args : List NodeId}

theorem preserves_within (hs : s.Grounded) (hr : env.Reads s R m m') :
    (within room env bound).Preserves s R m m' :=
  ⟨hr, fun _ _ he ht hids hb => builds_kept_sequence hs hr _ bound he ht hids fun id hm =>
    Nat.lt_of_succ_lt_succ (hb id hm)⟩

theorem builds_called_lambda (hs : s.Grounded)
    (hn : s.node? lambda = some (.branch .lambda [list, body])) (hp : s.params lambda = params)
    (hbody : s.Unapplied (env.called params) body) :
    Builds s ((within room env bound).lambda lambda (.branch .lambda [list, body]))
      fun t folded => ∃ body', t.FoldsLambda env params body folded list body' := by
  unfold Descent.lambda
  refine .get ?_
  rw [hp]
  refine (builds_kept_within hs (env.reads_lambda s params) room (hbody.foldable_called _)).bind
    fun t body' he ht hfolded => ?_
  have hlist : s.Knows list := hs.knows_of_mem hn List.mem_cons_self
  have hknows : ∀ child ∈ [list, body'], t.Knows child := List.forall_mem_cons.2
    ⟨he.knows hlist, List.forall_mem_singleton.2 hfolded.unapplied.knows⟩
  refine (builds_branch ht lambda .lambda hknows).imp fun u folded hu hug hstored =>
    ⟨body', hstored, hfolded.extend hu, ?_⟩
  have hbefore := (he.trans hu).node?_of_some hn
  rw [Store.params_eq_of_child hstored hbefore rfl,
    Store.params_extend hs hug (he.trans hu) (Store.knows_of_node? hn), hp]

/-- The body of a lambda with as many arguments as there are parameters. -/
theorem builds_body {ids : List NodeId} (hs : s.Grounded)
    (hbody : s.Unapplied (env.called params) body) (hids : ∀ id ∈ ids, s.Unapplied env.unmeant id)
    (hlen : ids.length = params.length) :
    Builds s ((within room env bound).expand "lambda" none params body ids)
      fun t only => t.FoldsTo (.calling params ids) env.unmeant body only := by
  unfold expand
  refine (builds_kept_within hs (Environment.reads_applied hids (Nat.le_of_eq hlen.symm)) room
    (hbody.foldable_called _)).bind fun t folded _ ht hfolded => .get ?_
  rw [hlen, List.drop_length]
  exact .pure ht hfolded.unwrap

/-- A lambda with all of its arguments. -/
theorem builds_expanded (hs : s.Grounded)
    (hn : s.node? lambda = some (.branch .lambda [list, body])) (hp : s.params lambda = params)
    (hbody : s.Unapplied (env.called params) body)
    (hargs : ∀ arg ∈ args, s.Foldable .same env.unmeant arg)
    (hlt : ∀ term ∈ lambda :: args, term.index < (within room env bound).bound)
    (hlen : args.length = params.length) (hne : args ≠ []) :
    Builds s ((within room env bound).terms (lambda :: args) .head (args.length + 1) 0)
      fun t result => ∃ only, result.1 = [only] ∧ t.Expands env params body args only := by
  obtain ⟨hbefore, hlater⟩ := List.forall_mem_cons.1 hlt
  have hreads : env.Reads s .same env.unmeant env.unmeant :=
    Environment.reads_same (fun _ hm => hm) trivial
  refine builds_terms_all ?_
  unfold term
  refine .get ?_
  rw [hn]
  dsimp only
  rw [if_neg (Nat.not_le_of_lt hbefore)]
  refine (builds_called_lambda hs hn hp hbody).bind fun t folded he ht ⟨body', hlambda⟩ => ?_
  unfold applyFollowing
  rw [if_neg (by decide)]
  refine .get ?_
  rw [hlambda.params]
  dsimp only
  rw [← hlen]
  refine (builds_kept_terms (preserves_within hs hreads) hs he ht hargs hlater .argument).bind
    fun u result hu hug ⟨hids, htaken⟩ => ?_
  obtain ⟨ids, taken⟩ := result
  obtain rfl : taken = args.length := htaken
  have hlength : args.length = ids.length := hids.length_eq
  have hsome : ids.isEmpty = false := by
    rw [List.isEmpty_eq_false_iff, ← List.length_pos_iff, ← hlength]
    exact List.length_pos_iff.2 hne
  dsimp only
  rw [hsome]
  refine .get ?_
  have hlambda := hlambda.extend ht hug hu
  have hfolded := hids.imp fun _ _ h => h.toFoldsTo
  rw [hlambda.body_eq]
  refine (builds_body hug hlambda.body.unapplied (Store.unapplied_of_foldsTo hfolded)
    (hlength.symm.trans hlen)).bind fun v only hv hvg honly => .pure hvg ⟨?_, rfl⟩
  exact ⟨body', ids, hlambda.body.extend hv, hfolded.imp fun _ _ h => h.extend hv, honly⟩

/-- A call of a lambda. -/
theorem builds_applied (hs : s.Grounded) {name items : NodeId} {text : String} {word : Word}
    {number : Nat} (hname : s.node? name = some (.leaf .ident text))
    (hfind : env.find? text = some (word, number)) (hkind : word.kind = .builtin .apply 2)
    (hn : s.node? lambda = some (.branch .lambda [list, body])) (hp : s.params lambda = params)
    (hbody : s.Unapplied (env.called params) body) (hitems : s.Foldable .same env.unmeant items)
    (hlt : ∀ term ∈ [name, lambda, items], term.index < (within room env bound).bound) :
    Builds s ((within room env bound).terms [name, lambda, items] .head 3 0)
      fun t result => ∃ only, result.1 = [only] ∧ t.Applies env params body items only := by
  obtain ⟨hbefore, hlater⟩ := List.forall_mem_cons.1 hlt
  obtain ⟨hsecond, hlast⟩ := List.forall_mem_cons.1 hlater
  have hreads : env.Reads s .same env.unmeant env.unmeant :=
    Environment.reads_same (fun _ hm => hm) trivial
  have htaken : Builds s ((within room env bound).terms [lambda, items] .argument 2 0)
      fun t result => ∃ lambda' items' list body', result = ([lambda', items'], 2) ∧
        t.FoldsLambda env params body lambda' list body' ∧
        t.FoldsTo .same env.unmeant items items' := by
    have hlambda : Builds s ((within room env bound).term .argument
        (fun count => (within room env bound).terms [items] .argument count 0) lambda)
        fun t result => ∃ lambda' list body', result = (lambda', 0) ∧
          t.FoldsLambda env params body lambda' list body' := by
      unfold term
      refine .get ?_
      rw [hn]
      dsimp only
      rw [if_neg (Nat.not_le_of_lt hsecond)]
      refine (builds_called_lambda hs hn hp hbody).bind fun t folded _ ht hlambda => ?_
      obtain ⟨body', hlambda⟩ := hlambda
      unfold applyFollowing
      rw [if_pos rfl]
      exact .pure ht ⟨folded, list, body', rfl, hlambda⟩
    unfold terms
    refine hlambda.bind fun t result he ht hresult => ?_
    obtain ⟨lambda', list, body', rfl, hlambda⟩ := hresult
    refine (builds_kept_terms (preserves_within hs hreads) hs he ht
      (List.forall_mem_singleton.2 hitems) hlast .argument).bind fun u result hu hug hresult => ?_
    obtain ⟨results, more⟩ := result
    obtain ⟨hresults, hmore⟩ := hresult
    obtain ⟨items', rest, hitems', hrest, rfl⟩ := List.forall₂_cons_left_iff.1 hresults
    cases hrest
    obtain rfl : more = 1 := hmore
    exact .pure hug ⟨lambda', items', list, body', rfl, hlambda.extend ht hug hu,
      hitems'.toFoldsTo⟩
  obtain ⟨_, kind, _⟩ := word
  obtain rfl : kind = .builtin .apply 2 := hkind
  have htext : (Node.leaf .ident text).text?.getD "" = text := rfl
  refine builds_terms_all ?_
  unfold term
  refine .get ?_
  rw [hname]
  dsimp only
  rw [if_neg (Nat.not_le_of_lt hbefore)]
  show Builds s ((within room env bound).ident .head _ name (.leaf .ident text)) _
  unfold ident
  rw [htext]
  dsimp only
  rw [show (within room env bound).env.find? text = _ from hfind]
  refine htaken.bind fun t result he ht hresult => ?_
  obtain ⟨lambda', items', list, body', rfl, hlambda, hitems'⟩ := hresult
  have hbuiltin : Builds t (builtin name .apply 2 [lambda', items'])
      fun u call => u.node? call = some (.branch .apply [lambda', items']) := by
    have hnone : t.computed? .apply [lambda', items'] = none :=
      Option.eq_none_iff_forall_ne_some.2 fun result hresult =>
        absurd (Store.mem_operators_of_computed? hresult) (by decide)
    have hknows : ∀ child ∈ [lambda', items'], t.Knows child := List.forall_mem_cons.2
      ⟨Store.knows_of_node? hlambda.node, List.forall_mem_singleton.2 hitems'.unapplied.knows⟩
    have hoperation : builtin name .apply 2 [lambda', items'] =
        operation name .apply [lambda', items'] >>= residual [] := rfl
    rw [hoperation]
    unfold operation
    refine (Builds.get ?_).bind fun u call _ hu hcall => .pure hu hcall
    rw [hnone]
    exact builds_branch ht name .apply hknows
  refine hbuiltin.bind fun u call hu hug hcall => .pure hug ⟨?_, rfl⟩
  exact ⟨lambda', list, body', items', hcall, hlambda.extend ht hug hu, hitems'.extend hu⟩

/-! ### Parentheses -/

/-- What stands in parentheses becomes a single term. -/
theorem builds_grouped {id row : NodeId} {terms : List NodeId} {P : Store → NodeId → Prop}
    (hs : s.Grounded) (hroom : env.room = room + 1)
    (hn : s.node? id = some (.branch .paren [row]))
    (hrow : s.node? row = some (.branch .exprs terms)) (hne : terms ≠ [])
    (hmono : ∀ t u only, t.Grounded → u.Grounded → t.Extends u → P t only → P u only)
    (hplain : ∀ t only, P t only → t.Knows only ∧ t.tag? only ≠ some .lambda)
    (h : ∀ less, (∀ term ∈ terms, term.index < (within room env less).bound) →
      Builds s ((within room env less).terms terms .head terms.length 0) fun t result =>
        ∃ only, result.1 = [only] ∧ P t only) :
    Builds s (fold env id) fun t folded => ∃ only, t.Groups folded only ∧ P t only := by
  have hbelow : ∀ term ∈ terms, term.index < id.index := fun term hm =>
    Nat.lt_trans (hs row _ hrow term (by rwa [Node.children_branch]))
      (hs id _ hn row List.mem_cons_self)
  have hparen : Builds s ((within room env id.index).paren .head
      (fun count => (within room env id.index).terms [] .argument count 0) id
      (.branch .paren [row])) fun t result =>
        (∃ only, t.Groups result.1 only ∧ P t only) ∧ result.2 = 0 := by
    unfold paren
    refine .get ?_
    have hchild : (Node.branch .paren [row]).child 0 = row := rfl
    have htag : (Node.branch .exprs terms).tag = .exprs := rfl
    rw [hchild, hrow]
    dsimp only
    rw [if_pos htag, Node.children_branch]
    have hsole : Builds s ((within room env id.index).below terms)
        fun t folded => ∃ only, folded = [only] ∧ P t only := builds_below hbelow hne h
    refine hsole.bind fun t folded _ ht hfolded => .get ?_
    obtain ⟨only, rfl, honly⟩ := hfolded
    obtain ⟨hknows, hlambda⟩ := hplain t only honly
    dsimp only
    have hkeep : Builds t (do
        let sequence ← rebuild row .exprs [only]
        return (← rebuild id .paren [sequence], 0)) fun u result =>
          (∃ only, u.Groups result.1 only ∧ P u only) ∧ result.2 = 0 := by
      refine (builds_branch ht row .exprs (List.forall_mem_singleton.2 hknows)).bind
        fun u sequence hu hug hsequence => ?_
      refine (builds_branch hug id .paren
        (List.forall_mem_singleton.2 (Store.knows_of_node? hsequence))).bind
          fun v folded hv hvg hfolded => .pure hvg ?_
      exact ⟨⟨only, .inr ⟨sequence, hfolded, hv.node?_of_some hsequence⟩,
        hmono t v only ht hvg (hu.trans hv) honly⟩, rfl⟩
    split
    · rename_i htag
      exact absurd htag hlambda
    iterate 4 · exact hkeep
    · exact .pure ht ⟨⟨only, .inl rfl, honly⟩, rfl⟩
  unfold fold
  rw [hroom]
  unfold foldWithin
  rw [Store.isAbsent_of_node? hn]
  have hterm : Builds s ((within room env id.index).terms [id] .head 1 0) fun t result =>
      ∃ folded, result.1 = [folded] ∧ ∃ only, t.Groups folded only ∧ P t only := by
    refine builds_terms_all ?_
    unfold term
    refine .get ?_
    rw [hn]
    dsimp only
    have hbefore : id.index < (within room env id.index).bound := Nat.lt_succ_self _
    rw [if_neg (Nat.not_le_of_lt hbefore)]
    exact hparen
  have hsequence : Builds s (foldSequence env (within room env id.index).inside (id.index + 1) [id])
      fun t results => ∃ folded, results = [folded] ∧ ∃ only, t.Groups folded only ∧ P t only :=
    hterm.bind fun t result _ ht hresult => .pure ht hresult
  refine hsequence.bind fun t result _ ht hresult => ?_
  obtain ⟨folded, rfl, hresult⟩ := hresult
  exact .pure ht hresult

end Descent

/-! ## Evaluation -/

/-- Names in the scope of a call. -/
theorem Scope.get?_of_call {parent caller scope : Scope} {title : String}
    {words : List (String × Value)} {limit : Nat}
    (h : Scope.call parent caller title words limit = .ok scope) (name : String) :
    scope.get? name = ((Fields.ofPairs words).get? name).or (parent.get? name) := by
  unfold Scope.call at h
  dsimp only at h
  split at h
  · cases h
  · cases h
    conv_lhs => unfold Scope.get?
    cases Fields.get? (Fields.ofPairs words) name <;> rfl

namespace Evaluator

variable {e : Evaluator} {s t : Store} {env : Environment} {params : List String}
  {context : Context} {id only : NodeId} {args ids : List NodeId} {values : List Value}
  {r : Walk.Result Value}

/-- A term in parentheses comes to what it comes to without them. -/
theorem reaches_group_iff (h : e.store.Groups id only) :
    e.walk.Reaches context id r ↔ e.walk.Reaches context only r := by
  obtain rfl | ⟨row, hid, hrow⟩ := h
  · exact Iff.rfl
  · rw [reaches_paren_iff hid, reaches_single_iff hrow]

/-- The items of a list. -/
theorem exists_results_of_list (hn : e.store.node? id = some (.branch .list ids))
    (h : e.walk.Reaches context id r) : ∃ results,
      List.Forall₂ (e.walk.Reaches context) ids results ∧ r.2 = .list (results.map Prod.snd) := by
  have henter : e.enter id (.branch .list ids) context =
      .gather ids context (.operands id .list context) := by
    show Action.gather _ context (EvalFrame.operands id .list context) = _
    rw [Node.children_branch]
  rw [reaches_node_iff hn, henter, Walk.yields_gather_iff] at h
  obtain ⟨results, hresults, h⟩ := h
  obtain rfl := (Walk.yields_done_iff _ _ _ _).1 h
  exact ⟨results, hresults, rfl⟩

/-- What a call of a lambda comes to is what its body comes to in a scope of its own. -/
theorem reaches_body_of_apply {lambda list body items : NodeId}
    (hn : e.store.node? id = some (.branch .apply [lambda, items]))
    (hl : e.store.node? lambda = some (.branch .lambda [list, body]))
    (hp : e.store.params lambda = params) (h : e.walk.Reaches context id r) :
    ∃ first, e.walk.Reaches context items first ∧ ∀ values, first.2 = .list values →
      values.length = params.length → ∃ scope last,
        Scope.call context.scope context.scope "lambda" (params.zip values) e.limit = .ok scope ∧
        e.walk.Reaches ⟨scope, some values⟩ body last ∧ r.2 = last.2 := by
  have hfunction : e.walk.Reaches context lambda
      ([], .function ⟨lambda, params, body, context.scope, []⟩) := by
    rw [← hp]
    exact (reaches_node_iff hl).2 ((Walk.yields_done_iff _ _ _ _).2 rfl)
  have henter : e.enter id (.branch .apply [lambda, items]) context =
      .gather [lambda, items] context (.application id context) := rfl
  rw [reaches_node_iff hn, henter, Walk.yields_gather_iff] at h
  obtain ⟨results, hresults, h⟩ := h
  obtain ⟨function, rest, hfirst, hrest, rfl⟩ := List.forall₂_cons_left_iff.1 hresults
  obtain ⟨⟨found, value⟩, nothing, hitems, hnothing, rfl⟩ := List.forall₂_cons_left_iff.1 hrest
  cases hnothing
  obtain rfl := Walk.Reaches.unique hfirst hfunction
  refine ⟨_, hitems, ?_⟩
  rintro values rfl hlen
  change e.walk.Yields (.after (found ++ []) (e.call id _ values context)) r at h
  obtain ⟨more, h, -⟩ := (Walk.yields_after_iff _ _ _ _).1 h
  have hshort : ¬ values.length < params.length := Nat.not_lt_of_le hlen.ge
  unfold call at h
  dsimp only at h
  rw [List.nil_append, if_neg hshort, ← hlen, List.take_length, List.drop_length] at h
  cases hscope : Scope.call context.scope context.scope "lambda" (params.zip values) e.limit with
  | error cause =>
    rw [hscope] at h
    exact absurd h (Walk.not_yields_abort _ _ _)
  | ok scope =>
    rw [hscope] at h
    dsimp only at h
    obtain ⟨results, hresults, h⟩ := (Walk.yields_gather_iff _ _ _ _ _).1 h
    obtain ⟨last, rest, hlast, hrest, rfl⟩ := List.forall₂_cons_left_iff.1 hresults
    cases hrest
    have hresume : e.walk.resume (.surplus id [] context)
        (List.flatMap Prod.fst [last]) (List.map Prod.snd [last]) = .done last.1 last.2 := by
      obtain ⟨found, value⟩ := last
      show e.surplus id [] context (found ++ []) value = .done found value
      rw [List.append_nil]
      cases value <;> rfl
    rw [hresume, Walk.yields_done_iff] at h
    exact ⟨scope, last, rfl, hlast, (Prod.mk.inj h).2⟩

/-- The scope of the call of a lambda, and that around it. -/
theorem calling_of_call {scope : Scope} (hc : context.Within e.Callable 0)
    (hvalues : ∀ value ∈ values, value.Within e.Callable)
    (hcomes : List.Forall₂ (e.ComesTo context) ids values)
    (hscope : Scope.call context.scope context.scope "lambda" (params.zip values) e.limit =
      .ok scope) : (Comparison.calling params ids).contexts e ⟨scope, some values⟩ context := by
  refine ⟨⟨?_, fun own hown => ?_, Nat.zero_le _⟩, hc, values, hcomes, Scope.get?_of_call hscope⟩
  · exact hc.scope.call (fun word hm => hvalues word.2 (List.of_mem_zip hm).2) hscope
  · cases hown
    exact hvalues

/-- Nodes that take the place of others come to values like theirs. -/
theorem comesTo_of_foldsTo {m : Manner} (he : e.Serves t) (hc : context.Within e.Callable 0)
    (hids : List.Forall₂ (t.FoldsTo .same m) args ids) {results : List (Walk.Result Value)}
    (hargs : List.Forall₂ (e.walk.Reaches context) args results)
    (hsame : List.Forall₂ (Value.Alike e.store.rescaling) values (results.map Prod.snd)) :
    List.Forall₂ (e.ComesTo context) ids values := by
  induction hids generalizing values results with
  | nil =>
    cases hargs
    cases hsame
    exact .nil
  | cons hid _ ih =>
    obtain ⟨result, rest, hresult, hrest, rfl⟩ := List.forall₂_cons_left_iff.1 hargs
    obtain ⟨value, others, hvalue, hothers, rfl⟩ := List.forall₂_cons_right_iff.1 hsame
    obtain ⟨r, hr, -, hv⟩ := (hid.agree e he).1.reaches ⟨rfl, hc⟩ hresult
    exact .cons ⟨r, hr, Store.rescaling_trans hvalue hv⟩ (ih hrest hothers)

/-- A call comes to the value that the body comes to in which the arguments are in the place of the
parameters. -/
theorem exists_reaches_expanded {body items call expanded : NodeId} (he : e.Serves t)
    (ht : t.Grounded) (hc : context.Within e.Callable 0)
    (hexpands : t.Expands env params body args expanded)
    (happlies : t.Applies env params body items call)
    (hitems : t.node? items = some (.branch .list args)) (hlen : args.length = params.length)
    (hr : e.walk.Reaches context call r) :
    ∃ r', e.walk.Reaches context expanded r' ∧ r.2.Alike e.store.rescaling r'.2 := by
  obtain ⟨first, ids, hfirst, hids, hexpanded⟩ := hexpands
  obtain ⟨lambda, list, second, items', hcall, hlambda, hitems'⟩ := happlies
  have hparams : e.store.params lambda = params :=
    (Store.params_extend ht he.grounded he.holds (Store.knows_of_node? hlambda.node)).trans
      hlambda.params
  obtain ⟨⟨found, value⟩, hlist, hbody⟩ := reaches_body_of_apply (he.holds.node?_of_some hcall)
    (he.holds.node?_of_some hlambda.node) hparams hr
  -- the values of the arguments, in the call and around it
  have hwalk : e.walk.Confined (e.bounds e.Callable 0) :=
    confined (e.admits_callable 0) he.grounded he.data
  have hwithin : value.Within e.Callable := hwalk.of_reaches (knows_of_reaches hlist) hc hlist
  obtain ⟨⟨found', value'⟩, hitem, -, hv⟩ := (hitems'.agree e he).2.reaches ⟨rfl, hc⟩ hlist
  obtain ⟨results, hresults, rfl⟩ := exists_results_of_list (he.holds.node?_of_some hitems) hitem
  have hv : value.Alike e.store.rescaling (.list (results.map Prod.snd)) := hv
  obtain ⟨values, rfl, hsame⟩ : ∃ values, value = .list values ∧
      List.Forall₂ (Value.Alike e.store.rescaling) values (results.map Prod.snd) := by
    cases hv with
    | list hsame => exact ⟨_, rfl, hsame⟩
  have hlength : values.length = params.length := by
    rw [hsame.length_eq, List.length_map, ← hresults.length_eq, hlen]
  obtain ⟨scope, last, hscope, hlast, hvalue⟩ := hbody values rfl hlength
  have hcalling := calling_of_call hc hwithin.items (comesTo_of_foldsTo he hc hids hresults hsame)
    hscope
  -- from the body of the call to that of the lambda, and from there to what has been made of it
  obtain ⟨r₁, hr₁, -, hv₁⟩ := (hlambda.body.agree e he).2.reaches ⟨rfl, hcalling.1⟩ hlast
  obtain ⟨r₂, hr₂, -, hv₂⟩ := (hfirst.agree e he).1.reaches ⟨rfl, hcalling.1⟩ hr₁
  obtain ⟨r₃, hr₃, -, hv₃⟩ := (hexpanded.agree e he).1.reaches hcalling hr₂
  rw [hvalue]
  exact ⟨r₃, hr₃, Store.rescaling_trans (Store.rescaling_trans hv₁ hv₂) hv₃⟩

end Evaluator

/-! ## Programs -/

section

variable {s : Store} {env : Environment} {lambda list body : NodeId} {params : List String}
  {args : List NodeId}

/-- A lambda in front of its arguments is folded to its body. -/
theorem builds_fold_expanded {id : NodeId} (hs : s.Grounded) (hroom : 0 < env.room)
    (hid : s.Encloses id (lambda :: args))
    (hn : s.node? lambda = some (.branch .lambda [list, body])) (hp : s.params lambda = params)
    (hbody : s.Unapplied (env.called params) body)
    (hargs : ∀ arg ∈ args, s.Foldable .same env.unmeant arg) (hlen : args.length = params.length)
    (hne : args ≠ []) :
    Builds s (fold env id) fun t folded =>
      ∃ only, t.Groups folded only ∧ t.Expands env params body args only := by
  obtain ⟨row, hid, hrow⟩ := hid
  obtain ⟨room, hroom⟩ := Nat.exists_eq_add_one.2 hroom
  refine Descent.builds_grouped hs hroom hid hrow (List.cons_ne_nil _ _)
    (fun t u only _ _ hu honly => honly.extend hu) ?_ fun less hlt =>
      Descent.builds_expanded hs hn hp hbody hargs hlt hlen hne
  rintro t only ⟨_, _, _, _, honly⟩
  exact ⟨honly.unapplied.knows, honly.unapplied.tag_ne_lambda⟩

/-- The name of APPLY in front of a lambda and a list is folded to a call. -/
theorem builds_fold_applied {id name items : NodeId} {text : String} {word : Word} {number : Nat}
    (hs : s.Grounded) (hroom : 0 < env.room) (hid : s.Encloses id [name, lambda, items])
    (hname : s.node? name = some (.leaf .ident text))
    (hfind : env.find? text = some (word, number)) (hkind : word.kind = .builtin .apply 2)
    (hn : s.node? lambda = some (.branch .lambda [list, body])) (hp : s.params lambda = params)
    (hbody : s.Unapplied (env.called params) body) (hitems : s.Foldable .same env.unmeant items) :
    Builds s (fold env id) fun t folded =>
      ∃ only, t.Groups folded only ∧ t.Applies env params body items only := by
  obtain ⟨row, hid, hrow⟩ := hid
  obtain ⟨room, hroom⟩ := Nat.exists_eq_add_one.2 hroom
  refine Descent.builds_grouped hs hroom hid hrow (List.cons_ne_nil _ _)
    (fun t u only ht hug hu honly => honly.extend ht hug hu) ?_ fun less hlt =>
      Descent.builds_applied hs hname hfind hkind hn hp hbody hitems hlt
  rintro t only ⟨lambda, list, body', items', hcall, -, -⟩
  refine ⟨Store.knows_of_node? hcall, ?_⟩
  rw [Store.tag?_of_node? hcall]
  nofun

/-- A lambda in front of its arguments and a call of it with these arguments are both folded, and
if both come to values, these are equal. -/
theorem expansion_of_call {first second name items : NodeId} {text : String} {word : Word}
    {number : Nat} (hs : s.Grounded) (hroom : 0 < env.room)
    (hn : s.node? lambda = some (.branch .lambda [list, body]))
    (hbody : s.Unapplied (env.called (s.params lambda)) body)
    (hlen : args.length = (s.params lambda).length) (hne : args ≠ [])
    (hitems : s.node? items = some (.branch .list args)) (hargs : s.Unapplied env.unmeant items)
    (hz : ¬ s.NegatesZero .same items) (hname : s.node? name = some (.leaf .ident text))
    (hfind : env.find? text = some (word, number)) (hkind : word.kind = .builtin .apply 2)
    (hfirst : s.Encloses first (lambda :: args))
    (hsecond : s.Encloses second [name, lambda, items]) :
    ∃ expanded t call u, Gives s (fold env first) expanded t ∧ Gives t (fold env second) call u ∧
      s.Extends u ∧ u.Grounded ∧ ∀ e : Evaluator, e.Serves u → ∀ context : Context,
        context.Within e.Callable 0 → ∀ scheduling steps found value,
          e.walk.run scheduling steps call context = .finished found value →
          ∃ steps' found' value',
            e.walk.run scheduling steps' expanded context = .finished found' value' ∧
            value.Alike e.store.rescaling value' ∧ value.eq value' = true := by
  have hfoldable : s.Foldable .same env.unmeant items := ⟨hargs, hz⟩
  have hterms := hfoldable.children hitems (hargs.of_terms hitems rfl)
  obtain ⟨expanded, t, hexpanded, he, ht, only, hgroups, hexpands⟩ :=
    builds_fold_expanded hs hroom hfirst hn rfl hbody hterms hlen hne
  obtain ⟨row, hparen, hrow⟩ := hsecond
  have hsecond : t.Encloses second [name, lambda, items] :=
    ⟨row, he.node?_of_some hparen, he.node?_of_some hrow⟩
  have hparams := Store.params_extend hs ht he (Store.knows_of_node? hn)
  obtain ⟨call, u, hcall, hu, hug, single, hgroups', happlies⟩ :=
    builds_fold_applied ht hroom hsecond (he.node?_of_some hname) hfind hkind
      (he.node?_of_some hn) hparams (hbody.extend he)
      (hfoldable.extend Comparison.stable_same hs ht he)
  refine ⟨expanded, t, call, u, hexpanded, hcall, he.trans hu, hug, ?_⟩
  intro e hserves context hc scheduling steps found value hrun
  have hr := (Evaluator.reaches_group_iff (hgroups'.extend hserves.holds)).1
    (Walk.reaches_of_finished hrun)
  obtain ⟨⟨found', value'⟩, hr', hsame⟩ := Evaluator.exists_reaches_expanded hserves hug hc
    (hexpands.extend hu) happlies ((he.trans hu).node?_of_some hitems) hlen hr
  obtain ⟨steps', hrun'⟩ := Walk.exists_finished_of_reaches
    ((Evaluator.reaches_group_iff ((hgroups.extend hu).extend hserves.holds)).2 hr')
  exact ⟨steps', found', value', hrun', hsame, hsame.eq⟩

end

/-! ### A number and its successor -/

namespace Successor

/-- The nodes of `(<x: x + 1> 2)` and of `(apply <x: x + 1> [2])`. -/
def nodes : List Node :=
  [.leaf .ident "x", .leaf .num "1", .branch .add [⟨1⟩, ⟨2⟩], .branch .exprs [⟨3⟩],
    .branch .list [⟨1⟩], .branch .lambda [⟨5⟩, ⟨4⟩], .leaf .num "2", .branch .exprs [⟨6⟩, ⟨7⟩],
    .branch .paren [⟨8⟩], .leaf .ident "apply", .branch .list [⟨7⟩],
    .branch .exprs [⟨10⟩, ⟨6⟩, ⟨11⟩], .branch .paren [⟨12⟩]]

def store : Store := .ofNodes nodes

def env : Environment := .ofLexicon .standard Runaway.defaultLimit

theorem nodes_store : store.nodes = nodes := Store.nodes_ofNodes (by decide)

theorem node?_store (i : Nat) : store.node? ⟨i + 1⟩ = nodes[i]? :=
  Store.node?_of_nodes nodes_store i

theorem grounded_store : store.Grounded := Store.grounded_of_nodes nodes_store (by decide)

theorem params_store : store.params ⟨6⟩ = ["x"] :=
  Store.params_eq (node?_store 5) (node?_store 4) (.cons (node?_store 0) .nil)

theorem unapplied_body : store.Unapplied (env.called ["x"]) ⟨4⟩ := by
  have hname : store.Unapplied (env.called ["x"]) ⟨1⟩ :=
    .name (node?_store 0) (.inl List.mem_cons_self)
  have hone : store.Unapplied (env.called ["x"]) ⟨2⟩ := .scalar (node?_store 1) rfl rfl
  have hadd : store.Unapplied (env.called ["x"]) ⟨3⟩ :=
    .terms (node?_store 2) rfl nofun ⟨by decide, nofun⟩
      (List.forall_mem_cons.2 ⟨hname, List.forall_mem_singleton.2 hone⟩)
  exact .terms (node?_store 3) rfl nofun ⟨by decide, nofun⟩ (List.forall_mem_singleton.2 hadd)

theorem unapplied_items {m : Manner} (hm : m.kinds .list) : store.Unapplied m ⟨11⟩ :=
  .terms (node?_store 10) rfl nofun hm
    (List.forall_mem_singleton.2 (.scalar (node?_store 6) rfl rfl))

theorem not_negatesZero_items : ¬ store.NegatesZero .same ⟨11⟩ :=
  (unapplied_items (m := env.called []) ⟨by decide, nofun⟩).not_negatesZero (fun h => h.2 rfl) _

theorem expansion_of_call_successor :
    store.Grounded ∧ 0 < env.room ∧
      store.node? ⟨6⟩ = some (.branch .lambda [⟨5⟩, ⟨4⟩]) ∧
      store.Unapplied (env.called (store.params ⟨6⟩)) ⟨4⟩ ∧
      [(⟨7⟩ : NodeId)].length = (store.params ⟨6⟩).length ∧ [(⟨7⟩ : NodeId)] ≠ [] ∧
      store.node? ⟨11⟩ = some (.branch .list [⟨7⟩]) ∧ store.Unapplied env.unmeant ⟨11⟩ ∧
      ¬ store.NegatesZero .same ⟨11⟩ ∧ store.node? ⟨10⟩ = some (.leaf .ident "apply") ∧
      env.find? "apply" = some (⟨"apply", .builtin .apply 2, 0⟩, 0) ∧
      store.Encloses ⟨9⟩ [⟨6⟩, ⟨7⟩] ∧ store.Encloses ⟨13⟩ [⟨10⟩, ⟨6⟩, ⟨11⟩] ∧
      ∃ expanded t call u, Gives store (fold env ⟨9⟩) expanded t ∧
        Gives t (fold env ⟨13⟩) call u ∧ store.Extends u ∧ u.Grounded ∧
        ∀ e : Evaluator, e.Serves u → ∀ context : Context, context.Within e.Callable 0 →
          ∀ scheduling steps found value,
            e.walk.run scheduling steps call context = .finished found value →
            ∃ steps' found' value',
              e.walk.run scheduling steps' expanded context = .finished found' value' ∧
              value.Alike e.store.rescaling value' ∧ value.eq value' = true := by
  have hroom : 0 < env.room := by decide
  have hbody : store.Unapplied (env.called (store.params ⟨6⟩)) ⟨4⟩ := by
    rw [params_store]
    exact unapplied_body
  have hlen : [(⟨7⟩ : NodeId)].length = (store.params ⟨6⟩).length := by
    rw [params_store]
    rfl
  have hitems : store.Unapplied env.unmeant ⟨11⟩ := unapplied_items trivial
  have hfind : env.find? "apply" = some (⟨"apply", .builtin .apply 2, 0⟩, 0) := rfl
  have hfirst : store.Encloses ⟨9⟩ [⟨6⟩, ⟨7⟩] := ⟨⟨8⟩, node?_store 8, node?_store 7⟩
  have hsecond : store.Encloses ⟨13⟩ [⟨10⟩, ⟨6⟩, ⟨11⟩] := ⟨⟨12⟩, node?_store 12, node?_store 11⟩
  exact ⟨grounded_store, hroom, node?_store 5, hbody, hlen, nofun, node?_store 10, hitems,
    not_negatesZero_items, node?_store 9, hfind, hfirst, hsecond,
    expansion_of_call grounded_store hroom (node?_store 5) hbody hlen nofun (node?_store 10) hitems
      not_negatesZero_items (node?_store 9) hfind rfl hfirst hsecond⟩

end Successor

end Juxta
