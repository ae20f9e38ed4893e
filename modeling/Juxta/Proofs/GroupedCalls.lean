import Juxta.Proofs.StagedPrograms
import Juxta.Proofs.TakenTerms

/-!
# Calls in parentheses

Functions take the terms after them as arguments, wherever they stand. So a call with all of its
arguments may be put in parentheses where it is an argument itself.

* `Descent.abreast_group` : a call, and the same call in parentheses;
* `Descent.Facing`, `Descent.abreast_facing` : the rows of terms in which they stand;
* `Environment.Whole` : calls with all of their arguments that need no parentheses, such as calls
  of builtin functions and of functions that come to such calls (`Environment.whole_of_builtin`,
  `Environment.whole_of_function`);
* `fold_grouped` : what both rows are folded to;
* `PendingCall.fold_ne_grouped` : the name of a function that is not defined yet.
-/

namespace Juxta

/-! ## Terms -/

namespace Descent

open Fold

/-! ### A call in parentheses -/

/-- The tags of nodes that stay in parentheses. -/
def staying : List Tag := [.ident, .exprs, .paren]

variable {s : Store} {d : Descent} {id group row : NodeId} {node : Node}
  {args after : List NodeId} {take : Nat → Fold (List NodeId × Nat)}

/-- A call with all of its arguments. -/
theorem abreast_call (hd : d.Maintaining s.Extends) (hid : s.Knows id)
    (hpos : 0 < d.env.arity s id) (hargs : d.env.Spans s (d.env.arity s id) args)
    (hknows : ∀ arg ∈ args, s.Knows arg) :
    Abreast s (d.term .argument (fun count => d.terms (args ++ after) .argument count 0) id)
      (do return (← d.terms (id :: args) .head (id :: args).length 0).1)
      fun r ids => ids = [r.1] ∧ r.2 = args.length := by
  have hterm : Abreast s
      (d.term .argument (fun count => d.terms (args ++ after) .argument count 0) id)
      (d.term .head (fun count => d.terms args .argument count 0) id)
      (Alongside fun n n' => n = args.length ∧ n' = args.length) := by
    refine abreast_term hd hid (.inr hpos) (fun hzero => absurd hzero (Nat.ne_of_gt hpos))
      fun count hcount => ?_
    obtain rfl := hcount.resolve_right nofun
    refine (abreast_spans hd hargs (Nat.le_refl _) hknows).imp fun r r' hr => ?_
    obtain ⟨-, hsame, hn, hle, hr⟩ := hr
    rw [Nat.sub_self] at hr
    have hall : args.length ≤ r.2 := List.drop_eq_nil_iff.1 hr.eq_nil
    have hcount : r.2 = args.length := Nat.le_antisymm hle hall
    exact ⟨hsame, hcount, hn ▸ hcount⟩
  rw [List.length_cons, terms, bind_assoc, ← bind_pure (d.term .argument _ id)]
  refine hterm.bind ?_
  rintro ⟨only, taken⟩ ⟨_, _⟩ ⟨rfl, rfl, rfl⟩
  dsimp only
  rw [terms_skip, List.drop_length]
  exact .pure ⟨rfl, rfl⟩

/-- The parentheses around a call make no difference if its result needs none. -/
theorem abreast_group (hd : d.Maintaining s.Extends) (hid : s.Knows id)
    (hpos : 0 < d.env.arity s id) (hargs : d.env.Spans s (d.env.arity s id) args)
    (hknows : ∀ arg ∈ args, s.Knows arg) (hgroup : s.node? group = some (.branch .paren [row]))
    (hrow : s.node? row = some (.branch .exprs (id :: args)))
    (hbelow : ∀ ids, Fold.Prolongs (fun error => ¬ error.IsRunaway)
      (do return (← d.terms ids .head ids.length 0).1) (d.below ids))
    (hbare : ∀ t only u, s.Extends t → Gives t (d.below (id :: args)) [only] u →
      ∃ tag, u.tag? only = some tag ∧ tag ∉ staying) :
    Abreast s (d.term .argument (fun count => d.terms (args ++ after) .argument count 0) id)
      (d.term .argument take group) (Alongside fun n n' => n = args.length ∧ n' = 0) := by
  have hcall : Abreast s
      (d.term .argument (fun count => d.terms (args ++ after) .argument count 0) id)
      (d.below (id :: args)) fun r ids => ids = [r.1] ∧ r.2 = args.length :=
    (abreast_call hd hid hpos hargs hknows).of_prolongs (hbelow _)
  generalize d.term .argument _ id = call at hcall ⊢
  intro t ht
  unfold term
  refine .get ?_
  rw [ht.node?_of_some hgroup]
  dsimp only
  by_cases hbefore : d.bound ≤ group.index
  · rw [if_pos hbefore]
    exact .unordered fun h => h
  · rw [if_neg hbefore]
    show SameEnd s _ _ ((d.paren .argument take group (.branch .paren [row])).run.run t)
    have hchild : (Node.branch .paren [row]).child 0 = row := rfl
    have htag : (Node.branch .exprs (id :: args)).tag = .exprs := rfl
    unfold paren
    refine .get ?_
    rw [hchild, ht.node?_of_some hrow]
    dsimp only
    rw [if_pos htag, Node.children_branch]
    refine hcall.finish ?_ t ht
    rintro t ⟨only, taken⟩ _ u ht hbelow ⟨rfl, hall⟩
    obtain ⟨tag, htag, hstays⟩ := hbare t only u ht hbelow
    refine ⟨(only, 0), (gives_get u).bind ?_, rfl, hall, rfl⟩
    dsimp only
    rw [htag]
    split
    · exact gives_pure u _
    iterate 3
      · rename_i hsame
        cases hsame
        exact absurd (by decide) hstays
    · rename_i hsame
      cases hsame
    · exact gives_pure u _

/-! ### What calls come to -/

section

variable {t u : Store} {only : NodeId} {word : Word} {number : Nat}

/-- Complete arguments are all taken. -/
theorem all_taken {arguments : List NodeId} {count taken : Nat} (hd : d.Maintaining s.Extends)
    (hargs : d.env.Spans s count args) (hknows : ∀ arg ∈ args, s.Knows arg) (he : s.Extends t)
    (h : Gives t (d.terms args .argument count 0) (arguments, taken) u) :
    arguments.length = count ∧ args.drop taken = [] := by
  have hspans : SameEnd s _ ((d.terms (args ++ []) .argument count 0).run.run t)
    ((d.terms args .argument count 0).run.run t) :=
      abreast_spans hd hargs (Nat.le_refl _) hknows t he
  rw [List.append_nil, h] at hspans
  cases hspans with
  | given _ hsame =>
    obtain ⟨hlength, -, -, -, hdone⟩ := hsame
    dsimp only at hlength hdone
    rw [Nat.sub_self] at hdone
    exact ⟨hlength, hdone.eq_nil⟩

/-- The only result of a row is what the name in front of it comes to. -/
theorem exists_ident_of_row (hn : t.node? id = some node) (ht : node.tag = .ident)
    (h : Gives t (do return (← d.terms (id :: args) .head (id :: args).length 0).1) [only] u) :
    ∃ taken v more,
      Gives t (d.ident .head (fun count => d.terms args .argument count 0) id node)
        (only, taken) v ∧
      Gives v (d.terms (args.drop taken) .head args.length 0) ([], more) u := by
  obtain ⟨⟨results, all⟩, _, hterms, hpure⟩ := h.of_bind
  cases hpure
  rw [List.length_cons, terms] at hterms
  obtain ⟨⟨first, taken⟩, v, hterm, hrest⟩ := hterms.of_bind
  obtain ⟨⟨others, more⟩, _, hothers, hpure⟩ := hrest.of_bind
  cases hpure
  unfold term at hterm
  obtain ⟨_, _, hget, hterm⟩ := hterm.of_bind
  cases hget
  rw [hn] at hterm
  dsimp only at hterm
  split at hterm
  · cases hterm
  · rw [ht] at hterm
    rw [terms_skip] at hothers
    exact ⟨taken, v, more, hterm, hothers⟩

/-- An operation comes to a scalar or to a node with its tag. -/
theorem exists_tag_of_operation {origin : NodeId} {tag : Tag} {operands : List NodeId}
    (h : Gives t (operation origin tag operands) only u) :
    ∃ result, u.tag? only = some result ∧ (result = tag ∨ result.role = .scalar) := by
  unfold operation at h
  obtain ⟨_, _, hget, h⟩ := h.of_bind
  cases hget
  split at h
  · rename_i result hc
    cases h
    exact ⟨_, Store.tag?_of_node? (t.node?_intern _ _), .inr (scalar_of_computed? hc)⟩
  · cases h
    exact ⟨tag, Store.tag?_of_node? (t.node?_intern _ _), .inl rfl⟩

/-- A call of a builtin function with all of its arguments comes to an operation. -/
theorem exists_tag_of_builtin {arity : Nat} {tag : Tag} (hd : d.Maintaining s.Extends)
    (hn : s.node? id = some node) (ht : node.tag = .ident)
    (hfind : d.env.find? (node.text?.getD "") = some (word, number))
    (hkind : word.kind = .builtin tag arity) (hargs : d.env.Spans s arity args)
    (hknows : ∀ arg ∈ args, s.Knows arg) (he : s.Extends t)
    (h : Gives t (do return (← d.terms (id :: args) .head (id :: args).length 0).1) [only] u) :
    ∃ result, u.tag? only = some result ∧ (result = tag ∨ result.role = .scalar) := by
  obtain ⟨taken, v, more, hident, hrest⟩ := exists_ident_of_row (he.node?_of_some hn) ht h
  unfold ident at hident
  dsimp only at hident
  rw [hfind] at hident
  obtain ⟨title, kind, offset⟩ := word
  obtain rfl : kind = .builtin tag arity := hkind
  obtain ⟨⟨arguments, taken⟩, w, htake, hident⟩ := hident.of_bind
  obtain ⟨result, x, hbuiltin, hpure⟩ := hident.of_bind
  cases hpure
  obtain ⟨hlength, hnone⟩ := all_taken hd hargs hknows he htake
  rw [hnone] at hrest
  cases hrest
  subst hlength
  unfold builtin at hbuiltin
  rw [Nat.sub_self] at hbuiltin
  obtain ⟨_, _, hidents, hoperation⟩ := hbuiltin.of_bind
  cases hidents
  obtain ⟨_, _, hoperation, hpure⟩ := hoperation.of_bind
  cases hpure
  exact exists_tag_of_operation hoperation

/-- A call of a function with all of its arguments comes to the body of the function, with as many
arguments as there are parameters. -/
theorem exists_inside_of_function {params : List String} {body : NodeId} {scope : Nat}
    (hd : d.Maintaining s.Extends) (hn : s.node? id = some node) (ht : node.tag = .ident)
    (hfind : d.env.find? (node.text?.getD "") = some (word, number))
    (hkind : word.kind = .function params body scope) (hargs : d.env.Spans s params.length args)
    (hknows : ∀ arg ∈ args, s.Knows arg) (he : s.Extends t)
    (h : Gives t (do return (← d.terms (id :: args) .head (id :: args).length 0).1) [only] u) :
    ∃ arguments v folded, arguments.length = params.length ∧ s.Extends v ∧
      Gives v (d.inside (node.text?.getD "") (some scope) (bindParams 0 params arguments) body)
        folded u ∧ u.unwrap folded = only := by
  obtain ⟨taken, v, more, hident, hrest⟩ := exists_ident_of_row (he.node?_of_some hn) ht h
  unfold ident at hident
  dsimp only at hident
  rw [hfind] at hident
  obtain ⟨title, kind, offset⟩ := word
  obtain rfl : kind = .function params body scope := hkind
  obtain ⟨⟨arguments, taken⟩, w, htake, hident⟩ := hident.of_bind
  obtain ⟨result, x, hexpand, hpure⟩ := hident.of_bind
  cases hpure
  obtain ⟨hlength, hnone⟩ := all_taken hd hargs hknows he htake
  rw [hnone] at hrest
  cases hrest
  have hw : s.Extends ((d.terms args .argument params.length 0).run.run t).2 :=
    maintains_terms hd args .argument params.length 0 t he
  rw [htake] at hw
  unfold expand at hexpand
  obtain ⟨folded, y, hinside, hexpand⟩ := hexpand.of_bind
  obtain ⟨_, _, hget, hexpand⟩ := hexpand.of_bind
  cases hget
  rw [hlength, List.drop_length] at hexpand
  cases hexpand
  exact ⟨arguments, w, folded, hlength, hw, hinside, rfl⟩

end

/-! ### Terms around it -/

/-- Two rows of terms with a call and a group in the same place, if these come to stand among the
arguments of a function, or two rows that are the same. -/
inductive Facing (env : Environment) (s : Store) (call : List NodeId) (group : NodeId)
    (after : List NodeId) : (most : Nat) → List NodeId → List NodeId → Prop
  | behind (most : Nat) (ids : List NodeId) : Facing env s call group after most ids ids
  | before {most : Nat} {ids : List NodeId} (howed : 0 < env.owed s most ids)
      (hids : ∀ id ∈ ids, s.Knows id) :
      Facing env s call group after most (ids ++ (call ++ after)) (ids ++ group :: after)

/-- Rows in which a call and a group come to the same. -/
theorem abreast_facing (hd : d.Maintaining s.Extends)
    (hgroup : Abreast s
      (d.term .argument (fun count => d.terms (args ++ after) .argument count 0) id)
      (d.term .argument (fun count => d.terms after .argument count 0) group)
      (Alongside fun n n' => n = args.length ∧ n' = 0))
    {most : Nat} {ids ids' : List NodeId}
    (h : Facing d.env s (id :: args) group after most ids ids')
    (hstand : stand = .head → most = 0) (count : Nat) :
    Abreast s (d.terms ids stand count 0) (d.terms ids' stand count 0) (Alongside fun n n' =>
      Facing d.env s (id :: args) group after (most - count) (ids.drop n) (ids'.drop n')) := by
  -- a lambda at the head takes terms that are not counted, so there nothing is owed before it
  induction hlength : ids.length using Nat.strongRecOn generalizing ids ids' most stand count with
  | ind length ih =>
    cases h with
    | behind => exact .same (maintains_terms hd ids stand count 0) fun r => ⟨rfl, .behind _ _⟩
    | @before before howed hids =>
      cases count with
      | zero =>
        rw [terms_none, terms_none]
        exact .pure ⟨rfl, .before howed hids⟩
      | succ count =>
        cases before with
        | nil =>
          obtain rfl : stand = .argument := by
            cases stand with
            | argument => rfl
            | head => exact absurd (hstand rfl) (Nat.ne_of_gt howed)
          rw [List.nil_append, List.nil_append, List.cons_append, terms, terms]
          refine hgroup.bind ?_
          rintro ⟨folded, taken⟩ ⟨_, _⟩ ⟨rfl, rfl, rfl⟩
          dsimp only
          rw [terms_skip, List.drop_left]
          refine (Abreast.same (maintains_terms hd after .argument count 0) (fun _ => rfl)).bind ?_
          rintro ⟨others, more⟩ _ rfl
          refine .pure ⟨rfl, ?_⟩
          dsimp only
          rw [drop_taken, drop_taken, List.drop_left, List.drop_zero]
          exact .behind _ _
        | cons first rest =>
          obtain ⟨hfirst, hrest⟩ := List.forall_mem_cons.1 hids
          have hafter : Facing d.env s (id :: args) group after (most - 1 + d.env.arity s first)
              (rest ++ (id :: args ++ after)) (rest ++ group :: after) := .before howed hrest
          have hlength : (rest ++ (id :: args ++ after)).length + 1 = length := hlength
          show Abreast s (d.terms (first :: (rest ++ (id :: args ++ after))) stand (count + 1) 0)
            (d.terms (first :: (rest ++ group :: after)) stand (count + 1) 0)
            (Alongside fun n n' => Facing d.env s (id :: args) group after (most - (count + 1))
              ((first :: (rest ++ (id :: args ++ after))).drop n)
              ((first :: (rest ++ group :: after)).drop n'))
          generalize rest ++ (id :: args ++ after) = later, rest ++ group :: after = later'
            at hafter hlength ⊢
          rw [terms, terms]
          have hterm : Abreast s (d.term stand (fun count => d.terms later .argument count 0) first)
              (d.term stand (fun count => d.terms later' .argument count 0) first)
              (Alongside fun n n' => Facing d.env s (id :: args) group after (most - 1)
                (later.drop n) (later'.drop n')) := by
            refine abreast_term hd hfirst (.inl rfl) (fun hzero => ?_) fun asked hasked => ?_
            · rw [hzero] at hafter
              exact hafter
            · have hargument : Stand.argument = .head → most - 1 + d.env.arity s first = 0 := nofun
              refine (ih later.length (by omega) hafter hargument asked rfl).imp fun r r' hr => ?_
              obtain ⟨hsame, hfacing⟩ := hr
              refine ⟨hsame, ?_⟩
              rcases hasked with rfl | ⟨hhead, hzero⟩
              · rwa [Nat.add_sub_cancel] at hfacing
              · rw [hzero, hstand hhead, Nat.zero_sub] at hfacing
                rw [hstand hhead]
                exact hfacing
          refine hterm.bind ?_
          rintro ⟨folded, taken⟩ ⟨_, taken'⟩ ⟨rfl, hfacing⟩
          dsimp only
          rw [terms_skip, terms_skip _ later']
          have hmost : stand = .head → most - 1 = 0 := fun hhead => by rw [hstand hhead]
          refine (ih (later.drop taken).length ?_ hfacing hmost count rfl).bind ?_
          · rw [List.length_drop]
            omega
          · rintro ⟨others, more⟩ ⟨_, more'⟩ ⟨rfl, hdone⟩
            refine .pure ⟨rfl, ?_⟩
            dsimp only
            rw [drop_taken, drop_taken]
            rwa [Nat.sub_sub, Nat.add_comm 1] at hdone

/-- Asking for more terms than there are is asking for all of them. -/
theorem terms_ample (d : Descent) {ids : List NodeId} (stand : Stand) {count count' : Nat}
    (skip : Nat) (h : ids.length ≤ count) (h' : ids.length ≤ count') :
    d.terms ids stand count skip = d.terms ids stand count' skip := by
  induction ids generalizing count count' skip with
  | nil => rfl
  | cons id rest ih =>
    rw [List.length_cons] at h h'
    cases skip with
    | succ skip => exact ih skip (by omega) (by omega)
    | zero =>
      obtain ⟨count, rfl⟩ := Nat.exists_eq_add_one.2 (Nat.lt_of_lt_of_le (Nat.succ_pos _) h)
      obtain ⟨count', rfl⟩ := Nat.exists_eq_add_one.2 (Nat.lt_of_lt_of_le (Nat.succ_pos _) h')
      rw [terms, terms]
      refine congrArg _ (funext fun term => ?_)
      obtain ⟨folded, taken⟩ := term
      dsimp only
      rw [ih taken (Nat.le_of_succ_le_succ h) (Nat.le_of_succ_le_succ h')]

end Descent

/-! ## Nodes -/

section

open Fold
open NodeId (UpTo AllUpTo)

variable {s t u : Store} {env : Environment} {id group row : NodeId}
  {args before after : List NodeId}

theorem maintains_foldEntered {P : Store → Prop} (hP : Store.Settles P) (env : Environment)
    (name : String) (parent : Option Nat) (words : List Word) (body : NodeId) :
    Maintains P (foldEntered fold env name parent words body) := by
  unfold foldEntered
  cases env.enter name parent with
  | error cause => exact maintains_throw _
  | ok next => exact maintains_fold hP _ body

theorem keeps_foldEntered {lo n : Nat} (henv : env.UpTo lo) (name : String) (parent : Option Nat)
    {words : List Word} {body : NodeId} (hn : lo ≤ n) (hwords : ∀ word ∈ words, word.kind.UpTo n)
    (hbody : body.UpTo n) : Keeps n (foldEntered fold env name parent words body) UpTo := by
  unfold foldEntered
  cases hnext : env.enter name parent with
  | error cause => exact .throw trivial
  | ok next => exact keeps_fold (((henv.mono hn).enter hnext).addWords hwords) hbody

theorem keeps_row {lo : Nat} (henv : env.UpTo lo) {bound : Nat} (hbound : bound ≤ lo + 1)
    {ids : List NodeId} (hids : ∀ id ∈ ids, id.index < bound) :
    Keeps lo (foldSequence env (foldEntered fold env) bound ids) AllUpTo :=
  keeps_foldSequence henv
    (fun _ name parent _ _ hn hwords hbody => keeps_foldEntered henv name parent hn hwords hbody)
    hbound (Nat.le_refl lo) hids

/-- What becomes of a sequence is what becomes of the row of its terms, as a sequence again. -/
theorem run_fold_exprs (env : Environment) {ids : List NodeId}
    (hn : s.node? id = some (.branch .exprs ids)) :
    (fold env id).run.run s =
      (foldSequence env (foldEntered fold env) id.index ids >>= rebuild id .exprs).run.run s := by
  have hget : ∀ {β : Type} (next : Store → Fold β),
      (MonadState.get >>= next).run.run s = (next s).run.run s := fun _ => rfl
  let d : Descent := ⟨env, id.index + 1, foldSequence env (foldEntered fold env) id.index,
    foldEntered fold env⟩
  rw [fold_eq]
  unfold foldBy
  rw [Store.isAbsent_of_node? hn]
  show (do
    let ids ← (do return (← d.terms [id] .head 1 0).1)
    return ids.headD id : Fold NodeId).run.run s = _
  rw [Descent.terms, Descent.term]
  simp only [bind_assoc]
  refine (hget _).trans ?_
  rw [hn]
  dsimp only
  rw [if_neg (Nat.not_le_of_lt (Nat.lt_succ_self id.index))]
  have htag : (Node.branch .exprs ids).tag = .exprs := rfl
  unfold Descent.single
  rw [htag, Node.children_branch]
  simp only [bind_assoc, pure_bind, Descent.terms, List.headD_cons, bind_pure]
  rfl

/-- How the terms of a sequence are folded, whatever number its nodes come before. -/
theorem exists_descent (s : Store) (env : Environment) (bound : Nat) :
    ∃ d : Descent, d.env = env ∧ d.inside = foldEntered fold env ∧ d.Maintaining s.Extends ∧
      ∀ ids, foldSequence env (foldEntered fold env) bound ids =
        (do return (← d.terms ids .head ids.length 0).1) := by
  have hsettles := settles_extends s
  have hinside := maintains_foldEntered hsettles env
  cases bound with
  | zero => exact ⟨⟨env, 0, fun _ => return [], foldEntered fold env⟩, rfl, rfl,
      ⟨hsettles, fun _ => maintains_pure [], hinside⟩, fun _ => rfl⟩
  | succ bound => exact ⟨⟨env, bound + 1, foldSequence env (foldEntered fold env) bound,
      foldEntered fold env⟩, rfl, rfl,
      ⟨hsettles, maintains_foldSequence hsettles hinside bound, hinside⟩, fun _ => rfl⟩

/-! ### Calls that need no parentheses -/

/-- What a call comes to needs no parentheses: it is neither a name nor a sequence, and does not
stand in parentheses itself. -/
def Environment.Bare (env : Environment) (s : Store) (call : List NodeId) : Prop :=
  ∀ bound t only u, s.Extends t →
    Gives t (foldSequence env (foldEntered fold env) bound call) [only] u →
    ∃ tag, u.tag? only = some tag ∧ tag ∉ Descent.staying

/-- A call with all of its arguments, which needs no parentheses. -/
structure Environment.Whole (env : Environment) (s : Store) (id : NodeId) (args : List NodeId) :
    Prop where
  takes : 0 < env.arity s id
  complete : env.Spans s (env.arity s id) args
  bare : env.Bare s (id :: args)

/-- A complete call among the arguments of a function, with parentheses around it. -/
structure Environment.Groups (env : Environment) (s : Store) (before : List NodeId) (id : NodeId)
    (args : List NodeId) (group : NodeId) : Prop extends env.Whole s id args where
  awaited : 0 < env.owed s 0 before
  encloses : s.Encloses group (id :: args)

section

variable {node : Node} {word : Word} {number : Nat}

/-- A call of a builtin function with all of its arguments. -/
theorem Environment.whole_of_builtin {tag : Tag} {arity : Nat} (hn : s.node? id = some node)
    (ht : node.tag = .ident) (hfind : env.find? (node.text?.getD "") = some (word, number))
    (hkind : word.kind = .builtin tag arity) (htag : tag ∉ Descent.staying) (hpos : 0 < arity)
    (hargs : env.Spans s arity args) (hknows : ∀ arg ∈ args, s.Knows arg) :
    env.Whole s id args := by
  have harity : env.arity s id = arity := by
    rw [arity_of_word hn ht hfind, hkind]
    rfl
  refine ⟨harity ▸ hpos, harity ▸ hargs, ?_⟩
  intro bound t only u he h
  obtain ⟨d, rfl, -, hd, hrow⟩ := exists_descent s env bound
  rw [hrow] at h
  obtain ⟨result, hresult, rfl | hrole⟩ :=
    Descent.exists_tag_of_builtin hd hn ht hfind hkind hargs hknows he h
  · exact ⟨result, hresult, htag⟩
  · refine ⟨result, hresult, fun hm => ?_⟩
    have hstays : ∀ tag ∈ Descent.staying, tag.role ≠ .scalar := by decide
    exact hstays result hm hrole

/-- The row of a call has one result. -/
theorem Environment.Whole.exists_single (h : env.Whole s id args) (hid : s.Knows id)
    (hknows : ∀ arg ∈ args, s.Knows arg) {bound : Nat} {ids : List NodeId} (he : s.Extends t)
    (hgives : Gives t (foldSequence env (foldEntered fold env) bound (id :: args)) ids u) :
    ∃ only, ids = [only] := by
  obtain ⟨d, rfl, -, hd, hrow⟩ := exists_descent s env bound
  rw [hrow] at hgives
  have hcall : SameEnd s _ ((d.term .argument
      (fun count => d.terms (args ++ []) .argument count 0) id).run.run t) _ :=
    Descent.abreast_call hd hid h.takes h.complete hknows t he
  rw [hgives] at hcall
  generalize StateT.run _ t = out at hcall
  cases hcall with
  | given _ hsame => exact ⟨_, hsame.1⟩

theorem gives_fold_of_entered {name : String} {parent : Option Nat} {words : List Word}
    {body folded : NodeId} (h : Gives t (foldEntered fold env name parent words body) folded u) :
    Gives t (fold ((env.push name parent).addWords words) body) folded u := by
  unfold foldEntered Environment.enter at h
  by_cases hfull : env.limit ≤ env.depth
  · rw [if_pos hfull] at h
    cases h
  · rwa [if_neg hfull] at h

theorem unwrap_of_rebuild {origin only folded : NodeId}
    (h : Gives t (rebuild origin .exprs [only]) folded u) :
    t.Extends u ∧ u.unwrap folded = only := by
  have hnode : u.node? folded = some (.branch .exprs [only]) := by
    cases h
    exact t.node?_intern _ _
  have he : t.Extends u := by
    cases h
    exact t.extends_intern _ _
  refine ⟨he, ?_⟩
  unfold Store.unwrap
  rw [hnode]
  rfl

/-- A call of a function with all of its arguments, if the body of the function is such a call. -/
theorem Environment.whole_of_function {params : List String} {body inner : NodeId} {scope : Nat}
    {terms : List NodeId} (hs : s.Grounded) (hn : s.node? id = some node) (ht : node.tag = .ident)
    (hfind : env.find? (node.text?.getD "") = some (word, number))
    (hkind : word.kind = .function params body scope) (hpos : 0 < params.length)
    (hbody : s.node? body = some (.branch .exprs (inner :: terms)))
    (hwhole : ∀ arguments : List NodeId, arguments.length = params.length →
      ((env.push (node.text?.getD "") (some scope)).addWords
        (bindParams 0 params arguments)).Whole s inner terms)
    (hargs : env.Spans s params.length args) (hknows : ∀ arg ∈ args, s.Knows arg) :
    env.Whole s id args := by
  have harity : env.arity s id = params.length := by
    rw [arity_of_word hn ht hfind, hkind]
    rfl
  refine ⟨harity ▸ hpos, harity ▸ hargs, ?_⟩
  intro bound t only u he h
  obtain ⟨d, rfl, hinside, hd, hrow⟩ := exists_descent s env bound
  rw [hrow] at h
  obtain ⟨arguments, v, folded, hlength, hv, hfolded, hunwrap⟩ :=
    Descent.exists_inside_of_function hd hn ht hfind hkind hargs hknows he h
  have hinner := hwhole arguments hlength
  rw [hinside] at hfolded
  replace hfolded := gives_fold_of_entered hfolded
  unfold Gives at hfolded
  rw [run_fold_exprs _ (hv.node?_of_some hbody)] at hfolded
  obtain ⟨ids, w, hids, hrebuild⟩ := Gives.of_bind hfolded
  have hterms : ∀ term ∈ inner :: terms, s.Knows term := fun term hm =>
    hs.knows_of_mem hbody (by rwa [Node.children_branch])
  obtain ⟨hfirst, hothers⟩ := List.forall_mem_cons.1 hterms
  obtain ⟨single, rfl⟩ := hinner.exists_single hfirst hothers hv hids
  obtain ⟨tag, htag, hstays⟩ := hinner.bare _ v single w hv hids
  obtain ⟨hw, hsingle⟩ := unwrap_of_rebuild hrebuild
  obtain rfl : single = only := hsingle.symm.trans hunwrap
  exact ⟨tag, hw.tag?_of_some htag, hstays⟩

end

/-- Rows of terms with a call and with the same call in parentheses. -/
theorem abreast_rows (h : env.Groups s before id args group)
    (hbefore : ∀ term ∈ before, s.Knows term) (hid : s.Knows id) (hargs : ∀ arg ∈ args, s.Knows arg)
    (after : List NodeId) (bound : Nat) :
    Abreast s
      (foldSequence env (foldEntered fold env) (bound + 1) (before ++ (id :: args ++ after)))
      (foldSequence env (foldEntered fold env) (bound + 1) (before ++ group :: after)) Eq := by
  obtain ⟨row, hgroup, hrow⟩ := h.encloses
  let d : Descent :=
    ⟨env, bound + 1, foldSequence env (foldEntered fold env) bound, foldEntered fold env⟩
  have hsettles := settles_extends s
  have hinside := maintains_foldEntered hsettles env
  have hd : d.Maintaining s.Extends :=
    ⟨hsettles, maintains_foldSequence hsettles hinside bound, hinside⟩
  have hbelow : ∀ ids, (foldSequence env (foldEntered fold env) (bound + 1) ids).Prolongs
      (fun error => ¬ error.IsRunaway) (foldSequence env (foldEntered fold env) bound ids) :=
    prolongs_bound (fun _ hruns => hruns) (foldEntered fold env) bound 1
  have hshorter : (before ++ group :: after).length ≤
      (before ++ (id :: args ++ after)).length := by
    simp only [List.length_append, List.length_cons]
    omega
  have hcall : Abreast s
      (d.term .argument (fun count => d.terms (args ++ after) .argument count 0) id)
      (d.term .argument (fun count => d.terms after .argument count 0) group)
      (Descent.Alongside fun n n' => n = args.length ∧ n' = 0) :=
    Descent.abreast_group hd hid h.takes h.complete hargs hgroup hrow hbelow (h.bare bound)
  have hhead : Stand.head = .head → 0 = 0 := fun _ => rfl
  have hterms := Descent.abreast_facing hd hcall (.before h.awaited hbefore) hhead
    (before ++ (id :: args ++ after)).length
  rw [Descent.terms_ample d .head 0 hshorter (Nat.le_refl _)] at hterms
  unfold foldSequence
  refine hterms.bind ?_
  rintro ⟨results, taken⟩ ⟨_, taken'⟩ ⟨rfl, -⟩
  exact .pure rfl

/-- In a grounded store, any bound on the terms of a sequence does. -/
theorem run_foldSequence_bound (hs : s.Grounded) (henv : env.UpTo s.size) {bound : Nat}
    {ids : List NodeId} (hbound : bound ≤ s.size + 1) (hids : ∀ id ∈ ids, id.index < bound)
    (more : Nat) :
    (foldSequence env (foldEntered fold env) (bound + more) ids).run.run s =
      (foldSequence env (foldEntered fold env) bound ids).run.run s := by
  have hprolongs : (foldSequence env (foldEntered fold env) (bound + more) ids).Prolongs
      (fun error => ¬ error.IsRunaway) (foldSequence env (foldEntered fold env) bound ids) :=
    prolongs_bound (fun _ hruns => hruns) (foldEntered fold env) bound more ids
  rcases hprolongs s with ⟨error, t, hnot, hrun⟩ | hsame
  · have hkeeps := keeps_row henv hbound hids s hs (Nat.le_refl s.size)
    rw [hrun] at hkeeps
    exact absurd hkeeps.2.2 hnot
  · exact hsame

/-- Parentheses around a complete call among the arguments of a function make no difference to the
row of terms in which it stands. Either both rows are refused, in the same way, or they are folded
to the same program. -/
theorem fold_grouped {plain grouped : NodeId} (hs : s.Grounded) (henv : env.UpTo s.size)
    (h : env.Groups s before id args group)
    (hplain : s.node? plain = some (.branch .exprs (before ++ (id :: args ++ after))))
    (hgrouped : s.node? grouped = some (.branch .exprs (before ++ group :: after))) :
    (∃ error t, (fold env plain).run.run s = (.error error, t) ∧
      (fold env grouped).run.run s = (.error error, t)) ∨
    ∃ folded t folded' t', Gives s (fold env plain) folded t ∧
      Gives s (fold env grouped) folded' t' ∧ t.tree? folded = t'.tree? folded' ∧
      (t.snapshot folded).SameResults (t'.snapshot folded') := by
  have hchild : ∀ term ∈ before ++ (id :: args ++ after), term.index < plain.index := by
    intro term hm
    exact hs plain _ hplain term (by rwa [Node.children_branch])
  have hchild' : ∀ term ∈ before ++ group :: after, term.index < grouped.index := by
    intro term hm
    exact hs grouped _ hgrouped term (by rwa [Node.children_branch])
  have hknown : s.Knows plain := Store.knows_of_node? hplain
  have hknown' : s.Knows grouped := Store.knows_of_node? hgrouped
  have hknows : ∀ term ∈ before ++ (id :: args ++ after), s.Knows term := fun term hm =>
    Nat.le_of_lt (Nat.lt_of_lt_of_le (hchild term hm) hknown)
  have hbefore : ∀ term ∈ before, s.Knows term :=
    fun term hm => hknows term (List.mem_append_left _ hm)
  have hcall : ∀ term ∈ id :: args, s.Knows term :=
    fun term hm => hknows term (List.mem_append_right _ (List.mem_append_left _ hm))
  obtain ⟨hid, hargs⟩ := List.forall_mem_cons.1 hcall
  -- both rows are folded as if their terms came before the same number
  have hend := abreast_rows h hbefore hid hargs after (plain.index + grouped.index) s (.refl s)
  rw [Nat.add_assoc, run_foldSequence_bound hs henv (Nat.le_succ_of_le hknown) hchild,
    Nat.add_left_comm, run_foldSequence_bound hs henv (Nat.le_succ_of_le hknown') hchild'] at hend
  have hkeeps := keeps_row henv (Nat.le_succ_of_le hknown') hchild' s hs (Nat.le_refl s.size)
  have hrun := run_fold_exprs env hplain
  have hrun' := run_fold_exprs env hgrouped
  rw [run_bind] at hrun hrun'
  generalize (foldSequence env (foldEntered fold env) plain.index _).run.run s = out at hend hrun
  generalize (foldSequence env (foldEntered fold env) grouped.index _).run.run s = out'
    at hend hkeeps hrun'
  cases hend with
  | unordered hways => exact absurd hkeeps.2.2 hways
  | failed error u => exact .inl ⟨error, u, hrun, hrun'⟩
  | @given ids ids' u he hsame =>
    subst hsame
    obtain ⟨hu, -, hids⟩ := hkeeps
    have hchildren : ∀ child ∈ (Node.branch .exprs ids).children, u.Knows child := by
      rw [Node.children_branch]
      exact hids
    have htree := hu.tree?_intern _ (u.coord? plain) hchildren
    have htree' := hu.tree?_intern _ (u.coord? grouped) hchildren
    exact .inr ⟨_, _, _, _, hrun, hrun', htree.trans htree'.symm,
      Store.sameResults (hu.intern hchildren) (hu.intern hchildren) htree htree'⟩

end

/-! ### A product in a sum -/

namespace SumOfProduct

open Fold

/-- The nodes of `add 1 mul 2 3` and of `add 1 (mul 2 3)`. -/
def nodes : List Node :=
  [.leaf .ident "add", .leaf .num "1", .leaf .ident "mul", .leaf .num "2", .leaf .num "3",
    .branch .exprs [⟨3⟩, ⟨4⟩, ⟨5⟩], .branch .paren [⟨6⟩],
    .branch .exprs [⟨1⟩, ⟨2⟩, ⟨3⟩, ⟨4⟩, ⟨5⟩], .branch .exprs [⟨1⟩, ⟨2⟩, ⟨7⟩]]

def store : Store := .ofNodes nodes

def env : Environment := .ofLexicon .standard Runaway.defaultLimit

theorem nodes_store : store.nodes = nodes := Store.nodes_ofNodes (by decide)

theorem node?_store (i : Nat) : store.node? ⟨i + 1⟩ = nodes[i]? :=
  Store.node?_of_nodes nodes_store i

theorem grounded_store : store.Grounded := Store.grounded_of_nodes nodes_store (by decide)

theorem knows_store {i : Nat} {node : Node} (h : nodes[i]? = some node) : store.Knows ⟨i + 1⟩ :=
  Store.knows_of_node? ((node?_store i).trans h)

theorem upTo_env : env.UpTo store.size :=
  (Parser.sound_start .standard Runaway.defaultLimit).env.mono (Nat.zero_le _)

theorem spans_factors : env.Spans store 2 [⟨4⟩, ⟨5⟩] := by
  have hfirst : env.arity store ⟨4⟩ = 0 := Environment.arity_of_ne (node?_store 3) nofun
  have hsecond : env.arity store ⟨5⟩ = 0 := Environment.arity_of_ne (node?_store 4) nofun
  unfold Environment.Spans
  rw [hfirst]
  unfold Environment.Spans
  rw [hsecond]
  rfl

theorem groups_store : env.Groups store [⟨1⟩, ⟨2⟩] ⟨3⟩ [⟨4⟩, ⟨5⟩] ⟨7⟩ := by
  have hadd : env.arity store ⟨1⟩ = 2 := Environment.arity_of_ident (node?_store 0) rfl
  have hone : env.arity store ⟨2⟩ = 0 := Environment.arity_of_ne (node?_store 1) nofun
  have hfactors : ∀ id ∈ [(⟨4⟩ : NodeId), ⟨5⟩], store.Knows id :=
    List.forall_mem_cons.2 ⟨knows_store (i := 3) rfl,
      List.forall_mem_singleton.2 (knows_store (i := 4) rfl)⟩
  have hwhole : env.Whole store ⟨3⟩ [⟨4⟩, ⟨5⟩] :=
    Environment.whole_of_builtin (node?_store 2) rfl rfl rfl (by decide) (by decide) spans_factors
      hfactors
  refine ⟨hwhole, ?_, ⟨⟨6⟩, node?_store 6, node?_store 5⟩⟩
  unfold Environment.owed Environment.owed Environment.owed
  rw [hadd, hone]
  exact Nat.succ_pos 0

theorem fold_grouped_product :
    store.Grounded ∧ env.UpTo store.size ∧
      env.Groups store [⟨1⟩, ⟨2⟩] ⟨3⟩ [⟨4⟩, ⟨5⟩] ⟨7⟩ ∧
      store.node? ⟨8⟩ = some (.branch .exprs ([⟨1⟩, ⟨2⟩] ++ ([⟨3⟩, ⟨4⟩, ⟨5⟩] ++ []))) ∧
      store.node? ⟨9⟩ = some (.branch .exprs ([⟨1⟩, ⟨2⟩] ++ [⟨7⟩])) ∧
      ((∃ error t, (fold env ⟨8⟩).run.run store = (.error error, t) ∧
        (fold env ⟨9⟩).run.run store = (.error error, t)) ∨
      ∃ folded t folded' t', Gives store (fold env ⟨8⟩) folded t ∧
        Gives store (fold env ⟨9⟩) folded' t' ∧ t.tree? folded = t'.tree? folded' ∧
        (t.snapshot folded).SameResults (t'.snapshot folded')) :=
  ⟨grounded_store, upTo_env, groups_store, node?_store 7, node?_store 8,
    fold_grouped grounded_store (upTo_env) groups_store (node?_store 7) (node?_store 8)⟩

end SumOfProduct

/-! ### A function in its own body -/

namespace PendingCall

open Fold

/-- The nodes of `add 1 f 2` and of `add 1 (f 2)`. -/
def nodes : List Node :=
  [.leaf .ident "add", .leaf .num "1", .leaf .ident "f", .leaf .num "2",
    .branch .exprs [⟨3⟩, ⟨4⟩], .branch .paren [⟨5⟩], .branch .exprs [⟨1⟩, ⟨2⟩, ⟨3⟩, ⟨4⟩],
    .branch .exprs [⟨1⟩, ⟨2⟩, ⟨6⟩]]

def store : Store := .ofNodes nodes

/-- The scopes while `f` is defined. -/
def env : Environment :=
  (Environment.ofLexicon .standard Runaway.defaultLimit).addWord (.pending "f")

theorem nodes_store : store.nodes = nodes := Store.nodes_ofNodes (by decide)

theorem node?_store (i : Nat) : store.node? ⟨i + 1⟩ = nodes[i]? :=
  Store.node?_of_nodes nodes_store i

theorem grounded_store : store.Grounded := Store.grounded_of_nodes nodes_store (by decide)

theorem find?_env : env.find? "f" = some (.pending "f", 0) := rfl

/-- How the terms of a sequence are folded there. -/
def descent (bound : Nat) : Descent :=
  ⟨env, bound + 1, foldSequence env (foldEntered fold env) bound, foldEntered fold env⟩

variable {s : Store} {bound : Nat} {stand : Stand} {take : Nat → Fold (List NodeId × Nat)}

theorem gives_number {id : NodeId} {text : String} (hn : s.node? id = some (.leaf .num text))
    (hle : id.index ≤ bound) : Gives s ((descent bound).term stand take id) (id, 0) s :=
  Descent.gives_term_single hn (Nat.lt_succ_of_le hle) ⟨nofun, nofun, nofun⟩ (gives_pure s id)

/-- The name takes no terms. -/
theorem gives_pending (hle : 3 ≤ bound) :
    Gives store ((descent bound).term stand take ⟨3⟩) (⟨3⟩, 0) store := by
  refine Descent.gives_name (node?_store 2) (Nat.lt_succ_of_le hle) ?_
  rintro ⟨word, number, hfind, hkind, -⟩
  cases find?_env.symm.trans hfind
  exact hkind rfl

/-- So its call stays in parentheses. -/
theorem gives_group : Gives store ((descent 7).term stand take ⟨6⟩) (⟨6⟩, 0) store := by
  have hnumber : Gives store ((descent 6).term .head
      (fun count => (descent 6).terms [] .argument count 0) ⟨4⟩) (⟨4⟩, 0) store :=
    gives_number (node?_store 3) (by decide)
  have hterms : Gives store ((descent 6).terms [⟨3⟩, ⟨4⟩] .head 2 0) ([⟨3⟩, ⟨4⟩], 2) store :=
    Descent.gives_terms_cons (gives_pending (by decide))
      (Descent.gives_terms_cons hnumber (gives_pure store ([], 0)))
  have hbelow : Gives store ((descent 7).below [⟨3⟩, ⟨4⟩]) [⟨3⟩, ⟨4⟩] store :=
    hterms.bind (gives_pure store _)
  have hrow : Gives store (rebuild ⟨5⟩ .exprs [⟨3⟩, ⟨4⟩]) ⟨5⟩ store :=
    gives_rebuild_stored (node?_store 4) ⟨5⟩
  have hgroup : Gives store (rebuild ⟨6⟩ .paren [⟨5⟩]) ⟨6⟩ store :=
    gives_rebuild_stored (node?_store 5) ⟨6⟩
  have hchild : (Node.branch .paren [⟨5⟩]).child 0 = ⟨5⟩ := rfl
  unfold Descent.term
  refine (gives_get store).bind ?_
  rw [node?_store 5]
  show Gives store ((descent 7).paren stand take ⟨6⟩ (.branch .paren [⟨5⟩])) (⟨6⟩, 0) store
  unfold Descent.paren
  refine (gives_get store).bind ?_
  rw [hchild, node?_store 4]
  exact hbelow.bind ((gives_get store).bind (hrow.bind (hgroup.bind (gives_pure store _))))

/-- A sum of the number and of another node, which is no number. -/
theorem exists_sum {other : NodeId} (hother : store.literalNumber? other = none)
    (hknows : store.Knows other) (hfresh : Node.branch .add [⟨2⟩, other] ∉ nodes) :
    ∃ t, t.Grounded ∧ store.Extends t ∧ t.Knows ⟨9⟩ ∧ ∀ bound take taken, 1 ≤ bound →
      Gives store (take 2) ([⟨2⟩, other], taken) store →
        Gives store ((descent bound).term .head take ⟨1⟩) (⟨9⟩, taken) t := by
  have hnone : store.computed? .add [⟨2⟩, other] = none := by
    unfold Store.computed?
    dsimp only
    rw [hother]
    cases store.literalNumber? ⟨2⟩ <;> rfl
  have hchildren : ∀ child ∈ (Node.branch .add [⟨2⟩, other]).children, store.Knows child := by
    rw [Node.children_branch]
    exact List.forall_mem_cons.2
      ⟨Store.knows_of_node? (node?_store 1), List.forall_mem_singleton.2 hknows⟩
  obtain ⟨t, hintern, -⟩ := Store.intern_next nodes_store hfresh (store.coord? ⟨1⟩)
  have hgrounded : (store.intern (.branch .add [⟨2⟩, other]) (store.coord? ⟨1⟩)).2.Grounded :=
    grounded_store.intern hchildren
  have hextends := store.extends_intern (.branch .add [⟨2⟩, other]) (store.coord? ⟨1⟩)
  have hknown := store.knows_intern (.branch .add [⟨2⟩, other]) (store.coord? ⟨1⟩)
  have hoperation := gives_operation_of_none hnone ⟨1⟩
  rw [hintern] at hgrounded hextends hknown hoperation
  have hbuiltin : Gives store (builtin ⟨1⟩ .add 2 [⟨2⟩, other]) ⟨9⟩ t :=
    (gives_pure store _).bind (hoperation.bind (gives_pure t _))
  refine ⟨t, hgrounded, hextends, hknown, fun bound take taken hle htake => ?_⟩
  unfold Descent.term
  refine (gives_get store).bind ?_
  rw [node?_store 0]
  show Gives store (if bound + 1 ≤ 1 then _ else _) _ t
  rw [if_neg (Nat.not_le_of_lt (Nat.lt_succ_of_le hle))]
  exact htake.bind (hbuiltin.bind (gives_pure t _))

theorem exists_row {row : NodeId} {ids results : List NodeId} {t : Store} (ht : t.Grounded)
    (hrow : store.node? row = some (.branch .exprs ids)) (hresults : ∀ id ∈ results, t.Knows id)
    (h : Gives store (foldSequence env (foldEntered fold env) row.index ids) results t) :
    ∃ folded u, Gives store (fold env row) folded u ∧
      u.tree? folded = some (.node .exprs ((results.map .node).map t.part)) := by
  have hchildren : ∀ child ∈ (Node.branch .exprs results).children, t.Knows child := by
    rw [Node.children_branch]
    exact hresults
  refine ⟨_, _, ?_, ht.tree?_intern (.branch .exprs results) (t.coord? row) hchildren⟩
  unfold Gives
  rw [run_fold_exprs env hrow]
  exact h.bind (gives_rebuild t row .exprs results)

/-- While a function is defined, its name takes no terms, so parentheses do make a difference. -/
theorem fold_ne_grouped :
    env.find? "f" = some (.pending "f", 0) ∧ store.Encloses ⟨6⟩ [⟨3⟩, ⟨4⟩] ∧
      store.node? ⟨7⟩ = some (.branch .exprs ([⟨1⟩, ⟨2⟩] ++ ([⟨3⟩, ⟨4⟩] ++ []))) ∧
      store.node? ⟨8⟩ = some (.branch .exprs ([⟨1⟩, ⟨2⟩] ++ [⟨6⟩])) ∧
      ∃ folded t folded' t', Gives store (fold env ⟨7⟩) folded t ∧
        Gives store (fold env ⟨8⟩) folded' t' ∧ t.tree? folded ≠ t'.tree? folded' := by
  have hname : store.literalNumber? ⟨3⟩ = none := by
    unfold Store.literalNumber?
    rw [node?_store 2]
    rfl
  have hgroup : store.literalNumber? ⟨6⟩ = none := by
    unfold Store.literalNumber?
    rw [node?_store 5]
    rfl
  obtain ⟨t, ht, he, hsum, hplain⟩ :=
    exists_sum hname (Store.knows_of_node? (node?_store 2)) (by decide)
  obtain ⟨t', ht', -, hsum', hgrouped⟩ :=
    exists_sum hgroup (Store.knows_of_node? (node?_store 5)) (by decide)
  -- the name alone is the second operand, and the number after it a term of its own
  have hone : ∀ take, Gives store ((descent 6).term .argument take ⟨2⟩) (⟨2⟩, 0) store :=
    fun _ => gives_number (node?_store 1) (by decide)
  have hpending : ∀ take, Gives store ((descent 6).term .argument take ⟨3⟩) (⟨3⟩, 0) store :=
    fun _ => gives_pending (by decide)
  have htwo : ∀ take, Gives t ((descent 6).term .head take ⟨4⟩) (⟨4⟩, 0) t :=
    fun _ => gives_number (he.node?_of_some (node?_store 3)) (by decide)
  have hfull : Gives store ((descent 6).terms [⟨4⟩] .argument 0 0) ([], 0) store :=
    gives_pure store _
  have hend : Gives t ((descent 6).terms [] .head 2 0) ([], 0) t := gives_pure t _
  have harguments := Descent.gives_terms_cons (hone _)
    (Descent.gives_terms_cons (hpending _) hfull)
  have hrest : Gives t ((descent 6).terms [⟨2⟩, ⟨3⟩, ⟨4⟩] .head 3 2) ([⟨4⟩], 1) t :=
    Descent.gives_terms_cons (htwo _) hend
  have hrow : Gives store (foldSequence env (foldEntered fold env) 7 [⟨1⟩, ⟨2⟩, ⟨3⟩, ⟨4⟩])
      [⟨9⟩, ⟨4⟩] t :=
    (Descent.gives_terms_cons (hplain 6 _ _ (by decide) harguments) hrest).bind (gives_pure t _)
  -- the group is the second operand
  have hone' : ∀ take, Gives store ((descent 7).term .argument take ⟨2⟩) (⟨2⟩, 0) store :=
    fun _ => gives_number (node?_store 1) (by decide)
  have hfull' : Gives store ((descent 7).terms [] .argument 0 0) ([], 0) store :=
    gives_pure store _
  have harguments' := Descent.gives_terms_cons (hone' _)
    (Descent.gives_terms_cons gives_group hfull')
  have hend' : Gives t' ((descent 7).terms [⟨2⟩, ⟨6⟩] .head 2 2) ([], 0) t' := gives_pure t' _
  have hrow' : Gives store (foldSequence env (foldEntered fold env) 8 [⟨1⟩, ⟨2⟩, ⟨6⟩]) [⟨9⟩] t' :=
    (Descent.gives_terms_cons (hgrouped 7 _ _ (by decide) harguments') hend').bind
      (gives_pure t' _)
  have hlast : t.Knows ⟨4⟩ := he.knows (Store.knows_of_node? (node?_store 3))
  obtain ⟨folded, u, hfolded, htree⟩ := exists_row ht (node?_store 6)
    (List.forall_mem_cons.2 ⟨hsum, List.forall_mem_singleton.2 hlast⟩) hrow
  obtain ⟨folded', u', hfolded', htree'⟩ := exists_row ht' (node?_store 7)
    (List.forall_mem_singleton.2 hsum') hrow'
  refine ⟨find?_env, ⟨⟨5⟩, node?_store 5, node?_store 4⟩, node?_store 6, node?_store 7,
    folded, u, folded', u', hfolded, hfolded', ?_⟩
  intro hsame
  rw [htree, htree'] at hsame
  have hlength : 2 = 1 := congrArg List.length (Tree.node.inj (Option.some.inj hsame)).2
  exact absurd hlength (by decide)

end PendingCall

end Juxta
