import Juxta.Proofs.InPlace
import Juxta.Proofs.Standing

/-!
# What folding leaves behind

Folding in place opens scopes and adds nodes wherever it comes to, and it may give up anywhere. When
it is over, the scopes are those from before, all nodes keep their ids and their places, and the new
nodes stand above earlier ones.

* `Workplace.Sound`, `Workplace.Formed` : what folding relies on;
* `Parser.Foldable` : the stores and scopes in which nodes are folded while a text is parsed;
* `Parser.Foldable.fold_restores` : what folding leaves there. The result is a node that is stored,
  unless a builtin function builds nodes that lack some of their parts.
-/

namespace Juxta

/-! ## Where nodes are folded -/

/-- The nodes that names stand for are stored, above earlier ones, and the outermost scope is
open. -/
structure Workplace.Sound (w : Workplace) : Prop where
  grounded : w.store.Grounded
  known : w.env.UpTo w.store.size
  isOpen : 0 < w.env.depth

/-- All nodes, and those that names stand for, have the slots that their kinds require. -/
structure Workplace.Formed (w : Workplace) : Prop where
  store : w.store.Formed
  env : w.env.Formed w.store

namespace Parser

variable {lexicon : Lexicon} {limit : Nat} {p : Parser}

/-- The stores and scopes in which nodes are folded while a text is parsed. From those between two
answers folding goes on with more nodes, and in scopes with parameters. Once parsing has stopped,
nothing is folded any more. -/
inductive Foldable (lexicon : Lexicon) (limit : Nat) : Workplace → Prop
  | parsing {p : Parser} (h : Passes lexicon limit p) (hgoing : p.halted = false) :
      Foldable lexicon limit ⟨p.store, p.builder.env⟩
  | storing {w : Workplace} (h : Foldable lexicon limit w) {t : Store}
      (hextends : w.store.Extends t) (hgrounded : t.Grounded)
      (hformed : lexicon.Fitting → t.Formed) : Foldable lexicon limit ⟨t, w.env⟩
  | entering {w : Workplace} (h : Foldable lexicon limit w) {name : String} {parent : Option Nat}
      {env : Environment} (henter : w.env.enter name parent = .ok env) (params : List String)
      {arguments : List NodeId} (hknown : ∀ id ∈ arguments, w.store.Knows id)
      (hformed : lexicon.Fitting → w.store.AllPresent arguments) :
      Foldable lexicon limit ⟨w.store, env.addWords (bindParams 0 params arguments)⟩

/-- Nodes are well-formed between the answers of rules, too. -/
theorem Passes.formed (hl : lexicon.Fitting) (h : Passes lexicon limit p) : p.Formed := by
  induction h with
  | start => exact formed_start hl limit
  | @answer p h hgoing token ih =>
    obtain ⟨rules, b, halted⟩ := p
    obtain ⟨waiting, hwaits, hb⟩ := ih.waits hgoing
    cases rules with
    | nil => exact ⟨ih.store, nofun⟩
    | cons rule rest =>
      obtain ⟨hstore, hmore⟩ := Rule.builds_answer hwaits b (.refl _) hb
      generalize hrun : (rule.answer token).run b = out at hstore hmore
      obtain ⟨result, c⟩ := out
      rw [answer_of_run hrun]
      cases result with
      | taken as more => exact ⟨hstore, fun _ => hmore⟩
      | passed more => exact ⟨hstore, fun _ => hmore⟩
      | refused error => exact ⟨hstore, nofun⟩

namespace Foldable

variable {w : Workplace}

theorem sound (h : Foldable lexicon limit w) : w.Sound := by
  induction h with
  | parsing h hgoing =>
    obtain ⟨hsound, -⟩ := h.going hgoing
    exact ⟨hsound.grounded, hsound.env, (h.segments hgoing).depth_pos⟩
  | @storing w _ t hextends hgrounded _ ih =>
    have hsize : t.Knows ⟨w.store.size⟩ := hextends.knows (Nat.le_refl _)
    exact ⟨hgrounded, ih.known.mono hsize, ih.isOpen⟩
  | @entering w _ name parent env henter params arguments hknown _ ih =>
    refine ⟨ih.grounded, (ih.known.enter henter).addWords (upTo_bindParams hknown 0 params), ?_⟩
    rw [Environment.depth_addWords]
    unfold Environment.enter at henter
    split at henter
    · cases henter
    · cases henter
      exact Nat.succ_pos _

theorem formed (hl : lexicon.Fitting) (h : Foldable lexicon limit w) : w.Formed := by
  induction h with
  | parsing h hgoing =>
    have hformed := h.formed hl
    obtain ⟨waiting, -, hb⟩ := hformed.waits hgoing
    exact ⟨hb.store, hb.env⟩
  | storing _ hextends _ hformed ih => exact ⟨hformed hl, ih.env.extend hextends⟩
  | entering _ henter params _ hformed ih =>
    exact ⟨ih.store, (ih.env.enter henter).addWords (formed_bindParams (hformed hl) 0 params)⟩

end Foldable

end Parser

/-! ## Sequences -/

/-- A sequence in a row of terms. -/
theorem Descent.present_of_sequence {d : Descent} {s t : Store} {id folded : NodeId} {stand : Stand}
    {take : Nat → Fold (List NodeId × Nat)} {taken : Nat} (hid : s.tag? id = some .exprs)
    (h : Fold.Gives s (d.term stand take id) (folded, taken) t) : t.Present folded := by
  obtain ⟨node, hnode, htag⟩ := Option.map_eq_some_iff.1 hid
  obtain ⟨s, _, hget, h⟩ := h.of_bind
  cases hget
  rw [hnode] at h
  dsimp only at h
  split at h
  · cases h
  · rw [htag] at h
    obtain ⟨_, _, hsingle, hpure⟩ := h.of_bind
    cases hpure
    unfold single at hsingle
    rw [htag] at hsingle
    obtain ⟨ids, u, -, hrebuild⟩ := hsingle.of_bind
    cases hrebuild
    exact ⟨_, u.node?_intern _ _⟩

/-- Whatever its terms are folded to, a sequence is folded to a node. -/
theorem present_of_sequence {env : Environment} {s t : Store} {id folded : NodeId}
    (hid : s.tag? id = some .exprs) (h : Fold.Gives s (fold env id) folded t) :
    t.Present folded := by
  obtain ⟨node, hnode⟩ := Store.present_of_tag? hid
  rw [fold_eq] at h
  unfold foldBy at h
  rw [Store.isAbsent_of_node? hnode] at h
  replace h : Fold.Gives s (do
      return (← foldSequence env (foldEntered fold env) (id.index + 1) [id]).headD id) folded t := h
  obtain ⟨ids, u, hids, hpure⟩ := h.of_bind
  cases hpure
  obtain ⟨row, u, hrow, hpure⟩ := hids.of_bind
  cases hpure
  obtain ⟨⟨first, taken⟩, u, hfirst, hrest⟩ := hrow.of_bind
  cases hrest
  exact Descent.present_of_sequence hid hfirst

/-! ## All nodes -/

namespace Parser

variable {lexicon : Lexicon} {limit : Nat} {w : Workplace}

/-- Wherever a node is folded while a text is parsed, and whether it can be folded or too many
scopes are entered, the scopes are afterwards what they were, the nodes that were stored keep their
ids and their places, and the children of the new ones come before them. The result is stored or
absent. It is absent for the absent node, and stored for every sequence; if the builtin functions
build operations on as many nodes as they take terms, it is stored for every node. -/
theorem Foldable.fold_restores (hw : Foldable lexicon limit w) {id : NodeId}
    (hid : w.store.Knows id) :
    ∃ result t, (InPlace.fold id).run.run w = (result, ⟨t, w.env⟩) ∧
      (fold w.env id).run.run w.store = (result, t) ∧ w.store.Extends t ∧
      (∀ new node, w.store.node? new = none → t.node? new = some node →
        ∀ child ∈ node.children, child.index < new.index) ∧
      match result with
      | .error error => error.IsRunaway
      | .ok folded => t.Knows folded ∧ (id = .absent → folded = .absent) ∧
          (w.store.Present id → lexicon.Fitting ∨ w.store.tag? id = some .exprs →
            t.Present folded) := by
  obtain ⟨s, env⟩ := w
  have hsound := hw.sound
  obtain ⟨hrun, hextends⟩ := InPlace.mirrors_fold hsound.isOpen id s
  obtain ⟨hgrounded, -, hmeets⟩ := keeps_fold hsound.known hid s hsound.grounded (Nat.le_refl _)
  have hpresent : ∀ folded t, Fold.Gives s (fold env id) folded t → s.Present id →
      lexicon.Fitting ∨ s.tag? id = some .exprs → t.Present folded := by
    intro folded t hgives hid hcases
    rcases hcases with hl | hsequence
    · have hformed := hw.formed hl
      obtain ⟨-, -, hreplaces⟩ := forms_fold hformed.env hid s (.refl s) hformed.store
      unfold Fold.Gives at hgives
      rw [hgives] at hreplaces
      exact (hreplaces folded rfl).present
    · exact present_of_sequence hsequence hgives
  have habsent : ∀ folded t, Fold.Gives s (fold env id) folded t → id = .absent →
      folded = .absent := by
    rintro folded t hgives rfl
    rw [fold_eq] at hgives
    cases hgives
    rfl
  unfold Fold.Gives at hpresent habsent
  generalize (fold env id).run.run s = out at *
  obtain ⟨result, t⟩ := out
  refine ⟨result, t, hrun, rfl, hextends, fun new node _ hnode => hgrounded new node hnode, ?_⟩
  cases result with
  | error error => exact hmeets
  | ok folded => exact ⟨hmeets, habsent folded t rfl, hpresent folded t rfl⟩

open Decided in
/-- A conditional is folded to the lambda that its condition decides on. -/
theorem fold_restores_decided :
    Foldable .standard Runaway.defaultLimit ⟨parser.store, parser.builder.env⟩ ∧
      parser.store.Knows ⟨8⟩ ∧
      (InPlace.fold ⟨8⟩).run.run ⟨parser.store, parser.builder.env⟩ =
        (.ok ⟨6⟩, ⟨parser.store, parser.builder.env⟩) := by
  obtain ⟨-, hstored, henv⟩ := stored_decided
  have hgoing : parser.halted = false := by
    obtain ⟨s, -, hparser⟩ := parser_eq
    rw [hparser]
    rfl
  have hw : Foldable .standard Runaway.defaultLimit ⟨parser.store, parser.builder.env⟩ :=
    .parsing passes_decided hgoing
  have hknows : parser.store.Knows ⟨8⟩ := Store.knows_of_node? (hstored 7 _ rfl)
  have hchoice : Fold.Gives parser.store (fold parser.builder.env ⟨8⟩) ⟨6⟩ parser.store :=
    henv ▸ gives_choice hstored folded_decided.grounded
  obtain ⟨result, t, hrun, hfold, -⟩ := hw.fold_restores hknows
  obtain ⟨rfl, rfl⟩ := Prod.mk.inj (hchoice.symm.trans hfold)
  exact ⟨hw, hknows, hrun⟩

end Parser

namespace Descent

open Fold

variable {d : Descent} {s t u v : Store} {id folded : NodeId} {node : Node}

/-- A case of a literal is folded to the body of the clause that is decided on. -/
theorem gives_select {tag : Tag} {value folded' : NodeId} {clauses : List Clause} {clause : Clause}
    (hscrutinee : Gives s (d.child (node.child 0)) folded t) (hvalue : t.unwrap folded = value)
    (hpatterns : Gives t (d.patterns (node.children.drop 1)) clauses u)
    (htag : u.tag? value = some tag) (hliteral : tag.isLiteral = true)
    (hdecided : decided? u value clauses = some clause)
    (hbody : Gives u (d.child clause.body) folded' v) :
    Gives s (d.select id node) (v.unwrap folded') v := by
  unfold select
  refine hscrutinee.bind ((gives_get t).bind (hpatterns.bind ((gives_get u).bind ?_)))
  rw [hvalue, htag]
  dsimp only
  rw [hliteral, if_pos rfl, hdecided]
  exact hbody.bind (gives_pure v _)

end Descent

namespace Parser

/-! ## A builtin function that builds cases -/

namespace Picked

/-- A builtin function that builds a case of its two arguments. -/
def lexicon : Lexicon := Lexicon.bare.withBuiltin "pick" .case 2

/-- The nodes of `let k = pick 1 [1]..` in the order in which they are stored. -/
def nodes : List Node :=
  [.leaf .ident "pick", .leaf .num "1", .branch .list [⟨2⟩], .branch .exprs [⟨1⟩, ⟨2⟩, ⟨3⟩],
    .branch .case [⟨2⟩, ⟨3⟩], .branch .exprs [⟨5⟩]]

/-- The scopes before the definition, in its body and after it. -/
def before : Environment := .ofLexicon lexicon Runaway.defaultLimit

def inside : Environment := (before.addWord (.pending "k")).push "k" none

def after : Environment := before.addWord ⟨"k", .value ⟨5⟩, 0⟩

/-- Rules that wait in the sequence of the program, and nodes that wait. -/
def holding (rules : List Rule) (s : Store) (env : Environment) (waiting : List NodeId) : Parser :=
  ⟨rules ++ [.sequence 0 .afterTerm, .programEnd], ⟨s, env, waiting, [], none⟩, false⟩

/-- Rules that wait in the body of the definition, and nodes that wait. -/
def defining (rules : List Rule) (s : Store) (waiting : List NodeId) : Parser :=
  holding (rules ++ [.letBody "k" []]) s inside waiting

variable (l : Location) (c : Coord) {s t u : Store} {id : NodeId} (waiting : List NodeId)

theorem feed_let : (start lexicon Runaway.defaultLimit).feed ⟨.keyword .letWord, l⟩ =
    (.keyword, holding [.letName] .empty before []) := feed_of_within (by decide) rfl 3 rfl

theorem feed_name : (holding [.letName] s before []).feed ⟨.identifier "k", l⟩ =
    (.definition, holding [.letParams "k" []] s inside []) := feed_of_within (by decide) rfl 1 rfl

theorem feed_equal : (holding [.letParams "k" []] s inside []).feed ⟨.equal, l⟩ =
    (.punctuation, defining [.sequence 0 .start] s []) := feed_of_within (by decide) rfl 1 rfl

theorem feed_pick (h : s.intern (.leaf .ident "pick") (some l.coord) = (id, t)) :
    (defining [.sequence 0 .start] s []).feed ⟨.identifier "pick", l⟩ =
      (.function, defining [.operator [], .sequence 0 .afterTerm] t [id]) := by
  obtain ⟨rfl, rfl⟩ : (s.intern _ _).1 = id ∧ (s.intern _ _).2 = t := Prod.ext_iff.1 h
  exact feed_of_within (by decide) rfl 6 rfl

theorem feed_number (h : s.intern (.leaf .num "1") (some l.coord) = (id, t)) :
    (defining [.operator [], .sequence 0 .afterTerm] s waiting).feed ⟨.number "1", l⟩ =
      (.number, defining [.operator [], .sequence 0 .afterTerm] t (id :: waiting)) := by
  obtain ⟨rfl, rfl⟩ : (s.intern _ _).1 = id ∧ (s.intern _ _).2 = t := Prod.ext_iff.1 h
  exact feed_of_within (by decide) rfl 7 rfl

theorem feed_open : (defining [.operator [], .sequence 0 .afterTerm] s [⟨2⟩, ⟨1⟩]).feed
      ⟨.openBracket, l⟩ =
    (.punctuation, defining [.list 2 false l.coord, .operator [], .sequence 0 .afterTerm] s
      [⟨2⟩, ⟨1⟩]) := feed_of_within (by decide) rfl 7 rfl

theorem feed_item (h : s.intern (.leaf .num "1") (some l.coord) = (id, t)) :
    (defining [.list 2 false c, .operator [], .sequence 0 .afterTerm] s waiting).feed
        ⟨.number "1", l⟩ =
      (.number, defining [.operator [], .list 2 false c, .operator [], .sequence 0 .afterTerm] t
        (id :: waiting)) := by
  obtain ⟨rfl, rfl⟩ : (s.intern _ _).1 = id ∧ (s.intern _ _).2 = t := Prod.ext_iff.1 h
  exact feed_of_within (by decide) rfl 6 rfl

theorem feed_close (h : s.intern (.branch .list [⟨2⟩]) (some (c.upTo l.coord)) = (id, t)) :
    (defining [.operator [], .list 2 false c, .operator [], .sequence 0 .afterTerm] s
        [⟨2⟩, ⟨2⟩, ⟨1⟩]).feed ⟨.closeBracket, l⟩ =
      (.punctuation, defining [.operator [], .sequence 0 .afterTerm] t [id, ⟨2⟩, ⟨1⟩]) := by
  obtain ⟨rfl, rfl⟩ : (s.intern _ _).1 = id ∧ (s.intern _ _).2 = t := Prod.ext_iff.1 h
  exact feed_of_within (by decide) rfl 2 rfl

theorem feed_dot : (defining [.operator [], .sequence 0 .afterTerm] s waiting).feed ⟨.dot, l⟩ =
    (.punctuation, defining [.sequence 0 .afterDot] s waiting) :=
  feed_of_within (by decide) rfl 2 rfl

theorem feed_secondDot (h : s.intern (.branch .exprs [⟨1⟩, ⟨2⟩, ⟨3⟩])
      (s.joinedCoord? [⟨1⟩, ⟨2⟩, ⟨3⟩]) = (id, t)) :
    (defining [.sequence 0 .afterDot] s [⟨3⟩, ⟨2⟩, ⟨1⟩]).feed ⟨.dot, l⟩ =
      (.punctuation, defining [] t [id]) := by
  obtain ⟨rfl, rfl⟩ : (s.intern _ _).1 = id ∧ (s.intern _ _).2 = t := Prod.ext_iff.1 h
  exact feed_of_within (by decide) rfl 1 rfl

/-- The name stands for the case. -/
theorem feed_minus (hfold : Fold.Gives s (fold inside ⟨4⟩) ⟨6⟩ t) (hcase : t.unwrap ⟨6⟩ = ⟨5⟩) :
    (defining [] s [⟨4⟩]).feed ⟨.minus, l⟩ =
      (.number, holding [.unary false, .negation l.coord, .operator []] t after []) := by
  have hrun := Build.run_foldNode_of_gives (b := ⟨s, inside, [], [], none⟩) hfold
  have hafter : inside.exit.define inside.exit.top "k" (.value (t.unwrap ⟨6⟩)) = after := by
    rw [hcase]
    rfl
  have hbody : ((Rule.letBody "k" []).answer ⟨.minus, l⟩).run ⟨s, inside, [⟨4⟩], [], none⟩ =
      (.passed [], ⟨t, after, [], [], none⟩) := by
    rw [← hafter]
    exact (Build.run_next rfl _).trans ((Build.run_next hrun _).trans rfl)
  rw [feed_waiting (by simp) rfl]
  exact (offer_passed hbody).trans (offer_of_within 5 rfl)

/-! ### Folding -/

variable {env : Environment} {bound : Nat}
  {inner : (name : String) → (parent : Option Nat) → List Word → NodeId → Fold NodeId}

/-- How the terms of a sequence are folded. -/
def descent (env : Environment) (bound : Nat) : Descent :=
  ⟨env, bound + 1, foldSequence env (foldEntered fold env) bound, foldEntered fold env⟩

theorem gives_number (hone : s.node? ⟨2⟩ = some (.leaf .num "1")) (hbound : 2 ≤ bound) :
    Fold.Gives s (foldSequence env inner (bound + 1) [⟨2⟩]) [⟨2⟩] s :=
  gives_foldSequence hone hbound ⟨nofun, nofun, nofun⟩ (Fold.gives_pure s _)

/-- The first clause of the case is the list, whose second part is missing. -/
theorem gives_case (hone : s.node? ⟨2⟩ = some (.leaf .num "1"))
    (hlist : s.node? ⟨3⟩ = some (.branch .list [⟨2⟩]))
    (hcase : s.node? ⟨5⟩ = some (.branch .case [⟨2⟩, ⟨3⟩])) :
    Fold.Gives s (fold env ⟨5⟩) .absent s := by
  have hunwrap : s.unwrap ⟨2⟩ = ⟨2⟩ := by
    unfold Store.unwrap
    rw [hone]
    rfl
  have hliteral : s.tag? ⟨2⟩ = some .num := Store.tag?_of_node? hone
  have hchild : Fold.Gives s ((descent env 5).child ⟨2⟩) ⟨2⟩ s :=
    Descent.gives_child hone (gives_number hone (by decide))
  have hpatterns : Fold.Gives s ((descent env 5).patterns [⟨3⟩]) [⟨⟨3⟩, ⟨2⟩, .absent⟩] s := by
    unfold Descent.patterns
    refine (Fold.gives_get s).bind ?_
    rw [hlist]
    refine hchild.bind ((Fold.gives_get s).bind ?_)
    rw [hunwrap]
    exact (Fold.gives_pure s _).bind (Fold.gives_pure s _)
  have hdecided : Descent.decided? s ⟨2⟩ [⟨⟨3⟩, ⟨2⟩, .absent⟩] = some ⟨⟨3⟩, ⟨2⟩, .absent⟩ := rfl
  have hselect : Fold.Gives s ((descent env 5).select ⟨5⟩ (.branch .case [⟨2⟩, ⟨3⟩])) .absent s :=
    Descent.gives_select hchild hunwrap hpatterns hliteral rfl hdecided (Fold.gives_pure s _)
  rw [fold_eq]
  exact (gives_foldSequence hcase (Nat.le_refl 5) (by decide) hselect).bind (Fold.gives_pure s _)

/-- The function takes the number and the list, and gives the case. -/
theorem gives_body (hpick : s.node? ⟨1⟩ = some (.leaf .ident "pick"))
    (hone : s.node? ⟨2⟩ = some (.leaf .num "1"))
    (hlist : s.node? ⟨3⟩ = some (.branch .list [⟨2⟩]))
    (hrow : s.node? ⟨4⟩ = some (.branch .exprs [⟨1⟩, ⟨2⟩, ⟨3⟩]))
    (hcase : s.intern (.branch .case [⟨2⟩, ⟨3⟩]) (s.coord? ⟨1⟩) = (⟨5⟩, t))
    (hbody : t.intern (.branch .exprs [⟨5⟩]) (t.coord? ⟨4⟩) = (⟨6⟩, u)) :
    Fold.Gives s (fold inside ⟨4⟩) ⟨6⟩ u := by
  have hnumber : ∀ stand take, Fold.Gives s ((descent inside 3).term stand take ⟨2⟩) (⟨2⟩, 0) s :=
    fun _ _ => Descent.gives_term_single hone (show 2 < 4 by decide) ⟨nofun, nofun, nofun⟩
      (Fold.gives_pure s _)
  have hitems : ∀ stand take, Fold.Gives s ((descent inside 3).term stand take ⟨3⟩) (⟨3⟩, 0) s := by
    intro stand take
    refine Descent.gives_term_single hlist (show 3 < 4 by decide) ⟨nofun, nofun, nofun⟩ ?_
    exact (gives_number hone (by decide)).bind (Fold.gives_rebuild_stored hlist _)
  have hend : Fold.Gives s ((descent inside 3).terms [] .argument 0 0) ([], 0) s :=
    Fold.gives_pure s _
  have harguments := Descent.gives_terms_cons (hnumber .argument _)
    (Descent.gives_terms_cons (hitems .argument _) hend)
  have hnone : s.computed? .case [⟨2⟩, ⟨3⟩] = none := by
    have hitem : s.literalNumber? ⟨3⟩ = none := by
      unfold Store.literalNumber?
      rw [hlist]
      rfl
    unfold Store.computed?
    dsimp only
    rw [hitem]
    cases s.literalNumber? ⟨2⟩ <;> rfl
  have hbuiltin : Fold.Gives s (Fold.builtin ⟨1⟩ .case 2 [⟨2⟩, ⟨3⟩]) ⟨5⟩ t := by
    have hoperation := Fold.gives_operation_of_none hnone ⟨1⟩
    rw [hcase] at hoperation
    exact (Fold.gives_pure s _).bind (hoperation.bind (Fold.gives_pure t _))
  have hterm : Fold.Gives s ((descent inside 3).term .head
      (fun count => (descent inside 3).terms [⟨2⟩, ⟨3⟩] .argument count 0) ⟨1⟩) (⟨5⟩, 2) t := by
    unfold Descent.term
    refine (Fold.gives_get s).bind ?_
    rw [hpick]
    exact harguments.bind (hbuiltin.bind (Fold.gives_pure t _))
  have hskipped : Fold.Gives t ((descent inside 3).terms [⟨2⟩, ⟨3⟩] .head 2 2) ([], 0) t :=
    Fold.gives_pure t _
  have hbelow : Fold.Gives s ((descent inside 4).below [⟨1⟩, ⟨2⟩, ⟨3⟩]) [⟨5⟩] t :=
    (Descent.gives_terms_cons hterm hskipped).bind (Fold.gives_pure t _)
  have hrebuilt : Fold.Gives t (Fold.rebuild ⟨4⟩ .exprs [⟨5⟩]) ⟨6⟩ u := by
    have hrebuild := Fold.gives_rebuild t ⟨4⟩ .exprs [⟨5⟩]
    rwa [hbody] at hrebuild
  rw [fold_eq]
  exact (gives_foldSequence hrow (Nat.le_refl 4) ⟨nofun, nofun, nofun⟩
    (hbelow.bind hrebuilt)).bind (Fold.gives_pure u _)

/-! ### The state of the parser -/

/-- The tokens of `let k = pick 1 [1].. -`. -/
def tokens : List Token :=
  [.keyword .letWord, .identifier "k", .equal, .identifier "pick", .number "1", .openBracket,
    .number "1", .closeBracket, .dot, .dot, .minus].map fun kind => ⟨kind, default⟩

/-- The parser after these tokens. -/
def parser : Parser := (start lexicon Runaway.defaultLimit).feedAll tokens

theorem intern_node {count : Nat} (hs : s.nodes = nodes.take count) {node : Node}
    (hnode : nodes[count]? = some node) (coord : Option Coord) :
    ∃ t, s.intern node coord = (⟨count + 1⟩, t) ∧ t.nodes = nodes.take (count + 1) :=
  Store.intern_nth hs (by decide) hnode coord

theorem parser_eq : ∃ s, s.nodes = nodes ∧
    parser = holding [.unary false, .negation default, .operator []] s after [] := by
  have hempty : Store.empty.nodes = nodes.take 0 := rfl
  obtain ⟨s1, h1, hs⟩ := intern_node hempty rfl _
  obtain ⟨s2, h2, hs⟩ := intern_node hs rfl _
  have hone : s2.node? ⟨2⟩ = some (.leaf .num "1") := Store.node?_of_nodes hs 1
  obtain ⟨s3, h3, hs⟩ := intern_node hs rfl _
  obtain ⟨s4, h4, hs⟩ := intern_node hs rfl _
  have hnode := Store.node?_of_nodes hs
  obtain ⟨s5, h5, hs⟩ := intern_node hs rfl _
  obtain ⟨s6, h6, hs⟩ := intern_node hs rfl _
  have hfold : Fold.Gives s4 (fold inside ⟨4⟩) ⟨6⟩ s6 :=
    gives_body (hnode 0) (hnode 1) (hnode 2) (hnode 3) h5 h6
  have hcase : s6.unwrap ⟨6⟩ = ⟨5⟩ := by
    unfold Store.unwrap
    rw [Store.node?_of_nodes hs 5]
    rfl
  refine ⟨s6, hs, ?_⟩
  unfold parser tokens feedAll
  simp only [List.map_cons, List.map_nil, List.foldl_cons, List.foldl_nil]
  rw [feed_let, feed_name, feed_equal, feed_pick _ h1, feed_number _ _ h2, feed_open,
    feed_item _ _ _ (Store.intern_of_node? hone _), feed_close _ _ h3, feed_dot,
    feed_secondDot _ h4, feed_minus _ hfold hcase]
  rfl

end Picked

/-- While a text is parsed, folding may make nothing of a node that is stored: a case that a builtin
function has built of two terms that are no clauses. -/
theorem fold_loses_picked :
    Passes Picked.lexicon Runaway.defaultLimit Picked.parser ∧ Picked.parser.halted = false ∧
      Picked.parser.store.node? ⟨5⟩ = some (.branch .case [⟨2⟩, ⟨3⟩]) ∧
      (InPlace.fold ⟨5⟩).run.run ⟨Picked.parser.store, Picked.parser.builder.env⟩ =
        (.ok .absent, ⟨Picked.parser.store, Picked.parser.builder.env⟩) := by
  obtain ⟨s, hs, hparser⟩ := Picked.parser_eq
  have hpasses : Passes Picked.lexicon Runaway.defaultLimit Picked.parser :=
    Passes.start.feedAll Picked.tokens
  have hnode := Store.node?_of_nodes hs
  have hfold : Fold.Gives s (fold Picked.after ⟨5⟩) .absent s :=
    Picked.gives_case (hnode 1) (hnode 2) (hnode 4)
  obtain ⟨hrun, -⟩ := InPlace.mirrors_fold (show 0 < Picked.after.depth by decide) ⟨5⟩ s
  unfold Fold.Gives at hfold
  rw [hfold] at hrun
  rw [hparser]
  exact ⟨hparser ▸ hpasses, rfl, hnode 4, hrun⟩

end Parser

end Juxta
