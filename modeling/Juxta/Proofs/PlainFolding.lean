import Juxta.Proofs.HeldTrees

/-!
# Folding plain trees

Where literals stand for some names, and the others for themselves, folding a plain node succeeds
without errors, and makes of its tree what `Tree.given` says.

* `Environment.Offers` : what names stand for (`Environment.Offers.entered`);
* `Descent.Renders` : what a term relies on for all that is folded below it;
* `Descent.builds_term` : one term of each kind;
* `Descent.builds_terms`, `builds_foldSequence` : terms in a row;
* `builds_foldWithin` : a node by itself.
-/

namespace Juxta

open Juxta.Tree (Plain Literals given without)

/-! ## Names -/

/-- Some names stand for literals, and others for themselves. -/
structure Environment.Offers (env : Environment) (s : Store) (names : String → Prop)
    (σ : String → Option Tree) : Prop where
  literal : ∀ name tree, names name → σ name = some tree → ∃ word number id,
    env.find? name = some (word, number) ∧ word.kind = .value id ∧ s.Holds id tree
  itself : ∀ name, names name → σ name = none → ¬ env.Means name

theorem Environment.Offers.extend {env : Environment} {s t : Store} {names : String → Prop}
    {σ : String → Option Tree} (h : env.Offers s names σ) (hs : s.Grounded) (ht : t.Grounded)
    (he : s.Extends t) : env.Offers t names σ := by
  refine ⟨fun name tree hname hvalue => ?_, h.itself⟩
  obtain ⟨word, number, id, hfind, hkind, hid⟩ := h.literal name tree hname hvalue
  exact ⟨word, number, id, hfind, hkind, hid.extend hs ht he⟩

/-- Parameters of a lambda stand for themselves in its body. -/
theorem Environment.Offers.entered {env : Environment} {s : Store} {names : String → Prop}
    {σ : String → Option Tree} (h : env.Offers s names σ) (params : List String) :
    (env.entered "lambda" none (bindParams 0 params [])).Offers s (NamesWith names params)
      (without params σ) := by
  constructor
  · intro name tree hname hvalue
    unfold without at hvalue
    split at hvalue
    · cases hvalue
    · rename_i hnot
      obtain ⟨word, number, id, hfind, hword⟩ :=
        h.literal name tree (hname.resolve_right hnot) hvalue
      refine ⟨word, number, id, ?_, hword⟩
      rw [find?_entered]
      split
      · rename_i found hfound
        rcases get?_wordsWith hfound with ⟨hm, hkey⟩ | hold
        · have hm := List.mem_map_of_mem (f := Word.name) hm
          rw [names_bindParams, hkey] at hm
          exact absurd hm hnot
        · cases hold
      · exact hfind
  · intro name hname hvalue hmeans
    obtain ⟨hnot, hmeans⟩ := hmeans.of_entered
    unfold without at hvalue
    rw [if_neg hnot] at hvalue
    exact h.itself name (hname.resolve_right hnot) hvalue hmeans

/-! ## Terms -/

namespace Descent

open Fold

/-- Plain bodies of lambdas become what literals make of them. -/
abbrev RendersInside (s : Store) (names : String → Prop) (room : Nat) (σ : String → Option Tree)
    (inside : (name : String) → (parent : Option Nat) → List Word → NodeId → Fold NodeId) : Prop :=
  ∀ t less params body tree, s.Extends t → t.Grounded → room = less + 1 → t.Holds body tree →
    Plain (NamesWith names params) less tree →
    Builds t (inside "lambda" none (bindParams 0 params []) body)
      (Tells (tree.given (without params σ)))

/-- What plain terms rely on: plain sequences below them and the plain bodies of lambdas become what
literals make of them. -/
structure Renders (d : Descent) (s : Store) (names : String → Prop) (room : Nat)
    (σ : String → Option Tree) : Prop where
  literals : Literals σ
  offers : d.env.Offers s names σ
  below : ∀ t ids trees, s.Extends t → t.Grounded → t.HoldsAll ids trees →
    (∀ tree ∈ trees, Plain names room tree) →
    Tree.Apart trees → (∀ id ∈ ids, d.Below id) →
    Builds t (d.below ids) (TellsAll (trees.map (given σ)))
  inside : RendersInside s names room σ d.inside

/-- The tree of a term that takes no others. -/
abbrev TellsTerm (tree : Tree) (t : Store) (result : NodeId × Nat) : Prop :=
  t.Holds result.1 tree ∧ result.2 = 0

variable {d : Descent} {s t : Store} {names : String → Prop} {room : Nat}
  {σ : String → Option Tree} {id : NodeId} {tree : Tree}
  {take : Nat → Fold (List NodeId × Nat)}

theorem Renders.extend (h : d.Renders s names room σ) (hs : s.Grounded) (ht : t.Grounded)
    (he : s.Extends t) : d.Renders t names room σ where
  literals := h.literals
  offers := h.offers.extend hs ht he
  below u ids trees hu := h.below u ids trees (he.trans hu)
  inside u less params body tree hu := h.inside u less params body tree (he.trans hu)

theorem builds_child (h : d.Renders s names room σ) (hs : s.Grounded) (hid : s.Holds id tree)
    (hp : Plain names room tree) (hb : d.Below id) :
    Builds s (d.child id) (Tells (tree.given σ)) := by
  obtain ⟨slots, hn, -⟩ := hid.exists_node hs
  unfold child
  rw [Store.isAbsent_of_node? hn]
  refine (h.below s [id] [tree] (.refl s) hs (.cons hid .nil) (List.forall_mem_singleton.2 hp)
    (List.pairwise_singleton _ _) (List.forall_mem_singleton.2 hb)).bind fun t ids _ ht hids => ?_
  obtain ⟨folded, rfl, hfolded⟩ := Store.HoldsAll.of_single hids
  exact .pure ht hfolded

theorem builds_children (h : d.Renders s names room σ) (hs : s.Grounded) {ids : List NodeId}
    {trees : List Tree} (hids : s.HoldsAll ids trees) (hp : ∀ tree ∈ trees, Plain names room tree)
    (hb : ∀ id ∈ ids, d.Below id) : Builds s (d.children ids) (TellsAll (trees.map (given σ))) := by
  induction ids generalizing s trees with
  | nil =>
    cases hids
    exact .pure hs .nil
  | cons id rest ih =>
    obtain ⟨tree, others, hid, hrest, rfl⟩ := List.forall₂_cons_left_iff.1 hids
    obtain ⟨hfirst, hothers⟩ := List.forall_mem_cons.1 hp
    obtain ⟨hlt, hlater⟩ := List.forall_mem_cons.1 hb
    refine (builds_child h hs hid hfirst hlt).bind fun t folded he ht hfolded => ?_
    refine (ih (h.extend hs ht he) ht (Store.HoldsAll.extend hrest hs ht he) hothers hlater).bind
      fun u rest he' hu hall => ?_
    exact .pure hu (.cons (hfolded.extend ht hu he') hall)

/-- A term that takes no others. -/
theorem builds_single {stand : Stand} {post : Store → NodeId → Prop} {node : Node}
    (hn : s.node? id = some node) (hlt : id.index < d.bound)
    (htag : node.tag ≠ .ident ∧ node.tag ≠ .lambda ∧ node.tag ≠ .paren)
    (h : Builds s (d.single id node) post) :
    Builds s (d.term stand take id) fun t result => post t result.1 ∧ result.2 = 0 := by
  obtain ⟨folded, t, hsingle, he, ht, hpost⟩ := h
  exact ⟨(folded, 0), t, gives_term_single hn hlt htag hsingle, he, ht, hpost, rfl⟩

theorem builds_term_single {node : Node} (hn : s.node? id = some node) (hlt : id.index < d.bound)
    (htag : node.tag ≠ .ident ∧ node.tag ≠ .lambda ∧ node.tag ≠ .paren)
    (h : Builds s (d.single id node) (Tells tree)) :
    Builds s (d.term .head take id) (TellsTerm tree) := builds_single hn hlt htag h

theorem below_of_branch (hs : s.Grounded) {tag : Tag} {ids : List NodeId}
    (hn : s.node? id = some (.branch tag ids)) (hlt : id.index < d.bound) :
    ∀ child ∈ ids, d.Below child := by
  have hcovers := (covers_of_lt hs hn hlt).children
  rwa [Node.children_branch] at hcovers

theorem builds_row (h : d.Renders s names room σ) (hs : s.Grounded) {tag : Tag}
    {terms : List Tree} (hid : s.Holds id (.branch tag terms)) (hlt : id.index < d.bound)
    (ht : tag = .exprs ∨ tag = .list) (hp : ∀ term ∈ terms, Plain names room term)
    (hl : Tree.Apart terms) :
    Builds s (d.term .head take id) (TellsTerm (.branch tag (terms.map (given σ)))) := by
  obtain ⟨ids, hn, hids⟩ := hid.of_branch hs
  have hbelow := h.below s ids terms (.refl s) hs hids hp hl (below_of_branch hs hn hlt)
  have hbuilt : Builds s (do rebuild id tag (← d.below (Node.branch tag ids).children))
      (Tells (.branch tag (terms.map (given σ)))) := by
    rw [Node.children_branch]
    exact hbelow.bind fun t folded _ ht hfolded => builds_rebuild ht hfolded id
  refine builds_term_single hn hlt ?_ ?_
  · rcases ht with rfl | rfl <;> exact ⟨nofun, nofun, nofun⟩
  · rcases ht with rfl | rfl <;> exact hbuilt

theorem builds_paren (h : d.Renders s names room σ) (hs : s.Grounded) {terms : List Tree}
    (hid : s.Holds id (.branch .paren [.branch .exprs terms])) (hlt : id.index < d.bound)
    (hp : ∀ term ∈ terms, Plain names room term) (hl : Tree.Apart terms)
    (hk : ∀ only, terms = [only] → only.tag.MayTake) :
    Builds s (d.term .head take id) (TellsTerm (Tree.grouped (terms.map (given σ)))) := by
  obtain ⟨_, hn, hinner⟩ := hid.of_branch hs
  obtain ⟨sequence, rfl, hsequence⟩ := hinner.of_single
  obtain ⟨ids, hns, hids⟩ := hsequence.of_branch hs
  have hbefore : sequence.index < d.bound :=
    Nat.lt_trans (hs id _ hn sequence List.mem_cons_self) hlt
  have hbelow := h.below s ids terms (.refl s) hs hids hp hl (below_of_branch hs hns hbefore)
  have hmay := Plain.mayTake_terms hp hk h.literals
  unfold term
  refine .get ?_
  rw [hn]
  dsimp only
  rw [if_neg (Nat.not_le_of_lt hlt)]
  show Builds s (d.paren .head take id (.branch .paren [sequence])) _
  unfold paren
  refine .get ?_
  have hchild : (Node.branch .paren [sequence]).child 0 = sequence := rfl
  have htag : (Node.branch .exprs ids).tag = .exprs := rfl
  rw [hchild, hns]
  dsimp only
  rw [if_pos htag, Node.children_branch]
  refine hbelow.bind fun t folded he ht hfolded => .get ?_
  have hkeep : Builds t (do
      let inner ← rebuild sequence .exprs folded
      return (← rebuild id .paren [inner], 0))
      (TellsTerm (.branch .paren [.branch .exprs (terms.map (given σ))])) := by
    refine (builds_rebuild ht hfolded sequence).bind fun u inner _ hu hinner => ?_
    refine (builds_rebuild hu (.cons hinner .nil) id).bind fun v outer _ hv houter => ?_
    exact .pure hv ⟨houter, rfl⟩
  unfold Tree.grouped
  split
  · rename_i only
    obtain ⟨tree, others, honly, hrest, hone⟩ := List.forall₂_cons_left_iff.1 hfolded
    cases hrest
    rw [hone] at hkeep hmay ⊢
    rw [honly.tag? ht]
    dsimp only
    split
    · rename_i hlambda
      have hlambda : tree.tag = .lambda := Option.some.inj hlambda
      rcases hmay tree rfl with hliteral | hmay
      · exact absurd (.lambda hlambda) hliteral.not_leavesLambda
      · rw [hlambda] at hmay
        rcases hmay with hmay | hmay | hmay <;> cases hmay
    · rename_i hident
      rw [if_pos (.inl (Option.some.inj hident))]
      exact hkeep
    · rename_i hexprs
      rw [if_pos (.inr (.inl (Option.some.inj hexprs)))]
      exact hkeep
    · rename_i hparen
      rw [if_pos (.inr (.inr (Option.some.inj hparen)))]
      exact hkeep
    · rename_i hnone
      cases hnone
    · rename_i hident hexprs hparen hother
      obtain rfl := Option.some.inj hother
      rw [if_neg fun hmay => hmay.elim hident (Or.elim · hexprs hparen)]
      exact .pure ht ⟨honly, rfl⟩
  · rename_i hnot
    split
    · rename_i only honly
      rw [honly] at hfolded
      obtain ⟨single, rfl, -⟩ := Store.HoldsAll.of_single hfolded
      exact absurd rfl (hnot single)
    · exact hkeep

theorem builds_lambda (h : d.Renders s names (room + 1) σ) (hs : s.Grounded)
    {params : List String} {body : Tree} (hid : s.Holds id (.lambda params body))
    (hlt : id.index < d.bound) (hp : Plain (NamesWith names params) room body)
    (htake : ∀ t count, Gives t (take count) ([], 0) t) :
    Builds s (d.term .head take id)
      (TellsTerm (.lambda params (body.given (without params σ)))) := by
  obtain ⟨list, inner, hn, hlist, hbody, hparams⟩ := hid.of_lambda hs
  have hlambda : Builds s (d.lambda id (.branch .lambda [list, inner]))
      (Tells (.lambda params (body.given (without params σ)))) := by
    unfold lambda
    refine .get ?_
    rw [hparams]
    refine (h.inside s room params inner body (.refl s) hs rfl hbody hp).bind
      fun t folded he ht hfolded => ?_
    exact builds_rebuild ht (.cons (hlist.extend hs ht he) (.cons hfolded .nil)) id
  unfold term
  refine .get ?_
  rw [hn]
  dsimp only
  rw [if_neg (Nat.not_le_of_lt hlt)]
  show Builds s (do d.applyFollowing .head take (← d.lambda id (.branch .lambda [list, inner]))) _
  refine hlambda.bind fun t folded _ ht hfolded => ?_
  unfold applyFollowing
  rw [if_neg (by decide)]
  refine .get ?_
  exact ⟨(folded, 0), t, (htake t _).bind (gives_pure t _), .refl t, ht, hfolded, rfl⟩

theorem builds_binding (h : d.Renders s names room σ) (hs : s.Grounded) {key : String}
    {value : Tree} (hid : s.Holds id (.branch .binding [.leaf .str key, value]))
    (hlt : id.index < d.bound) (hp : Plain names room value) :
    Builds s (d.term .head take id)
      (TellsTerm (.branch .binding [.leaf .str key, (value.given σ).unwrapped])) := by
  obtain ⟨_, hn, hids⟩ := hid.of_branch hs
  obtain ⟨first, second, rfl, hkey, hvalue⟩ := hids.of_pair
  refine builds_term_single hn hlt ⟨nofun, nofun, nofun⟩ ?_
  have hbelow := below_of_branch hs hn hlt second (List.mem_cons_of_mem _ List.mem_cons_self)
  refine (builds_child h hs hvalue hp hbelow).bind fun t folded he ht hfolded => .get ?_
  refine builds_rebuild ht (.cons (hkey.extend hs ht he) (.cons ?_ .nil)) id
  exact hfolded.unwrap ht (hp.given h.literals).plain

/-- A child whose place another node takes. -/
theorem builds_inPlace (h : d.Renders s names room σ) (hs : s.Grounded) (hid : s.Holds id tree)
    (hp : Plain names room tree) (hb : d.Below id) :
    Builds s (do
      let folded ← d.child id
      return (← get).unwrap folded) (Tells (tree.given σ).unwrapped) := by
  refine (builds_child h hs hid hp hb).bind fun t folded _ ht hfolded => .get (.pure ht ?_)
  exact hfolded.unwrap ht (hp.given h.literals).plain

theorem builds_last (h : d.Renders s names room σ) (hs : s.Grounded) {no : Option Tree}
    (hid : s.HoldsBranch id no) (hp : ∀ tree, no = some tree → Plain names room tree)
    (hb : d.Below id) : Builds s (d.child id) fun t id => t.HoldsBranch id (no.map (given σ)) := by
  cases no with
  | some no => exact builds_child h hs hid (hp no rfl) hb
  | none =>
    obtain rfl : id = .absent := hid
    exact .pure hs rfl

theorem builds_rebuild_choice (hs : s.Grounded) {first second third : NodeId}
    {condition yes : Tree} {no : Option Tree} (hfirst : s.Holds first condition)
    (hsecond : s.Holds second yes) (hthird : s.HoldsBranch third no) (origin : NodeId) :
    Builds s (rebuild origin .ifThen [first, second, third])
      (Tells (Tree.choice condition yes no)) := by
  have hknows : ∀ child ∈ [first, second, third], s.Knows child :=
    List.forall_mem_cons.2 ⟨hfirst.knows hs, List.forall_mem_cons.2 ⟨hsecond.knows hs,
      List.forall_mem_singleton.2 (hthird.knows hs)⟩⟩
  have he := s.extends_intern (.branch .ifThen [first, second, third]) (s.coord? origin)
  have ht : (s.intern (.branch .ifThen [first, second, third]) (s.coord? origin)).2.Grounded :=
    hs.intern (by rwa [Node.children_branch])
  exact ⟨_, _, rfl, he, ht, Store.holds_choice ht (s.node?_intern _ _) (hfirst.extend hs ht he)
    (hsecond.extend hs ht he) (hthird.extend hs ht he)⟩

/-- Conditionals with two branches and with one. -/
theorem builds_conditional (h : d.Renders s names room σ) (hs : s.Grounded)
    {first second third : NodeId} {condition yes : Tree} {no : Option Tree}
    (hn : s.node? id = some (.branch .ifThen [first, second, third])) (hlt : id.index < d.bound)
    (hfirst : s.Holds first condition) (hsecond : s.Holds second yes)
    (hthird : s.HoldsBranch third no)
    (hc : Plain names room condition) (hy : Plain names room yes)
    (hno : ∀ tree, no = some tree → Plain names room tree) :
    Builds s (d.term .head take id)
      (TellsTerm (Tree.conditional (condition.given σ) (yes.given σ) (no.map (given σ)))) := by
  have hbelow := below_of_branch hs hn hlt
  have hbelow₁ := hbelow first List.mem_cons_self
  have hbelow₂ := hbelow second (List.mem_cons_of_mem _ List.mem_cons_self)
  have hbelow₃ := hbelow third
    (List.mem_cons_of_mem _ (List.mem_cons_of_mem _ List.mem_cons_self))
  refine builds_term_single hn hlt ⟨nofun, nofun, nofun⟩ ?_
  show Builds s (d.conditional id (.branch .ifThen [first, second, third])) _
  unfold conditional
  refine (builds_child h hs hfirst hc hbelow₁).bind fun t folded he ht hfolded => .get ?_
  have h := h.extend hs ht he
  have hsecond := hsecond.extend hs ht he
  have hthird := hthird.extend hs ht he
  rw [(hfolded.unwrap ht (hc.given h.literals).plain).literalTruth? ht]
  unfold Tree.conditional
  split
  · rename_i truth htruth
    rw [htruth]
    cases truth with
    | true =>
      obtain ⟨slots, hn, -⟩ := hsecond.exists_node ht
      show Builds t (if second.isAbsent then _ else _) _
      rw [Store.isAbsent_of_node? hn]
      exact builds_inPlace h ht hsecond hy hbelow₂
    | false =>
      show Builds t (if third.isAbsent then _ else _) _
      cases no with
      | none =>
        obtain rfl : third = .absent := hthird
        exact builds_alone ht ⟨.null, []⟩ rfl none
      | some no =>
        obtain ⟨slots, hn, -⟩ := Store.Holds.exists_node hthird ht
        rw [Store.isAbsent_of_node? hn]
        exact builds_inPlace h ht hthird (hno no rfl) hbelow₃
  · rename_i hnone
    rw [hnone]
    refine (builds_child h ht hsecond hy hbelow₂).bind fun u yes he' hu hyes => ?_
    refine (builds_last (h.extend ht hu he') hu (hthird.extend ht hu he') hno hbelow₃).bind
      fun v no he'' hv hno => ?_
    exact builds_rebuild_choice hv (hfolded.extend ht hv (he'.trans he''))
      (hyes.extend hu hv he'') hno id

/-- A clause whose pattern has been folded. -/
structure HoldsClause (d : Descent) (s : Store) (σ : String → Option Tree) (clause : Clause)
    (c : Tree × Tree) : Prop where
  pattern : s.Holds clause.pattern (c.1.given σ).unwrapped
  body : s.Holds clause.body c.2
  below : d.Below clause.body

theorem HoldsClause.extend {clause : Clause} {c : Tree × Tree} (h : d.HoldsClause s σ clause c)
    (hs : s.Grounded) (ht : t.Grounded) (he : s.Extends t) : d.HoldsClause t σ clause c :=
  ⟨h.pattern.extend hs ht he, h.body.extend hs ht he, h.below⟩

theorem builds_patterns (h : d.Renders s names room σ) (hs : s.Grounded) {ids : List NodeId}
    {cs : List (Tree × Tree)} (hids : s.HoldsAll ids (cs.map Tree.clause))
    (hp : ∀ c ∈ cs, Plain names room c.1) (hb : ∀ id ∈ ids, d.Below id) :
    Builds s (d.patterns ids) fun t clauses => List.Forall₂ (d.HoldsClause t σ) clauses cs := by
  induction ids generalizing s cs with
  | nil =>
    cases cs with
    | nil => exact .pure hs .nil
    | cons c rest => cases hids
  | cons id rest ih =>
    obtain ⟨_, _, hid, hrest, hcs⟩ := List.forall₂_cons_left_iff.1 hids
    obtain ⟨c, cs, rfl, rfl, rfl⟩ := List.map_eq_cons_iff.1 hcs
    obtain ⟨hfirst, hothers⟩ := List.forall_mem_cons.1 hp
    obtain ⟨hlt, hlater⟩ := List.forall_mem_cons.1 hb
    obtain ⟨_, hn, hchildren⟩ := hid.of_branch hs
    obtain ⟨pattern, body, rfl, hpattern, hbody⟩ := hchildren.of_pair
    have hbelow := below_of_branch hs hn (Nat.lt_of_succ_lt hlt)
    unfold patterns
    refine .get ?_
    rw [hn]
    refine (builds_child h hs hpattern hfirst (hbelow pattern List.mem_cons_self)).bind
      fun t folded he ht hfolded => .get ?_
    have hclause : d.HoldsClause t σ ⟨id, t.unwrap folded, body⟩ c :=
      ⟨hfolded.unwrap ht (hfirst.given h.literals).plain, hbody.extend hs ht he,
        hbelow body (List.mem_cons_of_mem _ List.mem_cons_self)⟩
    refine (ih (h.extend hs ht he) ht (Store.HoldsAll.extend hrest hs ht he) hothers hlater).bind
      fun u clauses he' hu hclauses => ?_
    exact .pure hu (.cons (hclause.extend ht hu he') hclauses)

theorem builds_bodies (h : d.Renders s names room σ) (hs : s.Grounded) {clauses : List Clause}
    {cs : List (Tree × Tree)} (hclauses : List.Forall₂ (d.HoldsClause s σ) clauses cs)
    (hp : ∀ c ∈ cs, Plain names room c.2) :
    Builds s (d.bodies clauses) (TellsAll
      (cs.map fun c => Tree.clause ((c.1.given σ).unwrapped, c.2.given σ))) := by
  induction clauses generalizing s cs with
  | nil =>
    cases hclauses
    exact .pure hs .nil
  | cons clause rest ih =>
    obtain ⟨c, cs, hclause, hrest, rfl⟩ := List.forall₂_cons_left_iff.1 hclauses
    obtain ⟨hfirst, hothers⟩ := List.forall_mem_cons.1 hp
    unfold bodies
    refine (builds_child h hs hclause.body hfirst hclause.below).bind
      fun t body he ht hbody => ?_
    have hpattern := hclause.pattern.extend hs ht he
    refine (builds_rebuild ht (.cons hpattern (.cons hbody .nil)) clause.node).bind
      fun u rebuilt he' hu hrebuilt => ?_
    have he := he.trans he'
    refine (ih (h.extend hs hu he) hu (hrest.imp fun _ _ hc => hc.extend hs hu he) hothers).bind
      fun v others he'' hv hall => ?_
    exact .pure hv (.cons (hrebuilt.extend hu hv he'') hall)

/-- A literal matches a pattern exactly if its tree does. -/
theorem decide?_of_holds (hs : s.Grounded) {value pattern : NodeId} {literal tree : Tree}
    (hv : s.Holds value literal) (hl : literal.Literal) (hp : s.Holds pattern tree) :
    s.decide? value pattern = literal.decide? tree := by
  obtain ⟨slots, hn, hparts⟩ := hp.exists_node hs
  obtain ⟨slots', hn', hparts'⟩ := hv.exists_node hs
  have hsame : value = pattern ↔ literal.head = tree.head := by
    constructor
    · rintro rfl
      exact congrArg Tree.head (Option.some.inj (hv.symm.trans hp))
    · intro heq
      obtain rfl := hl.scalar.eq_of_head heq
      exact hs.tree?_inj (hv.knows hs) (hp.knows hs) (hv.trans hp.symm)
  have hnumber : Store.sameNumber ⟨tree.tag, slots⟩ ⟨literal.tag, slots'⟩ =
      Store.sameNumber tree.head literal.head := by
    unfold Store.sameNumber
    rw [Tree.head_text?, Tree.head_text?, Store.text?_of_parts hparts,
      Store.text?_of_parts hparts']
  unfold Store.decide? Tree.decide?
  rw [hn, hn']
  dsimp only
  rw [hnumber]
  by_cases heq : value = pattern
  · rw [if_pos heq, if_pos (hsame.1 heq)]
  · rw [if_neg heq, if_neg (mt hsame.2 heq)]

theorem decided?_of_holds (hs : s.Grounded) {value : NodeId} {literal : Tree}
    (hv : s.Holds value literal) (hl : literal.Literal) {clauses : List Clause}
    {cs : List (Tree × Tree)} (hclauses : List.Forall₂ (d.HoldsClause s σ) clauses cs) :
    Option.Rel (fun clause body => ∃ c ∈ cs, d.HoldsClause s σ clause c ∧ body = c.2.given σ)
      (decided? s value clauses)
      (literal.decided? (cs.map fun c => ((c.1.given σ).unwrapped, c.2.given σ))) := by
  induction hclauses with
  | nil => exact .none
  | @cons clause c rest cs hclause _ ih =>
    rw [List.map_cons]
    unfold decided? Tree.decided?
    rw [decide?_of_holds hs hv hl hclause.pattern]
    cases literal.decide? (c.1.given σ).unwrapped with
    | none => exact .none
    | some holds => cases holds with
      | true => exact .some ⟨c, List.mem_cons_self, hclause, rfl⟩
      | false =>
        dsimp only
        generalize decided? s value rest = found at ih ⊢
        generalize literal.decided? (cs.map _) = found' at ih ⊢
        cases ih with
        | none => exact .none
        | some h =>
          obtain ⟨c', hm, hc⟩ := h
          exact .some ⟨c', List.mem_cons_of_mem _ hm, hc⟩

theorem chosen?_of_holds (hs : s.Grounded) {value : NodeId} (hv : s.Holds value tree)
    (hp : Plain names room tree) {clauses : List Clause} {cs : List (Tree × Tree)}
    (hclauses : List.Forall₂ (d.HoldsClause s σ) clauses cs) :
    Option.Rel (fun clause body => ∃ c ∈ cs, d.HoldsClause s σ clause c ∧ body = c.2.given σ)
      (s.chosen? value clauses)
      (tree.chosen? (cs.map fun c => ((c.1.given σ).unwrapped, c.2.given σ))) := by
  have hliteral : s.isLiteral value = tree.tag.isLiteral := by
    rw [Store.isLiteral, hv.tag? hs]
  unfold Store.chosen? Tree.chosen?
  rw [hliteral]
  by_cases hl : tree.tag.isLiteral = true
  · rw [if_pos hl, if_pos hl]
    exact decided?_of_holds hs hv ⟨hp.scalar_of_isLiteral hl, hl⟩ hclauses
  · rw [if_neg hl, if_neg hl]
    exact .none

theorem builds_case (h : d.Renders s names room σ) (hs : s.Grounded) {scrutinee : Tree}
    {cs : List (Tree × Tree)}
    (hid : s.Holds id (.branch .case (scrutinee :: cs.map Tree.clause))) (hlt : id.index < d.bound)
    (hv : Plain names room scrutinee) (hp : ∀ c ∈ cs, Plain names room c.1)
    (hb : ∀ c ∈ cs, Plain names room c.2) :
    Builds s (d.term .head take id) (TellsTerm
      (Tree.selected (scrutinee.given σ) (cs.map (Prod.map (given σ) (given σ))))) := by
  obtain ⟨_, hn, hids⟩ := hid.of_branch hs
  obtain ⟨first, ids, hfirst, hrest, rfl⟩ := List.forall₂_cons_right_iff.1 hids
  have hbelow := below_of_branch hs hn hlt
  have hdrop : (Node.branch .case (first :: ids)).children.drop 1 = ids := by
    rw [Node.children_branch]
    rfl
  refine builds_term_single hn hlt ⟨nofun, nofun, nofun⟩ ?_
  show Builds s (d.select id (.branch .case (first :: ids))) _
  unfold select
  rw [hdrop]
  refine (builds_child h hs hfirst hv (hbelow first List.mem_cons_self)).bind
    fun t folded he ht hfolded => .get ?_
  have h := h.extend hs ht he
  have hrest := Store.HoldsAll.extend hrest hs ht he
  refine (builds_patterns h ht hrest hp fun id hm => hbelow id (List.mem_cons_of_mem _ hm)).bind
    fun u clauses he' hu hclauses => .get ?_
  have h := h.extend ht hu he'
  have hplain := (hv.given h.literals).plain
  have hvalue : u.Holds (t.unwrap folded) (scrutinee.given σ).unwrapped :=
    (hfolded.unwrap ht hplain).extend ht hu he'
  have hchosen := chosen?_of_holds hu hvalue hplain.unwrapped hclauses
  have hpatterns : (cs.map (Prod.map (given σ) (given σ))).map Tree.bare =
      cs.map fun c => ((c.1.given σ).unwrapped, c.2.given σ) := List.map_map
  dsimp only
  unfold Tree.selected
  rw [hpatterns]
  split
  · rename_i clause hsome
    rw [show u.chosen? _ _ = _ from hsome] at hchosen
    generalize (scrutinee.given σ).unwrapped.chosen? _ = result at hchosen ⊢
    cases hchosen with
    | some hbody =>
      obtain ⟨c, hm, hclause, rfl⟩ := hbody
      exact builds_inPlace h hu hclause.body (hb c hm) hclause.below
  · rename_i hnone
    rw [show u.chosen? _ _ = _ from hnone] at hchosen
    generalize (scrutinee.given σ).unwrapped.chosen? _ = result at hchosen ⊢
    cases hchosen
    refine (builds_bodies h hu hclauses hb).bind fun v bodies he'' hv hbodies => ?_
    have hscrutinee := hfolded.extend ht hv (he'.trans he'')
    refine builds_rebuild hv (.cons hscrutinee ?_) id
    rw [List.map_map]
    exact hbodies

theorem builds_operands (h : d.Renders s names room σ) (hs : s.Grounded) {tag : Tag}
    {operands : List Tree} (hid : s.Holds id (.branch tag operands)) (hlt : id.index < d.bound)
    (ht : tag.IsOperation) (hp : ∀ operand ∈ operands, Plain names room operand) :
    Builds s (d.term .head take id)
      (TellsTerm (Tree.operated tag (operands.map (given σ)))) := by
  obtain ⟨ids, hn, hids⟩ := hid.of_branch hs
  obtain ⟨hrole, hexprs, hlist⟩ := ht
  have hsingle : d.single id (.branch tag ids) = (do
      operation id tag (← d.children (Node.branch tag ids).children)) := by
    cases tag <;> first | rfl | contradiction
  refine builds_term_single hn hlt ?_ ?_
  · refine ⟨?_, ?_, ?_⟩ <;> rintro rfl <;> cases hrole
  · rw [hsingle, Node.children_branch]
    refine (builds_children h hs hids hp (below_of_branch hs hn hlt)).bind
      fun t folded _ ht hfolded => ?_
    exact builds_operation ht hfolded id tag

theorem builds_name (h : d.Renders s names room σ) (hs : s.Grounded) {name : String}
    (hid : s.Holds id (.leaf .ident name)) (hlt : id.index < d.bound) (hname : names name) :
    Builds s (d.term .head take id) (TellsTerm ((σ name).getD (.leaf .ident name))) := by
  have hn := hid.of_leaf hs
  cases hvalue : σ name with
  | some literal =>
    obtain ⟨⟨_, kind, _⟩, number, bound, hfind, rfl, hbound⟩ :=
      h.offers.literal name literal hname hvalue
    obtain ⟨slots, hnb, -⟩ := hbound.exists_node hs
    have hlambda : literal.tag ≠ .lambda := fun htag =>
      (h.literals name literal hvalue).not_leavesLambda (.lambda htag)
    have htext : (Node.leaf .ident name).text?.getD "" = name := rfl
    unfold term
    refine .get ?_
    rw [hn]
    dsimp only
    rw [if_neg (Nat.not_le_of_lt hlt)]
    show Builds s (d.ident .head take id (.leaf .ident name)) _
    unfold ident
    rw [htext]
    dsimp only
    rw [hfind]
    dsimp only
    rw [Store.isAbsent_of_node? hnb]
    refine .get ?_
    rw [hbound.tag? hs, if_neg fun htag => hlambda (Option.some.inj htag)]
    exact .pure hs ⟨hbound, rfl⟩
  | none => exact (gives_name hn hlt (h.offers.itself name hname hvalue)).builds hs ⟨hid, rfl⟩

/-- One term. A lambda has none after it. -/
theorem builds_term (h : d.Renders s names room σ) (hs : s.Grounded) (hid : s.Holds id tree)
    (hp : Plain names room tree) (hlt : id.index < d.bound)
    (htake : tree.tag = .lambda → ∀ t count, Gives t (take count) ([], 0) t) :
    Builds s (d.term .head take id) (TellsTerm (tree.given σ)) := by
  cases hp with
  | scalar hscalar =>
    obtain ⟨slots, hn, -⟩ := hid.exists_node hs
    have hrole := hscalar.role
    rw [Tree.given_scalar hscalar]
    generalize tree.tag = tag at hn hrole
    have hsame : d.single id ⟨tag, slots⟩ = Pure.pure id := by
      unfold single
      cases tag <;> first | rfl | cases hrole
    refine builds_term_single hn hlt ⟨?_, ?_, ?_⟩ (hsame ▸ .pure hs hid) <;>
      · rintro rfl
        cases hrole
  | name hname =>
    rw [Tree.given_name]
    exact builds_name h hs hid hlt hname
  | row ht hterms hl hu =>
    rw [Tree.given_row ht]
    exact builds_row h hs hid hlt ht hterms hl
  | paren hterms hl hu hk =>
    rw [Tree.given_paren]
    exact builds_paren h hs hid hlt hterms hl hk
  | lambda hbody =>
    rw [Tree.given_lambda]
    exact builds_lambda h hs hid hlt hbody (htake rfl)
  | binding hvalue =>
    rw [Tree.given_binding]
    exact builds_binding h hs hid hlt hvalue
  | choice hc hy hn =>
    obtain ⟨first, second, third, hnode, hfirst, hsecond, hthird⟩ := hid.of_choice hs
    rw [Tree.given_choice]
    exact builds_conditional h hs hnode hlt hfirst hsecond hthird hc hy hn
  | case hv hp hb =>
    rw [Tree.given_case]
    exact builds_case h hs hid hlt hv hp hb
  | operation ht hp =>
    rw [Tree.given_operation ht]
    exact builds_operands h hs hid hlt ht hp

/-- Terms in a row. -/
theorem builds_terms (h : d.Renders s names room σ) (hs : s.Grounded) {ids : List NodeId}
    {trees : List Tree} (hids : s.HoldsAll ids trees) (hp : ∀ tree ∈ trees, Plain names room tree)
    (hl : Tree.Apart trees) (hlt : ∀ id ∈ ids, id.index < d.bound) :
    Builds s (d.terms ids .head ids.length 0)
      fun t result => t.HoldsAll result.1 (trees.map (given σ)) := by
  induction ids generalizing s trees with
  | nil =>
    cases hids
    exact .pure hs .nil
  | cons id rest ih =>
    obtain ⟨tree, others, hid, hrest, rfl⟩ := List.forall₂_cons_left_iff.1 hids
    obtain ⟨hfirst, hothers⟩ := List.forall_mem_cons.1 hp
    obtain ⟨hbefore, hlater⟩ := List.forall_mem_cons.1 hlt
    obtain ⟨hnone, hapart⟩ := List.pairwise_cons.1 hl
    have htake : tree.tag = .lambda → ∀ t count,
        Gives t ((fun count => d.terms rest .argument count 0) count) ([], 0) t := by
      intro htag t count
      cases hrest with
      | nil => exact gives_pure t _
      | cons => exact absurd (.lambda htag) (hnone _ List.mem_cons_self)
    refine (builds_term h hs hid hfirst hbefore htake).bind fun t result he ht hresult => ?_
    obtain ⟨folded, taken⟩ := result
    obtain ⟨hfolded, rfl⟩ : t.Holds folded (tree.given σ) ∧ taken = 0 := hresult
    refine (ih (h.extend hs ht he) ht (Store.HoldsAll.extend hrest hs ht he) hothers hapart
      hlater).bind fun u result he' hu hall => ?_
    exact .pure hu (.cons (hfolded.extend ht hu he') hall)

end Descent

/-! ## Nodes -/

section

open Fold

variable {s t : Store} {env : Environment} {names : String → Prop} {room : Nat}
  {σ : String → Option Tree} {id : NodeId} {tree : Tree}
  {inside : (name : String) → (parent : Option Nat) → List Word → NodeId → Fold NodeId}

theorem builds_foldSequence (hs : s.Grounded) (hσ : Literals σ) (henv : env.Offers s names σ)
    (hinside : Descent.RendersInside s names room σ inside) (bound : Nat) {ids : List NodeId}
    {trees : List Tree} (hids : s.HoldsAll ids trees) (hp : ∀ tree ∈ trees, Plain names room tree)
    (hl : Tree.Apart trees) (hlt : ∀ id ∈ ids, id.index < bound) :
    Builds s (foldSequence env inside bound ids) (TellsAll (trees.map (given σ))) := by
  induction bound generalizing s ids trees with
  | zero =>
    cases hids with
    | nil => exact .pure hs .nil
    | cons => exact absurd (hlt _ List.mem_cons_self) (Nat.not_lt_zero _)
  | succ bound ih =>
    have hd : Descent.Renders ⟨env, bound + 1, foldSequence env inside bound, inside⟩ s names room
        σ := by
      refine ⟨hσ, henv, fun t ids trees he ht hids hp hl hb => ?_, hinside⟩
      refine ih ht (henv.extend hs ht he) ?_ hids hp hl fun id hm => ?_
      · exact fun u less params body tree hu => hinside u less params body tree (he.trans hu)
      · exact Nat.lt_of_succ_lt_succ (hb id hm)
    exact (Descent.builds_terms hd hs hids hp hl hlt).bind fun t result _ ht hall => .pure ht hall

/-- The one node of a sequence that is folded by itself. -/
theorem builds_only (hs : s.Grounded) (hσ : Literals σ) (henv : env.Offers s names σ)
    (hinside : Descent.RendersInside s names room σ inside) (hid : s.Holds id tree)
    (hp : Plain names room tree) :
    Builds s (do
      if id.isAbsent then return id
      return (← foldSequence env inside (id.index + 1) [id]).headD id) (Tells (tree.given σ)) := by
  obtain ⟨slots, hn, -⟩ := hid.exists_node hs
  rw [Store.isAbsent_of_node? hn]
  refine (builds_foldSequence hs hσ henv hinside _ (.cons hid .nil) (List.forall_mem_singleton.2 hp)
    (List.pairwise_singleton _ _) (List.forall_mem_singleton.2 (Nat.lt_succ_self _))).bind
      fun t ids _ ht hids => ?_
  obtain ⟨folded, rfl, hfolded⟩ := Store.HoldsAll.of_single hids
  exact .pure ht hfolded

/-- A plain node by itself becomes what literals make of its tree. -/
theorem builds_foldWithin (hs : s.Grounded) (hσ : Literals σ) (henv : env.Offers s names σ)
    (hid : s.Holds id tree) (hp : Plain names room tree) :
    Builds s (foldWithin room env id) (Tells (tree.given σ)) := by
  -- the body of a lambda has one level of lambdas less, and is folded with room for one scope less
  induction room generalizing s env names σ id tree with
  | zero =>
    unfold foldWithin
    exact builds_only hs hσ henv (fun t less _ _ _ _ _ hless => absurd hless (by omega)) hid hp
  | succ room ih =>
    unfold foldWithin
    refine builds_only hs hσ henv (fun t less params body tree he ht hless hbody hp => ?_) hid hp
    obtain rfl := Nat.succ.inj hless
    exact ih ht (hσ.without params) ((henv.extend hs ht he).entered params) hbody hp

end

end Juxta
