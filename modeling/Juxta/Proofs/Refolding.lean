import Juxta.Proofs.Literals
import Juxta.Proofs.ReducedFolding
import Juxta.Proofs.SameTree

/-!
# Folding what has been folded

A node that has been folded is left as it is when it is folded again, unless folding has brought a
lambda in front of other terms, has left a name that stands for something where the result is, has
made a field or a pattern of a sequence of one term, or has put lambdas in one another more deeply
than scopes may be nested.

* `Environment.Means` : names that folding replaces;
* `Store.Quiet`, `Store.NestedWithin` : nodes in which none of these four things occurs;
* `Store.Settled` : reduced nodes in which none of them occurs;
* `Descent.leaves_term`, `Descent.leaves_terms` : settled terms and sequences are left as they are;
* `fold_settled` : settled nodes are left as they are;
* `fold_fold` : what has been folded.
-/

namespace Juxta

/-! ## Names -/

namespace Environment

variable {env : Environment} {name : String}

/-- A name that stands for something else than itself. -/
def Means (env : Environment) (name : String) : Prop :=
  ∃ word number, env.find? name = some (word, number) ∧ word.kind ≠ .pending ∧
    word.kind ≠ .value .absent

/-- The parameters of a lambda stand for themselves in its body, and all other names for what they
stand for where the lambda is. -/
theorem Means.of_entered {params : List String}
    (h : (env.entered "lambda" none (bindParams 0 params [])).Means name) :
    name ∉ params ∧ env.Means name := by
  have habsent : ∀ (offset : Nat) (params : List String), ∀ word ∈ bindParams offset params [],
      word.kind = .value .absent := by
    intro offset params
    induction params generalizing offset with
    | nil => exact List.forall_mem_nil _
    | cons param rest ih => exact List.forall_mem_cons.2 ⟨rfl, ih (offset + 1)⟩
  obtain ⟨word, number, hfind, hpending, hvalue⟩ := h
  rw [find?_entered] at hfind
  split at hfind
  · rename_i found hfound
    cases hfind
    rcases get?_wordsWith hfound with ⟨hm, -⟩ | hold
    · exact absurd (habsent 0 params word hm) hvalue
    · cases hold
  · rename_i hnone
    refine ⟨fun hm => ?_, word, number, hfind, hpending, hvalue⟩
    rw [← names_bindParams 0 params []] at hm
    exact get?_wordsWith_ne_none (.inl (List.mem_map.1 hm)) hnone

end Environment

/-! ## Nodes -/

namespace Store

variable {s : Store} {env : Environment} {room : Nat} {id : NodeId} {node : Node}

theorem Beneath.trans {root mid : NodeId} (h : s.Beneath root mid) (k : s.Beneath mid id) :
    s.Beneath root id := by
  induction k with
  | root => exact h
  | child _ hn hm ih => exact ih.child hn hm
  | absent => exact .absent

/-- A lambda that takes the terms after it. -/
def Takes (s : Store) (id : NodeId) : Prop := s.tag? id = some .lambda ∧ s.params id ≠ []

/-- Terms of which none but the last one is a lambda that takes terms. -/
abbrev Apart (s : Store) (ids : List NodeId) : Prop := ids.Pairwise fun first _ => ¬ s.Takes first

/-- Lambdas stand in one another no more than so many levels deep. -/
inductive NestedWithin (s : Store) : Nat → NodeId → Prop where
  | lambda {room : Nat} {id : NodeId} {node : Node} (h : s.node? id = some node)
      (ht : node.tag = .lambda) (hb : NestedWithin s room (node.child 1)) :
      NestedWithin s (room + 1) id
  | other {room : Nat} {id : NodeId} (ht : s.tag? id ≠ some .lambda)
      (hc : ∀ node child, s.node? id = some node → child ∈ node.children →
        NestedWithin s room child) : NestedWithin s room id

/-- Nodes in which folding has nothing left to put together. -/
structure Quiet (s : Store) (env : Environment) (id : NodeId) : Prop where
  /-- No lambda can take the terms after it. -/
  apart : ∀ row node, s.Beneath id row → s.node? row = some node →
    node.tag = .exprs ∨ node.tag = .list → s.Apart node.children
  /-- No name stands for something. -/
  names : ∀ name, s.Free name id → ¬ env.Means name
  /-- No value of a field is a sequence of one term. -/
  fields : ∀ field node, s.Beneath id field → s.node? field = some node → node.tag = .binding →
    s.unwrap (node.child 1) = node.child 1
  /-- No pattern is a sequence of one term. -/
  patterns : ∀ clause node, s.Beneath id clause → s.node? clause = some node →
    node.tag = .clause → s.unwrap (node.child 0) = node.child 0

/-- Reduced nodes in which folding has nothing left to put together. -/
structure Settled (s : Store) (env : Environment) (room : Nat) (id : NodeId) : Prop where
  reduced : s.Reduced id
  quiet : s.Quiet env id
  nested : s.NestedWithin room id

/-- What is below a node that is no lambda. -/
theorem Settled.child (h : s.Settled env room id) (hn : s.node? id = some node)
    (ht : node.tag ≠ .lambda) {child : NodeId} (hm : child ∈ node.children)
    (hr : s.Reduced child) : s.Settled env room child := by
  have hbelow : ∀ {other}, s.Beneath child other → s.Beneath id other :=
    fun hother => (Beneath.child .root hn hm).trans hother
  refine ⟨hr, ⟨fun row node hrow => h.quiet.apart row node (hbelow hrow),
    fun name hfree => h.quiet.names name (.child hn ht hm hfree),
    fun field node hfield => h.quiet.fields field node (hbelow hfield),
    fun clause node hclause => h.quiet.patterns clause node (hbelow hclause)⟩, ?_⟩
  cases h.nested with
  | lambda hn' ht' => exact absurd (Option.some.inj (hn'.symm.trans hn) ▸ ht') ht
  | other _ hc => exact hc node child hn hm

/-- The body of a lambda. -/
theorem Settled.body {list body : NodeId} (h : s.Settled env room id)
    (hn : s.node? id = some (.branch .lambda [list, body])) (hr : s.Reduced body) :
    ∃ less, room = less + 1 ∧
      s.Settled (env.entered "lambda" none (bindParams 0 (s.params id) [])) less body := by
  have hbelow : ∀ {other}, s.Beneath body other → s.Beneath id other :=
    fun hother => (Beneath.child .root hn (List.mem_cons_of_mem _ List.mem_cons_self)).trans hother
  cases h.nested with
  | other ht => exact absurd (tag?_of_node? hn) ht
  | lambda hn' _ hb =>
    obtain rfl := Option.some.inj (hn'.symm.trans hn)
    refine ⟨_, rfl, hr, ⟨fun row node hrow => h.quiet.apart row node (hbelow hrow),
      fun name hfree hmeans => ?_,
      fun field node hfield => h.quiet.fields field node (hbelow hfield),
      fun clause node hclause => h.quiet.patterns clause node (hbelow hclause)⟩, hb⟩
    obtain ⟨hparam, hmeans⟩ := hmeans.of_entered
    exact h.quiet.names name (.body hn rfl hparam hfree) hmeans

end Store

/-! ## Terms -/

namespace Descent

open Fold

/-- What settled terms rely on: settled sequences below them and the settled bodies of lambdas are
left as they are. -/
structure Leaves (d : Descent) (s : Store) (room : Nat) : Prop where
  grounded : s.Grounded
  below : ∀ ids, (∀ id ∈ ids, s.Settled d.env room id ∧ d.Below id) → s.Apart ids →
    Gives s (d.below ids) ids s
  inside : ∀ less params body, room = less + 1 →
    s.Settled (d.env.entered "lambda" none (bindParams 0 params [])) less body →
    Gives s (d.inside "lambda" none (bindParams 0 params []) body) body s

variable {d : Descent} {s : Store} {room : Nat} {id : NodeId} {node : Node}
  {take : Nat → Fold (List NodeId × Nat)}

theorem leaves_child (h : d.Leaves s room) (hid : s.Settled d.env room id) (hb : d.Below id) :
    Gives s (d.child id) id s := by
  obtain ⟨node, hnode⟩ := hid.reduced.present
  refine gives_child hnode (h.below [id] ?_ (List.pairwise_singleton _ id))
  exact List.forall_mem_singleton.2 ⟨hid, hb⟩

theorem leaves_children (h : d.Leaves s room) {ids : List NodeId}
    (hids : ∀ id ∈ ids, s.Settled d.env room id ∧ d.Below id) :
    Gives s (d.children ids) ids s := by
  induction ids with
  | nil => exact gives_pure s []
  | cons id rest ih =>
    obtain ⟨⟨hid, hb⟩, hrest⟩ := List.forall_mem_cons.1 hids
    exact gives_children_cons (leaves_child h hid hb) (ih hrest)

/-- Settled terms below a node. -/
theorem Leaves.covers (h : d.Leaves s room) (hid : s.Settled d.env room id)
    (hn : s.node? id = some node) (ht : node.tag ≠ .lambda) (hlt : id.index < d.bound)
    {child : NodeId} (hm : child ∈ node.children) (hr : s.Reduced child) :
    s.Settled d.env room child ∧ d.Below child :=
  ⟨hid.child hn ht hm hr, (covers_of_lt h.grounded hn hlt).children child hm⟩

theorem leaves_row (h : d.Leaves s room) (hid : s.Settled d.env room id) {tag : Tag}
    {ids : List NodeId} (hn : s.node? id = some (.branch tag ids)) (hlt : id.index < d.bound)
    (ht : tag = .exprs ∨ tag = .list) (hi : s.AllReduced ids) :
    Gives s (d.term .head take id) (id, 0) s := by
  have hapart := hid.quiet.apart id _ .root hn ht
  rw [Node.children_branch] at hapart
  have hbelow : Gives s (d.below (Node.branch tag ids).children) ids s := by
    rw [Node.children_branch]
    refine h.below ids (fun child hm => ?_) hapart
    refine h.covers hid hn (fun hl => ?_) hlt ?_ (hi child hm)
    · rcases ht with rfl | rfl <;> cases hl
    · rwa [Node.children_branch]
  refine gives_term_single hn hlt ?_ ?_
  · rcases ht with rfl | rfl <;> exact ⟨nofun, nofun, nofun⟩
  · rcases ht with rfl | rfl <;> exact hbelow.bind (gives_rebuild_stored hn id)

theorem leaves_paren (h : d.Leaves s room) (hid : s.Settled d.env room id) {sequence : NodeId}
    {ids : List NodeId} (hn : s.node? id = some (.branch .paren [sequence]))
    (hs : s.node? sequence = some (.branch .exprs ids)) (hlt : id.index < d.bound)
    (hi : s.AllReduced ids) (hk : ∀ only, ids = [only] → s.NeedsParens only) :
    Gives s (d.term .head take id) (id, 0) s := by
  have hsequence : s.Settled d.env room sequence :=
    hid.child hn nofun List.mem_cons_self (.row hs (.inl rfl) hi)
  have hbefore : sequence.index < d.bound :=
    Nat.lt_trans (h.grounded id _ hn sequence List.mem_cons_self) hlt
  have hapart := hsequence.quiet.apart sequence _ .root hs (.inl rfl)
  rw [Node.children_branch] at hapart
  have hbelow : Gives s (d.below ids) ids s := by
    refine h.below ids (fun child hm => ?_) hapart
    refine h.covers hsequence hs nofun hbefore ?_ (hi child hm)
    rwa [Node.children_branch]
  have hkeep : Gives s (do
      let inner ← rebuild sequence .exprs ids
      return (← rebuild id .paren [inner], 0)) (id, 0) s :=
    (gives_rebuild_stored hs sequence).bind ((gives_rebuild_stored hn id).bind (gives_pure s _))
  unfold term
  refine (gives_get s).bind ?_
  rw [hn]
  dsimp only
  rw [if_neg (Nat.not_le_of_lt hlt)]
  show Gives s (d.paren .head take id (.branch .paren [sequence])) (id, 0) s
  unfold paren
  refine (gives_get s).bind ?_
  have hinner : (Node.branch .paren [sequence]).child 0 = sequence := rfl
  have htag : (Node.branch .exprs ids).tag = .exprs := rfl
  rw [hinner, hs]
  dsimp only
  rw [if_pos htag, Node.children_branch]
  refine hbelow.bind ((gives_get s).bind ?_)
  split
  · rename_i only
    rcases hk only rfl with htag | htag | htag
    all_goals
      rw [htag]
      exact hkeep
  · exact hkeep

/-- A lambda by itself. -/
theorem leaves_body (h : d.Leaves s room) (hid : s.Settled d.env room id) {list body : NodeId}
    (hn : s.node? id = some (.branch .lambda [list, body])) (hb : s.Reduced body) :
    Gives s (d.lambda id (.branch .lambda [list, body])) id s := by
  obtain ⟨less, hless, hbody⟩ := hid.body hn hb
  unfold lambda
  exact (gives_get s).bind ((h.inside less _ body hless hbody).bind (gives_rebuild_stored hn id))

theorem leaves_lambda (h : d.Leaves s room) (hid : s.Settled d.env room id) {list body : NodeId}
    (hn : s.node? id = some (.branch .lambda [list, body])) (hlt : id.index < d.bound)
    (hb : s.Reduced body) (htake : Gives s (take (s.params id).length) ([], 0) s) :
    Gives s (d.term .head take id) (id, 0) s := by
  unfold term
  refine (gives_get s).bind ?_
  rw [hn]
  dsimp only
  rw [if_neg (Nat.not_le_of_lt hlt)]
  refine (leaves_body h hid hn hb).bind ?_
  unfold applyFollowing
  rw [if_neg (by decide)]
  exact (gives_get s).bind (htake.bind (gives_pure s _))

theorem leaves_binding (h : d.Leaves s room) (hid : s.Settled d.env room id) {key value : NodeId}
    (hn : s.node? id = some (.branch .binding [key, value])) (hlt : id.index < d.bound)
    (hv : s.Reduced value) : Gives s (d.term .head take id) (id, 0) s := by
  have hvalue := h.covers hid hn nofun hlt (List.mem_cons_of_mem _ List.mem_cons_self) hv
  have hgroup : s.unwrap value = value := hid.quiet.fields id _ .root hn rfl
  refine gives_term_single hn hlt ⟨nofun, nofun, nofun⟩ ?_
  refine (leaves_child h hvalue.1 hvalue.2).bind ((gives_get s).bind ?_)
  rw [hgroup]
  exact gives_rebuild_stored hn id

theorem leaves_choice (h : d.Leaves s room) (hid : s.Settled d.env room id)
    {condition yes no : NodeId} (hn : s.node? id = some (.branch .ifThen [condition, yes, no]))
    (hlt : id.index < d.bound) (hc : s.Reduced condition) (hy : s.Reduced yes)
    (hno : no ≠ .absent → s.Reduced no) (ho : s.literalTruth? (s.unwrap condition) = none) :
    Gives s (d.term .head take id) (id, 0) s := by
  have hchild : ∀ child ∈ [condition, yes, no], s.Reduced child →
      Gives s (d.child child) child s := by
    intro child hm hr
    have hcovers := h.covers hid hn nofun hlt hm hr
    exact leaves_child h hcovers.1 hcovers.2
  have hlast : Gives s (d.child no) no s := by
    by_cases habsent : no = .absent
    · rw [habsent]
      exact gives_pure s _
    · exact hchild no (by simp) (hno habsent)
  refine gives_term_single hn hlt ⟨nofun, nofun, nofun⟩ ?_
  show Gives s (d.conditional id (.branch .ifThen [condition, yes, no])) id s
  unfold conditional
  refine (hchild condition (by simp) hc).bind ((gives_get s).bind ?_)
  rw [ho]
  exact (hchild yes (by simp) hy).bind (hlast.bind (gives_rebuild_stored hn id))

/-- Clauses that settled cases may have. -/
abbrev SettledClauses (d : Descent) (s : Store) (room : Nat) (ids : List NodeId) : Prop :=
  ∀ id ∈ ids, s.Settled d.env room id ∧ d.Below id ∧ s.tag? id = some .clause

theorem leaves_patterns (h : d.Leaves s room) {ids : List NodeId}
    (hids : d.SettledClauses s room ids) : Gives s (d.patterns ids) (s.clauses ids) s := by
  induction ids with
  | nil => exact gives_pure s []
  | cons id rest ih =>
    obtain ⟨⟨hid, hb, htag⟩, hrest⟩ := List.forall_mem_cons.1 hids
    obtain ⟨node, hnode, htag⟩ := Option.map_eq_some_iff.1 htag
    obtain ⟨pattern, body, rfl, hp, -⟩ := hid.reduced.of_clause hnode htag
    have hpattern := h.covers hid hnode nofun (Nat.lt_of_succ_lt hb) List.mem_cons_self hp
    have hgroup : s.unwrap pattern = pattern := hid.quiet.patterns id _ .root hnode rfl
    unfold patterns
    refine (gives_get s).bind ?_
    rw [hnode, Store.clauses_cons hnode]
    refine (leaves_child h hpattern.1 hpattern.2).bind ((gives_get s).bind ?_)
    rw [hgroup]
    exact (ih hrest).bind (gives_pure s _)

theorem leaves_bodies (h : d.Leaves s room) {ids : List NodeId}
    (hids : d.SettledClauses s room ids) : Gives s (d.bodies (s.clauses ids)) ids s := by
  induction ids with
  | nil => exact gives_pure s []
  | cons id rest ih =>
    obtain ⟨⟨hid, hb, htag⟩, hrest⟩ := List.forall_mem_cons.1 hids
    obtain ⟨node, hnode, htag⟩ := Option.map_eq_some_iff.1 htag
    obtain ⟨pattern, body, rfl, -, hbody⟩ := hid.reduced.of_clause hnode htag
    have hcovers := h.covers hid hnode nofun (Nat.lt_of_succ_lt hb)
      (List.mem_cons_of_mem _ List.mem_cons_self) hbody
    rw [Store.clauses_cons hnode]
    unfold bodies
    refine (leaves_child h hcovers.1 hcovers.2).bind ?_
    exact (gives_rebuild_stored hnode id).bind ((ih hrest).bind (gives_pure s _))

theorem leaves_case (h : d.Leaves s room) (hid : s.Settled d.env room id) {scrutinee : NodeId}
    {ids : List NodeId} (hn : s.node? id = some (.branch .case (scrutinee :: ids)))
    (hlt : id.index < d.bound) (hs : s.Reduced scrutinee) (hc : s.AllReduced ids)
    (ht : ∀ clause ∈ ids, s.tag? clause = some .clause)
    (ho : s.chosen? (s.unwrap scrutinee) (s.clauses ids) = none) :
    Gives s (d.term .head take id) (id, 0) s := by
  have hcovers : ∀ child ∈ scrutinee :: ids, s.Reduced child →
      s.Settled d.env room child ∧ d.Below child := by
    intro child hm hr
    refine h.covers hid hn nofun hlt ?_ hr
    rwa [Node.children_branch]
  have hscrutinee := hcovers scrutinee List.mem_cons_self hs
  have hclauses : d.SettledClauses s room ids := by
    intro clause hm
    obtain ⟨hsettled, hb⟩ := hcovers clause (List.mem_cons_of_mem _ hm) (hc clause hm)
    exact ⟨hsettled, hb, ht clause hm⟩
  have hrest : (Node.branch .case (scrutinee :: ids)).children.drop 1 = ids := by
    rw [Node.children_branch]
    rfl
  refine gives_term_single hn hlt ⟨nofun, nofun, nofun⟩ ?_
  show Gives s (d.select id (.branch .case (scrutinee :: ids))) id s
  unfold select
  rw [hrest]
  refine (leaves_child h hscrutinee.1 hscrutinee.2).bind ((gives_get s).bind ?_)
  refine (leaves_patterns h hclauses).bind ((gives_get s).bind ?_)
  dsimp only
  split
  · rename_i hsome
    exact nomatch (show s.chosen? _ _ = _ from hsome).symm.trans ho
  · exact (leaves_bodies h hclauses).bind (gives_rebuild_stored hn id)

/-- Operations and clauses are folded with what stands below them. -/
theorem leaves_operands (h : d.Leaves s room) (hid : s.Settled d.env room id) {tag : Tag}
    {operands : List NodeId} (hn : s.node? id = some (.branch tag operands))
    (hlt : id.index < d.bound) (ht : tag.IsOperation ∨ tag = .clause)
    (hi : s.AllReduced operands) (ho : s.computed? tag operands = none) :
    Gives s (d.term .head take id) (id, 0) s := by
  have hrole : tag.role = .terms ∨ tag.role = .clause := ht.imp Tag.IsOperation.role (congrArg _)
  have hchildren : Gives s (d.children (Node.branch tag operands).children) operands s := by
    rw [Node.children_branch]
    refine leaves_children h fun operand hm => h.covers hid hn ?_ hlt ?_ (hi operand hm)
    · rintro rfl
      rcases hrole with hrole | hrole <;> cases hrole
    · rwa [Node.children_branch]
  have hoperation : Gives s (operation id tag operands) id s := by
    unfold operation
    refine (gives_get s).bind ?_
    rw [ho]
    exact gives_rebuild_stored hn id
  have hsingle : d.single id (.branch tag operands) = (do
      operation id tag (← d.children (Node.branch tag operands).children)) := by
    rcases ht with ⟨hterms, hexprs, hlist⟩ | rfl
    · cases tag <;> first | rfl | contradiction
    · rfl
  refine gives_term_single hn hlt ?_ ?_
  · refine ⟨?_, ?_, ?_⟩ <;> rintro rfl <;> rcases hrole with hrole | hrole <;> cases hrole
  · rw [hsingle]
    exact hchildren.bind hoperation

/-- A name that stands for itself. -/
theorem gives_name {stand : Stand} {name : String} (hn : s.node? id = some (.leaf .ident name))
    (hlt : id.index < d.bound) (hmeans : ¬ d.env.Means name) :
    Gives s (d.term stand take id) (id, 0) s := by
  unfold term
  refine (gives_get s).bind ?_
  rw [hn]
  dsimp only
  rw [if_neg (Nat.not_le_of_lt hlt)]
  show Gives s (d.ident stand take id (.leaf .ident name)) (id, 0) s
  have hname : (Node.leaf .ident name).text?.getD "" = name := rfl
  unfold ident
  rw [hname]
  dsimp only
  split
  · rename_i bound _ _ hfind
    split
    · exact gives_pure s _
    · rename_i hpresent
      refine absurd ⟨_, _, hfind, nofun, fun hvalue => hpresent ?_⟩ hmeans
      cases hvalue
      rfl
  · rename_i hfind
    exact absurd ⟨_, _, hfind, nofun, nofun⟩ hmeans
  · rename_i hfind
    exact absurd ⟨_, _, hfind, nofun, nofun⟩ hmeans
  · exact gives_pure s _

/-- One term. A lambda that takes terms has none after it. -/
theorem leaves_term (h : d.Leaves s room) (hid : s.Settled d.env room id)
    (hlt : id.index < d.bound) (htake : s.Takes id → ∀ count, Gives s (take count) ([], 0) s)
    (hnone : Gives s (take 0) ([], 0) s) : Gives s (d.term .head take id) (id, 0) s := by
  cases hid.reduced with
  | @scalar _ node hn ht =>
    refine gives_term_single hn hlt ⟨?_, ?_, ?_⟩ ?_
    · rintro hident
      cases hident ▸ ht
    · rintro hlambda
      cases hlambda ▸ ht
    · rintro hparen
      cases hparen ▸ ht
    · unfold single
      obtain ⟨tag, slots⟩ := node
      cases tag <;> first | exact gives_pure s _ | cases ht
  | name hn => exact gives_name hn hlt (hid.quiet.names _ (.ident hn rfl rfl))
  | row hn ht hi => exact leaves_row h hid hn hlt ht hi
  | paren hn hs hi hk => exact leaves_paren h hid hn hs hlt hi hk
  | lambda hn hb =>
    refine leaves_lambda h hid hn hlt hb ?_
    by_cases hp : s.params id = []
    · rw [hp]
      exact hnone
    · exact htake ⟨Store.tag?_of_node? hn, hp⟩ _
  | binding hn hv => exact leaves_binding h hid hn hlt hv
  | choice hn hc hy hno ho => exact leaves_choice h hid hn hlt hc hy hno ho
  | clause hn hp hb =>
    refine leaves_operands h hid hn hlt (.inr rfl) ?_ (s.computed?_clause _ _)
    exact List.forall_mem_cons.2 ⟨hp, List.forall_mem_singleton.2 hb⟩
  | case hn hs hc ht ho => exact leaves_case h hid hn hlt hs hc ht ho
  | operation hn ht hi ho => exact leaves_operands h hid hn hlt (.inl ht) hi ho

/-- Terms in a row. -/
theorem leaves_terms (h : d.Leaves s room) {ids : List NodeId}
    (hids : ∀ id ∈ ids, s.Settled d.env room id ∧ id.index < d.bound) (hapart : s.Apart ids) :
    Gives s (d.terms ids .head ids.length 0) (ids, ids.length) s := by
  induction ids with
  | nil => exact gives_pure s _
  | cons id rest ih =>
    obtain ⟨⟨hid, hlt⟩, hrest⟩ := List.forall_mem_cons.1 hids
    obtain ⟨hfirst, hlater⟩ := List.pairwise_cons.1 hapart
    have hterm : Gives s (d.term .head (fun count => d.terms rest .argument count 0) id)
        (id, 0) s := by
      refine leaves_term h hid hlt (fun htakes count => ?_) ?_
      · cases rest with
        | nil => exact gives_pure s _
        | cons next more => exact absurd htakes (hfirst next List.mem_cons_self)
      · cases rest with
        | nil => exact gives_pure s _
        | cons next more => exact gives_pure s _
    have hcount : 1 + 0 + rest.length = (id :: rest).length := Nat.add_comm 1 rest.length
    refine hterm.bind ((ih hrest hlater).bind ?_)
    show Gives s (Pure.pure (id :: rest, 1 + 0 + rest.length)) _ s
    rw [hcount]
    exact gives_pure s _

end Descent

/-! ## Nodes -/

section

open Fold

variable {s : Store} {env : Environment} {room : Nat} {id : NodeId}
  {inside : (name : String) → (parent : Option Nat) → List Word → NodeId → Fold NodeId}

/-- The bodies of lambdas are left as they are. -/
abbrev LeavesInside (s : Store) (env : Environment) (room : Nat)
    (inside : (name : String) → (parent : Option Nat) → List Word → NodeId → Fold NodeId) : Prop :=
  ∀ less params body, room = less + 1 →
    s.Settled (env.entered "lambda" none (bindParams 0 params [])) less body →
    Gives s (inside "lambda" none (bindParams 0 params []) body) body s

theorem leaves_foldSequence (hs : s.Grounded) (hinside : LeavesInside s env room inside)
    (bound : Nat) {ids : List NodeId}
    (hids : ∀ id ∈ ids, s.Settled env room id ∧ id.index < bound) (hapart : s.Apart ids) :
    Gives s (foldSequence env inside bound ids) ids s := by
  induction bound generalizing ids with
  | zero =>
    cases ids with
    | nil => exact (gives_pure s _).bind (gives_pure s _)
    | cons id rest => exact absurd (hids id List.mem_cons_self).2 (Nat.not_lt_zero _)
  | succ bound ih =>
    have hd : Descent.Leaves ⟨env, bound + 1, foldSequence env inside bound, inside⟩ s room :=
      ⟨hs, fun ids hids => ih fun id hm => ⟨(hids id hm).1, Nat.lt_of_succ_lt_succ (hids id hm).2⟩,
        hinside⟩
    exact (Descent.leaves_terms hd hids hapart).bind (gives_pure s _)

/-- What the terms below such a sequence rely on. -/
theorem leaves_descent (hs : s.Grounded) (hinside : LeavesInside s env room inside) (bound : Nat) :
    Descent.Leaves ⟨env, bound + 1, foldSequence env inside bound, inside⟩ s room :=
  ⟨hs, fun _ hids hapart => leaves_foldSequence hs hinside bound (fun id hm =>
    ⟨(hids id hm).1, Nat.lt_of_succ_lt_succ (hids id hm).2⟩) hapart, hinside⟩

/-- The one node of a sequence that is folded by itself. -/
theorem leaves_alone (hs : s.Grounded) (hinside : LeavesInside s env room inside)
    (hid : s.Settled env room id) :
    Gives s (do
      if id.isAbsent then return id
      return (← foldSequence env inside (id.index + 1) [id]).headD id) id s := by
  rw [hid.reduced.present.isAbsent]
  refine Gives.bind (a := [id]) ?_ (gives_pure s _)
  refine leaves_foldSequence hs hinside _ ?_ (List.pairwise_singleton _ id)
  exact List.forall_mem_singleton.2 ⟨hid, Nat.lt_succ_self _⟩

theorem foldWithin_settled (hs : s.Grounded) (hid : s.Settled env room id) :
    Gives s (foldWithin room env id) id s := by
  -- the body of a lambda has one level of lambdas less, and is folded with room for one scope less
  induction room generalizing env id with
  | zero =>
    unfold foldWithin
    exact leaves_alone hs (fun less _ _ hless => absurd hless (Nat.zero_ne_add_one less)) hid
  | succ room ih =>
    unfold foldWithin
    refine leaves_alone hs (fun less params body hless hbody => ?_) hid
    obtain rfl := Nat.succ.inj hless
    exact ih hbody

/-- Settled nodes are left as they are. -/
theorem fold_settled (hs : s.Grounded) (hid : s.Settled env env.room id) :
    Gives s (fold env id) id s := foldWithin_settled hs hid

/-- What stands in a scope that is entered is left as it is. -/
theorem leavesInside_foldEntered (hs : s.Grounded) (env : Environment) :
    LeavesInside s env env.room (foldEntered fold env) := by
  intro less params body hless hbody
  have hroom : (env.entered "lambda" none (bindParams 0 params [])).room = less := by
    unfold Environment.entered
    rw [Environment.room_addWords_push, hless, Nat.add_sub_cancel]
  have hfree : ¬ env.limit ≤ env.depth := by
    unfold Environment.room at hless
    omega
  have hentered : foldEntered fold env "lambda" none (bindParams 0 params []) body =
      fold (env.entered "lambda" none (bindParams 0 params [])) body := by
    unfold foldEntered Environment.enter
    rw [if_neg hfree]
    rfl
  rw [hentered]
  exact fold_settled hs (hroom ▸ hbody)

/-- What has been folded is left as it is when it is folded again, if folding has nothing left to
put together in it. -/
theorem fold_fold (hg : s.Grounded) (hf : s.Formed) (hknown : env.UpTo s.size)
    (henv : env.Formed s) (hwords : env.Reduced s) {folded : NodeId} {t : Store}
    (h : Gives s (fold env id) folded t) (hquiet : t.Quiet env folded)
    (hnested : t.NestedWithin env.room folded) : Gives t (fold env folded) folded t := by
  cases hid : s.node? id with
  | none =>
    cases (gives_fold_of_unknown hid env).symm.trans h
    exact h
  | some node =>
    obtain ⟨-, hupTo⟩ := (s.node?_ne_none_iff id).1 (hid ▸ Option.some_ne_none node)
    obtain ⟨ht, -⟩ := keeps_fold hknown hupTo s hg (Nat.le_refl _)
    obtain ⟨-, -, hreduced⟩ := reduces_fold henv hwords ⟨node, hid⟩ s (.refl s) hf
    rw [h] at ht hreduced
    exact fold_settled ht ⟨hreduced folded rfl, hquiet, hnested⟩

end

end Juxta
