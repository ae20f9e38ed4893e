import Juxta.Proofs.RefoldedPrograms

/-!
# How operators group their operands

While an operation is read, operators wait with their left operands. An operator makes those before
it that bind as tight or tighter take what has been read since as their right operand.

* `Alternation`, `Grouping` : operands with operators between them, and a way to group them;
* `Grouping.Climbs` : the grouping by precedence, to the left among equals;
* `Grouping.eq_of_reading` : there is one such grouping at most;
* `Grouping.collapse`, `Rising`, `collapse_climbs` : what an operator does to those that wait;
* `Store.Represents`, `Builder.Holds` : groupings as nodes of a store, and as nodes that wait;
* `Rule.run_reduceAll` : operators that wait are collapsed as their groupings are;
* `Parser.Lacks`, `Parser.Awaits` : operations in which an operand or an operator comes next;
* `Parser.Builds`, `Parser.Operated`, `Parser.operated_climbs` : whole operations.
-/

namespace Juxta

/-! ## Alternations -/

/-- An operand, and operators each with the operand after it. -/
@[ext] structure Alternation where
  first : NodeId
  rest : List (BinOp × NodeId)
deriving DecidableEq

namespace Alternation

/-- Two alternations with an operator between them. -/
def join (a : Alternation) (op : BinOp) (b : Alternation) : Alternation :=
  ⟨a.first, a.rest ++ (op, b.first) :: b.rest⟩

/-- More operators and operands at the end. -/
def append (a : Alternation) (rest : List (BinOp × NodeId)) : Alternation :=
  ⟨a.first, a.rest ++ rest⟩

theorem append_nil (a : Alternation) : a.append [] = a := by
  unfold append
  rw [List.append_nil]

theorem append_append (a : Alternation) (rest more : List (BinOp × NodeId)) :
    (a.append rest).append more = a.append (rest ++ more) := by
  unfold append
  rw [List.append_assoc]

theorem join_append (a : Alternation) (op : BinOp) (b : Alternation)
    (rest : List (BinOp × NodeId)) : (a.join op b).append rest = a.join op (b.append rest) := by
  unfold join append
  rw [List.append_assoc]
  rfl

end Alternation

/-! ## Groupings -/

/-- A tree of operators over operands. -/
inductive Grouping where
  | operand (id : NodeId)
  | binary (op : BinOp) (left right : Grouping)
deriving DecidableEq

namespace Grouping

/-- The operands and operators from left to right. -/
def reading : Grouping → Alternation
  | operand id => ⟨id, []⟩
  | binary op left right => left.reading.join op right.reading

/-- The operator at the root. -/
def root? : Grouping → Option BinOp
  | operand _ => none
  | binary op _ _ => some op

/-- An operand, or a root that binds at least so tight. -/
def Binds (least : Nat) (t : Grouping) : Prop := ∀ op ∈ t.root?, least ≤ op.precedence

/-- Every operator binds no tighter than the root of its left operand, and less tight than that of
its right one. -/
def Climbs : Grouping → Prop
  | operand _ => True
  | binary op left right => left.Climbs ∧ right.Climbs ∧ left.Binds op.precedence ∧
      right.Binds (op.precedence + 1)

variable {t left right : Grouping} {op : BinOp} {least : Nat} {id : NodeId}

theorem binds_operand (least : Nat) (id : NodeId) : (operand id).Binds least := nofun

theorem binds_binary (h : least ≤ op.precedence) : (binary op left right).Binds least := by
  rintro _ ⟨⟩
  exact h

theorem Binds.mono (h : t.Binds least) {less : Nat} (hle : less ≤ least) : t.Binds less :=
  fun op hop => Nat.le_trans hle (h op hop)

/-- No operator of a grouping binds less tight than its root. -/
theorem Climbs.le_of_mem (h : t.Climbs) (hroot : t.Binds least) {item : BinOp × NodeId}
    (hitem : item ∈ t.reading.rest) : least ≤ item.1.precedence := by
  induction t generalizing least with
  | operand id => cases hitem
  | binary op left right ihleft ihright =>
    obtain ⟨hleft, hright, hbinds, hbinds'⟩ := h
    have hop : least ≤ op.precedence := hroot op rfl
    rcases List.mem_append.1 hitem with hitem | hitem
    · exact ihleft hleft (hbinds.mono hop) hitem
    · rcases List.mem_cons.1 hitem with rfl | hitem
      · exact hop
      · exact ihright hright (hbinds'.mono (Nat.le_succ_of_le hop)) hitem

/-- The root of one grouping of some operators does not stand before that of another. -/
theorem Climbs.root_not_before {op' : BinOp} {left' right' : Grouping}
    (h : (binary op left right).Climbs) (h' : (binary op' left' right').Climbs)
    {item : BinOp × NodeId} {middle : List (BinOp × NodeId)}
    (hleft : left'.reading.rest = left.reading.rest ++ item :: middle)
    (hright : (op, right.reading.first) :: right.reading.rest =
      item :: middle ++ (op', right'.reading.first) :: right'.reading.rest) : False := by
  obtain ⟨-, hclimbs, -, hbinds⟩ := h
  obtain ⟨hclimbs', -, hbinds', -⟩ := h'
  obtain ⟨rfl, hrest⟩ := List.cons_eq_cons.1 hright
  have hmem : (op, right.reading.first) ∈ left'.reading.rest := by
    rw [hleft]
    exact List.mem_append_right _ List.mem_cons_self
  have hmem' : (op', right'.reading.first) ∈ right.reading.rest := by
    rw [hrest]
    exact List.mem_append_right _ List.mem_cons_self
  have hle : op'.precedence ≤ op.precedence := hclimbs'.le_of_mem hbinds' hmem
  have hlt : op.precedence < op'.precedence := hclimbs.le_of_mem hbinds hmem'
  exact Nat.not_lt_of_le hle hlt

/-- The left operands of two groupings of the same operators have the same operators. -/
theorem Climbs.left_rest_eq {op' : BinOp} {left' right' : Grouping}
    (h : (binary op left right).Climbs) (h' : (binary op' left' right').Climbs)
    (hrest : left.reading.rest ++ (op, right.reading.first) :: right.reading.rest =
      left'.reading.rest ++ (op', right'.reading.first) :: right'.reading.rest) :
    left.reading.rest = left'.reading.rest := by
  rcases List.append_eq_append_iff.1 hrest with ⟨middle, hl, hr⟩ | ⟨middle, hl, hr⟩
  · cases middle with
    | nil => exact (hl.trans (List.append_nil _)).symm
    | cons item middle => exact (h.root_not_before h' hl hr).elim
  · cases middle with
    | nil => exact hl.trans (List.append_nil _)
    | cons item middle => exact (h'.root_not_before h hl hr).elim

/-- Operands and operators are grouped by precedence in one way at most. -/
theorem eq_of_reading {u : Grouping} (ht : t.Climbs) (hu : u.Climbs)
    (h : t.reading = u.reading) : t = u := by
  induction t generalizing u with
  | operand id =>
    cases u with
    | operand id' => exact congrArg operand (congrArg Alternation.first h)
    | binary op left right =>
      exact absurd (congrArg Alternation.rest h).symm
        (List.append_ne_nil_of_right_ne_nil _ (List.cons_ne_nil _ _))
  | binary op left right ihleft ihright =>
    cases u with
    | operand id =>
      exact absurd (congrArg Alternation.rest h)
        (List.append_ne_nil_of_right_ne_nil _ (List.cons_ne_nil _ _))
    | binary op' left' right' =>
      obtain ⟨hfirst, hrest⟩ := Alternation.mk.inj h
      have hleft := ht.left_rest_eq hu hrest
      rw [hleft] at hrest
      obtain ⟨hitem, hright⟩ := List.cons_eq_cons.1 (List.append_cancel_left hrest)
      obtain ⟨rfl, hsecond⟩ := Prod.mk.inj hitem
      rw [ihleft ht.1 hu.1 (Alternation.ext hfirst hleft),
        ihright ht.2.1 hu.2.1 (Alternation.ext hsecond hright)]

/-! ## Operators that wait -/

/-- Groups what was read last with the operators that bind at least so tight, the last of them
first. Each operator waits with its left operand. -/
def collapse (least : Nat) : List (Grouping × BinOp) → Grouping → List (Grouping × BinOp) × Grouping
  | [], t => ([], t)
  | (left, op) :: rest, t =>
    if op.precedence < least then ((left, op) :: rest, t)
    else collapse least rest (.binary op left t)

/-- All that has been read. -/
def whole : List (Grouping × BinOp) → Alternation → Alternation
  | [], a => a
  | (left, op) :: rest, a => whole rest (left.reading.join op a)

theorem whole_append (lefts : List (Grouping × BinOp)) (a : Alternation)
    (rest : List (BinOp × NodeId)) : whole lefts (a.append rest) = (whole lefts a).append rest := by
  induction lefts generalizing a with
  | nil => rfl
  | cons item lefts ih =>
    unfold whole
    rw [← Alternation.join_append, ih]

/-- Grouping changes nothing in what has been read. -/
theorem whole_collapse (least : Nat) (lefts : List (Grouping × BinOp)) (t : Grouping) :
    whole (collapse least lefts t).1 (collapse least lefts t).2.reading =
      whole lefts t.reading := by
  induction lefts generalizing t with
  | nil => rfl
  | cons item lefts ih =>
    unfold collapse
    split
    · rfl
    · exact ih _

/-- Operators that wait: each binds tighter than those before it, and none tighter than its left
operand. -/
inductive Rising : List (Grouping × BinOp) → Prop where
  | nil : Rising []
  | cons {left : Grouping} {op : BinOp} {rest : List (Grouping × BinOp)} (hclimbs : left.Climbs)
      (hbinds : left.Binds op.precedence)
      (hbelow : ∀ item ∈ rest, item.2.precedence < op.precedence) (hrest : Rising rest) :
      Rising ((left, op) :: rest)

/-- What waits after an operator still rises, and all of it binds less tight than the operator. -/
theorem collapse_climbs {lefts : List (Grouping × BinOp)} (h : Rising lefts) (ht : t.Climbs)
    (hleast : t.Binds least) (hright : ∀ item ∈ lefts, t.Binds (item.2.precedence + 1)) :
    Rising (collapse least lefts t).1 ∧ (collapse least lefts t).2.Climbs ∧
      (collapse least lefts t).2.Binds least ∧
      ∀ item ∈ (collapse least lefts t).1, item.2.precedence < least := by
  induction h generalizing t with
  | nil => exact ⟨.nil, ht, hleast, nofun⟩
  | @cons left op rest hclimbs hbinds hbelow hrest ih =>
    unfold collapse
    split
    · rename_i hlt
      refine ⟨.cons hclimbs hbinds hbelow hrest, ht, hleast, ?_⟩
      rintro item hitem
      rcases List.mem_cons.1 hitem with rfl | hitem
      · exact hlt
      · exact Nat.lt_trans (hbelow item hitem) hlt
    · rename_i hle
      refine ih ⟨hclimbs, ht, hbinds, hright _ List.mem_cons_self⟩
        (binds_binary (Nat.le_of_not_lt hle)) fun item hitem => ?_
      exact binds_binary (hbelow item hitem)

/-- When all operators are collapsed, none waits. -/
theorem collapse_zero (lefts : List (Grouping × BinOp)) (t : Grouping) :
    (collapse 0 lefts t).1 = [] := by
  induction lefts generalizing t with
  | nil => rfl
  | cons item lefts ih => exact ih _

end Grouping

/-! ## Groupings as nodes -/

/-- A node for an operator and its operands. Concatenation takes a list of two. -/
def Store.Joins (s : Store) (op : BinOp) (l r id : NodeId) : Prop :=
  if op = .concat then ∃ list, s.node? list = some (.branch .list [l, r]) ∧
    s.node? id = some (.branch .concat [list])
  else s.node? id = some (.branch op.tag [l, r])

theorem Store.Joins.extend {s u : Store} {op : BinOp} {l r id : NodeId} (h : s.Joins op l r id)
    (he : s.Extends u) : u.Joins op l r id := by
  unfold Joins at h ⊢
  split at h
  · rename_i hop
    obtain ⟨list, hlist, hid⟩ := h
    rw [if_pos hop]
    exact ⟨list, he.node?_of_some hlist, he.node?_of_some hid⟩
  · rename_i hop
    rw [if_neg hop]
    exact he.node?_of_some h

/-- A node that is built for a grouping of nodes. -/
def Store.Represents (s : Store) : Grouping → NodeId → Prop
  | .operand operand, id => id = operand
  | .binary op left right, id =>
    ∃ l r, s.Represents left l ∧ s.Represents right r ∧ s.Joins op l r id

theorem Store.Represents.extend {s u : Store} {t : Grouping} {id : NodeId}
    (h : s.Represents t id) (he : s.Extends u) : u.Represents t id := by
  induction t generalizing id with
  | operand operand => exact h
  | binary op left right ihleft ihright =>
    obtain ⟨l, r, hl, hr, hid⟩ := h
    exact ⟨l, r, ihleft hl, ihright hr, hid.extend he⟩

/-- What was read last and the left operands of the operators that wait lie on the stack, above
other nodes. -/
def Builder.Holds (b : Builder) (below : List NodeId) (lefts : List (Grouping × BinOp))
    (t : Grouping) : Prop :=
  ∃ id ids, b.nodes = id :: (ids ++ below) ∧ b.store.Represents t id ∧
    List.Forall₂ (fun id item => b.store.Represents item.1 id) ids lefts

namespace Rule

open Build Grouping

variable {b : Builder} {below : List NodeId} {lefts : List (Grouping × BinOp)} {t left : Grouping}

/-- The node that an operator builds is stored and waits. -/
theorem run_pushOperation (op : BinOp) (l r : NodeId) (coord : Option Coord) (b : Builder) :
    ∃ id u, StateT.run (if op = .concat then pushConcat [l, r] coord
        else pushBranch op.tag [l, r] coord) b =
          ((), { b with store := u, nodes := id :: b.nodes }) ∧
      b.store.Extends u ∧ u.Joins op l r id := by
  unfold Store.Joins
  by_cases hop : op = .concat
  · simp only [if_pos hop]
    have hlist := b.store.node?_intern (.branch .list [l, r]) coord
    have he := b.store.extends_intern (.branch .list [l, r]) coord
    generalize hintern : b.store.intern (.branch .list [l, r]) coord = result at hlist he
    obtain ⟨list, s⟩ := result
    have hrun : (intern (.branch .list [l, r]) coord).run b = (list, { b with store := s }) := by
      unfold intern
      rw [StateT.run_modifyGet, hintern]
      rfl
    unfold pushConcat
    rw [run_next hrun]
    have he' := s.extends_intern (.branch .concat [list]) coord
    exact ⟨_, _, rfl, he.trans he', list, he'.node?_of_some hlist, s.node?_intern _ _⟩
  · simp only [if_neg hop]
    exact ⟨_, _, rfl, b.store.extends_intern _ _, b.store.node?_intern _ _⟩

/-- The last operator that waits takes its operands. -/
theorem run_reduce {op : BinOp} (h : b.Holds below ((left, op) :: lefts) t) :
    ∃ c, (reduce op).run b = ((), c) ∧ c.Holds below lefts (.binary op left t) ∧
      b.store.Extends c.store := by
  obtain ⟨right, ids, hnodes, hright, hids⟩ := h
  obtain ⟨first, others, hleft, hothers, rfl⟩ := List.forall₂_cons_right_iff.1 hids
  obtain ⟨store, env, nodes, errors, root⟩ := b
  obtain rfl : nodes = right :: first :: (others ++ below) := hnodes
  obtain ⟨id, u, hrun, he, hnode⟩ := run_pushOperation op first right
    (store.joinedCoord? [first, right]) ⟨store, env, others ++ below, errors, root⟩
  refine ⟨_, hrun, ⟨id, others, rfl, ?_, ?_⟩, he⟩
  · exact ⟨first, right, hleft.extend he, hright.extend he, hnode⟩
  · exact hothers.imp fun _ _ hid => hid.extend he

theorem run_reduceAll (least : Nat) (h : b.Holds below lefts t) :
    ∃ c, (reduceAll least (lefts.map Prod.snd)).run b =
        ((collapse least lefts t).1.map Prod.snd, c) ∧
      c.Holds below (collapse least lefts t).1 (collapse least lefts t).2 ∧
      b.store.Extends c.store := by
  induction lefts generalizing t b with
  | nil => exact ⟨b, rfl, h, .refl _⟩
  | cons item lefts ih =>
    obtain ⟨left, op⟩ := item
    unfold collapse
    rw [List.map_cons, reduceAll]
    split
    · exact ⟨b, rfl, h, .refl _⟩
    · obtain ⟨c, hrun, hc, he⟩ := run_reduce h
      obtain ⟨d, hrun', hd, he'⟩ := ih hc
      rw [run_next hrun]
      exact ⟨d, hrun', hd, he.trans he'⟩

end Rule

/-! ## Whole operations -/

namespace Parser

open Grouping

/-- An operand is built. The rule that waits for it hands its first token on, and when the turn of
the next operator comes, one more node waits and none has been changed. -/
inductive Builds (id : NodeId) : Parser → Parser → Prop where
  | intro {p : Parser} {waiting : List BinOp} {rules : List Rule} {b c : Builder} (token : Token)
      (hstart : p.answer token = ⟨.unary false :: .operator waiting :: rules, b, false⟩)
      (hnodes : c.nodes = id :: b.nodes) (hstore : b.store.Extends c.store) :
      Builds id p ⟨.operator waiting :: rules, c, false⟩

/-- Operators are read, and after each of them an operand is built. -/
inductive Operated : Parser → List (BinOp × NodeId) → Parser → Prop where
  | done {p : Parser} : Operated p [] p
  | next {p q r : Parser} {op : BinOp} {id : NodeId} {rest : List (BinOp × NodeId)}
      (location : Location) (hoperand : Builds id (p.answer ⟨.operator op, location⟩) q)
      (hrest : Operated q rest r) : Operated p ((op, id) :: rest) r

/-- An operand is waited for, above other rules and nodes. Once it is built, an alternation will
have been read. -/
inductive Lacks (rules : List Rule) (below : List NodeId) (s : Store)
    (read : NodeId → Alternation) : Parser → Prop where
  | intro {ids : List NodeId} {b : Builder} (lefts : List (Grouping × BinOp))
      (hrising : Rising lefts) (hnodes : b.nodes = ids ++ below)
      (hids : List.Forall₂ (fun id item => b.store.Represents item.1 id) ids lefts)
      (hstore : s.Extends b.store) (hread : ∀ id, whole lefts ⟨id, []⟩ = read id) :
      Lacks rules below s read ⟨.operand (lefts.map Prod.snd) :: rules, b, false⟩

/-- An operator is waited for after an alternation. -/
inductive Awaits (rules : List Rule) (below : List NodeId) (s : Store) (a : Alternation) :
    Parser → Prop where
  | intro {lefts : List (Grouping × BinOp)} {id : NodeId} {b : Builder} (hrising : Rising lefts)
      (hholds : b.Holds below lefts (.operand id)) (hstore : s.Extends b.store)
      (hread : whole lefts ⟨id, []⟩ = a) :
      Awaits rules below s a ⟨.operator (lefts.map Prod.snd) :: rules, b, false⟩

variable {rules : List Rule} {below : List NodeId} {s : Store} {read : NodeId → Alternation}
  {a : Alternation} {p q : Parser} {rest : List (BinOp × NodeId)} {id : NodeId}

/-- Before the first operand. -/
theorem lacks_first (rules : List Rule) (b : Builder) :
    Lacks rules b.nodes b.store (fun id => ⟨id, []⟩) ⟨.operand [] :: rules, b, false⟩ :=
  .intro [] .nil rfl .nil (.refl _) fun _ => rfl

theorem Lacks.builds (h : Lacks rules below s read p) (hid : Builds id p q) :
    Awaits rules below s (read id) q := by
  cases h with
  | @intro ids b lefts hrising hnodes hids hstore hread =>
    cases hid with
    | intro token hstart hnodes' hstore' =>
      cases hstart
      refine .intro hrising ⟨id, ids, ?_, rfl, ?_⟩ (hstore.trans hstore') (hread id)
      · exact hnodes'.trans (congrArg (id :: ·) hnodes)
      · exact hids.imp fun _ _ hid => hid.extend hstore'

/-- A node that is stored already may be the operand. -/
theorem Lacks.exists_builds (h : Lacks rules below s read p) (id : NodeId) :
    ∃ q, Builds id p q := by
  cases h with
  | @intro ids b lefts =>
    exact ⟨⟨_, { b with nodes := id :: b.nodes }, false⟩, .intro default rfl rfl (.refl _)⟩

/-- An operator makes those that bind as tight or tighter take their operands. -/
theorem Awaits.operator (h : Awaits rules below s a p) (op : BinOp) (location : Location) :
    Lacks rules below s (fun id => a.append [(op, id)]) (p.answer ⟨.operator op, location⟩) := by
  cases h with
  | @intro lefts last b hrising hholds hstore hread =>
    obtain ⟨c, hrun, ⟨right, ids, hnodes, hright, hids⟩, he⟩ :=
      Rule.run_reduceAll op.precedence hholds
    obtain ⟨hrest, hclimbs, hbinds, hbelow⟩ := collapse_climbs hrising (t := .operand last) trivial
      (binds_operand op.precedence last) fun _ _ => binds_operand _ last
    have hsame := whole_collapse op.precedence lefts (.operand last)
    have hanswer : (Rule.answer ⟨.operator op, location⟩ (.operator (lefts.map Prod.snd))).run b =
        (.taken .operator [.operand (op ::
          (collapse op.precedence lefts (.operand last)).1.map Prod.snd)], c) :=
      Build.run_next hrun _
    rw [answer_of_run hanswer]
    refine .intro ((_, op) :: _) (.cons hclimbs hbinds hbelow hrest) hnodes
      (.cons hright hids) (hstore.trans he) fun id => ?_
    rw [← hread]
    exact (whole_append _ _ [(op, id)]).trans (congrArg (Alternation.append · _) hsame)

/-- What ends an operation makes all operators take their operands. -/
theorem Awaits.ends (h : Awaits rules below s a p) {token : Token}
    (htoken : ∀ op, token.kind ≠ .operator op) :
    ∃ c id t, p.answer token = ⟨rules, c, false⟩ ∧ c.nodes = id :: below ∧ s.Extends c.store ∧
      c.store.Represents t id ∧ t.reading = a ∧ t.Climbs := by
  cases h with
  | @intro lefts last b hrising hholds hstore hwhole =>
    obtain ⟨c, hrun, ⟨id, ids, hnodes, hid, hids⟩, he⟩ := Rule.run_reduceAll 0 hholds
    obtain ⟨-, hclimbs, -, -⟩ := collapse_climbs hrising (t := .operand last) trivial
      (binds_operand 0 last) fun _ _ => binds_operand _ last
    have hall := collapse_zero lefts (.operand last)
    have hsame := whole_collapse 0 lefts (.operand last)
    rw [hall] at hids hsame
    cases hids
    have hanswer : (Rule.answer token (.operator (lefts.map Prod.snd))).run b =
        (.passed [], c) := by
      show (Rule.answerOperator (lefts.map Prod.snd) token).run b = _
      unfold Rule.answerOperator
      split
      · rename_i op hop
        exact absurd hop (htoken op)
      · have hdiscard : (discard (Rule.reduceAll 0 (lefts.map Prod.snd)) : Build Unit).run b =
            ((), c) := congrArg (fun result : List BinOp × Builder => ((), result.2)) hrun
        exact Build.run_next hdiscard _
    exact ⟨c, id, _, answer_of_run hanswer, hnodes, hstore.trans he, hid, hsame.trans hwhole,
      hclimbs⟩

/-- A whole operation. -/
theorem Awaits.operated (h : Awaits rules below s a p) (hp : Operated p rest q) :
    Awaits rules below s (a.append rest) q := by
  induction hp generalizing a with
  | done => rwa [Alternation.append_nil]
  | @next p _ _ op id rest location hoperand _ ih =>
    rw [← List.singleton_append, ← Alternation.append_append]
    exact ih ((h.operator op location).builds hoperand)

theorem Awaits.exists_operated (h : Awaits rules below s a p) (rest : List (BinOp × NodeId)) :
    ∃ q, Operated p rest q := by
  induction rest generalizing a p with
  | nil => exact ⟨p, .done⟩
  | cons item rest ih =>
    obtain ⟨op, id⟩ := item
    have hlacks := h.operator op default
    obtain ⟨q, hoperand⟩ := hlacks.exists_builds id
    obtain ⟨r, hrest⟩ := ih (hlacks.builds hoperand)
    exact ⟨r, .next default hoperand hrest⟩

/-- Operands and operators in turn, then a token that is no operator: one node is left for them
above those that waited before, and it is built for the only grouping of these operands and
operators by precedence. The rules that waited before are next. -/
theorem operated_climbs (rules : List Rule) (b : Builder) (a : Alternation) :
    (∃ p q, Builds a.first ⟨.operand [] :: rules, b, false⟩ p ∧ Operated p a.rest q) ∧
      ∀ p q token, Builds a.first ⟨.operand [] :: rules, b, false⟩ p → Operated p a.rest q →
        (∀ op, token.kind ≠ .operator op) →
        ∃ c id t, q.answer token = ⟨rules, c, false⟩ ∧ c.nodes = id :: b.nodes ∧
          b.store.Extends c.store ∧ c.store.Represents t id ∧ t.reading = a ∧ t.Climbs ∧
          ∀ u : Grouping, u.reading = a → u.Climbs → u = t := by
  have hlacks := lacks_first rules b
  refine ⟨?_, fun p q token hfirst hrest htoken => ?_⟩
  · obtain ⟨p, hfirst⟩ := hlacks.exists_builds a.first
    obtain ⟨q, hrest⟩ := (hlacks.builds hfirst).exists_operated a.rest
    exact ⟨p, q, hfirst, hrest⟩
  · have hawaits := (hlacks.builds hfirst).operated hrest
    obtain ⟨c, id, t, hanswer, hnodes, hstore, hid, hreading, hclimbs⟩ := hawaits.ends htoken
    exact ⟨c, id, t, hanswer, hnodes, hstore, hid, hreading, hclimbs, fun u hu hclimbs' =>
      eq_of_reading hclimbs' hclimbs (hu.trans hreading.symm)⟩

/-- An operand may be a number that is stored for it. -/
theorem exists_number (waiting : List BinOp) (rules : List Rule) (b : Builder) (lexeme : String) :
    ∃ id c, Builds id ⟨.operand waiting :: rules, b, false⟩ ⟨.operator waiting :: rules, c, false⟩ ∧
      b.store.Extends c.store ∧ c.store.node? id = some (.leaf .num lexeme) := by
  have he := b.store.extends_intern (.leaf .num lexeme) none
  exact ⟨_, { b with store := _, nodes := _ :: b.nodes }, .intro default rfl rfl he, he,
    b.store.node?_intern _ _⟩

/-- `1 ++ 2 * 3` -/
theorem operated_climbs_numbers :
    ∃ first second third p q c id,
      Builds first ⟨[.operand []], (start .standard Runaway.defaultLimit).builder, false⟩ p ∧
      Operated p [(.concat, second), (.mul, third)] q ∧
      q.store.node? first = some (.leaf .num "1") ∧ q.store.node? second = some (.leaf .num "2") ∧
      q.store.node? third = some (.leaf .num "3") ∧
      q.answer ⟨.endOfText, default⟩ = ⟨[], c, false⟩ ∧ c.nodes = [id] ∧
      c.store.Represents (.binary .concat (.operand first)
        (.binary .mul (.operand second) (.operand third))) id := by
  obtain ⟨first, b, hfirst, -, hone⟩ :=
    exists_number [] [] (start .standard Runaway.defaultLimit).builder "1"
  obtain ⟨second, c, hsecond, hbc, htwo⟩ := exists_number [.concat] [] b "2"
  obtain ⟨third, d, hthird, hcd, hthree⟩ := exists_number [.mul, .concat] [] c "3"
  have hrest : Operated ⟨[.operator []], b, false⟩ [(.concat, second), (.mul, third)]
      ⟨[.operator [.mul, .concat]], d, false⟩ :=
    .next default hsecond (.next default hthird .done)
  obtain ⟨e, id, t, hanswer, hnodes, -, hid, -, -, honly⟩ :=
    (operated_climbs [] _ ⟨first, _⟩).2 _ _ ⟨.endOfText, default⟩ hfirst hrest nofun
  have hclimbs : (Grouping.binary .concat (.operand first)
      (.binary .mul (.operand second) (.operand third))).Climbs :=
    ⟨trivial, ⟨trivial, trivial, binds_operand _ _, binds_operand _ _⟩, binds_operand _ _,
      binds_binary (by decide)⟩
  refine ⟨first, second, third, _, _, e, id, hfirst, hrest, (hbc.trans hcd).node?_of_some hone,
    hcd.node?_of_some htwo, hthree, hanswer, hnodes, ?_⟩
  rwa [honly _ rfl hclimbs]

end Parser

end Juxta
