import Juxta.Proofs.Groupings
import Juxta.Proofs.Readings
import Juxta.Proofs.Standing
import Juxta.Proofs.Token.Order

/-!
# Places of operations

The place of an operation is joined from those of its operands, and a node has the place at which it
was first seen. An operand that was seen before, or that a name stands for, has a place outside the
operation. Then the operation may be said to begin before its left operand does. It is never said to
end after its right operand.

* `Rule.reductions`, `Reading.reductions` : the operations that the next answer builds, in order;
* `Reduction.Records`, `Coord.Within` : the place that is recorded for an operation, and places
  between two tokens;
* `Rule.place_reduce` : that place is joined from those of the operands;
* `Reading.Reached.place_within_iff` : which operations have places from their first to their last
  token.
-/

namespace Juxta

/-! ## Operations that are built -/

/-- How tight operators before a token must bind for it to make nodes of them. -/
def TokenKind.least : TokenKind → Nat
  | .operator op => op.precedence
  | _ => 0

/-- An operation that is built: the operator, the token with which its left operand begins, and what
has been built before. -/
structure Reduction where
  op : BinOp
  first : Token
  builder : Builder

/-- The operations that are built from operators that wait, when a token makes nodes of those that
bind so tight. The left operand of an operator begins one token deeper than its right one. -/
def Rule.reductions (least : Nat) :
    (waiting : List BinOp) → (firsts : List Token) → Builder → List Reduction
  | op :: waiting, _ :: first :: firsts, b =>
    if op.precedence < least then []
    else ⟨op, first, b⟩ :: reductions least waiting (first :: firsts) ((reduce op).run b).2
  | _, _, _ => []

/-- The operations that the next answer builds. -/
def Reading.reductions (r : Reading) : List Reduction :=
  match r with
  | ⟨⟨.operator waiting :: _, b, false⟩, token :: _, _, own :: _⟩ =>
    if token.kind = .comment then [] else Rule.reductions token.kind.least waiting own b
  | _ => []

/-- The node of an operation is not stored before, and is recorded with a place. -/
structure Reduction.Records (x : Reduction) (id : NodeId) (place : Coord) : Prop where
  fresh : x.builder.store.node? id = none
  place : ((Rule.reduce x.op).run x.builder).2.store.coord? id = some place

/-- A place from the beginning of one token on, and to the end of another one at most. -/
def Coord.Within (coord : Coord) (first last : Token) : Prop :=
  first.location.coord.start.le coord.start = true ∧ coord.stop.le last.location.coord.stop = true

/-! ## Joined places -/

theorem Position.le_earlier_iff {p a b : Position} :
    p.le (a.earlier b) = true ↔ p.le a = true ∧ p.le b = true := by
  unfold earlier
  split
  · rename_i hle
    exact ⟨fun h => ⟨h, le_trans h hle⟩, And.left⟩
  · rename_i hle
    have hle' : b.le a = true := (le_total a b).resolve_left hle
    exact ⟨fun h => ⟨le_trans h hle', h⟩, And.right⟩

/-- A joined place begins behind a position if all of the places do. -/
theorem Coord.le_start_foldl_join_iff {p : Position} (first : Coord) (rest : List Coord) :
    p.le (rest.foldl join first).start = true ↔
      p.le first.start = true ∧ ∀ coord ∈ rest, p.le coord.start = true := by
  induction rest generalizing first with
  | nil => exact ⟨fun h => ⟨h, nofun⟩, And.left⟩
  | cons next rest ih =>
    rw [List.foldl_cons, ih, List.forall_mem_cons, ← and_assoc]
    exact and_congr_left fun _ => Position.le_earlier_iff

namespace Store

variable {s : Store} {id : NodeId} {place : Coord}

theorem coord?_eq_none (h : s.node? id = none) : s.coord? id = none := by
  unfold node? at h
  unfold coord?
  rw [Option.map_eq_none_iff.1 h]
  rfl

theorem le_start_joinedCoord?_iff {ids : List NodeId} (h : s.joinedCoord? ids = some place)
    (p : Position) : p.le place.start = true ↔
      ∀ id ∈ ids, ∀ found ∈ s.coord? id, p.le found.start = true := by
  have hall : (∀ coord ∈ ids.filterMap s.coord?, p.le coord.start = true) ↔
      ∀ id ∈ ids, ∀ found ∈ s.coord? id, p.le found.start = true := by
    constructor
    · intro hle id hid found hfound
      exact hle found (List.mem_filterMap.2 ⟨id, hid, hfound⟩)
    · intro hle coord hcoord
      obtain ⟨id, hid, hfound⟩ := List.mem_filterMap.1 hcoord
      exact hle id hid coord hfound
  unfold joinedCoord? at h
  rw [← hall]
  split at h
  · cases h
  · rename_i first rest hplaces
    cases h
    rw [hplaces, List.forall_mem_cons]
    exact Coord.le_start_foldl_join_iff first rest

end Store

/-! ## One operation -/

namespace Rule

open Build

variable {b : Builder} {left right : NodeId} {others : List NodeId}

/-- Whatever is stored for an operation has the place that is joined from its operands. -/
theorem place_pushOperation {op : BinOp} {coord : Option Coord}
    (hcoord : coord = b.store.joinedCoord? [left, right]) {id : NodeId} {place : Coord}
    (hfresh : b.store.node? id = none)
    (hplace : ((if op = .concat then pushConcat [left, right] coord
      else pushBranch op.tag [left, right] coord : Build Unit).run b).2.store.coord? id =
        some place) : coord = some place := by
  have hold : b.store.coord? id ≠ some place := by
    rw [Store.coord?_eq_none hfresh]
    nofun
  split at hplace
  · have hstore : ((pushConcat [left, right] coord).run b).2.store =
        ((b.store.intern (.branch .list [left, right]) coord).2.intern (.branch .concat
          [(b.store.intern (.branch .list [left, right]) coord).1]) coord).2 := rfl
    rw [hstore] at hplace
    rcases Store.coord?_intern hplace with hlist | ⟨-, hnew⟩
    · rcases Store.coord?_intern hlist with hstored | ⟨-, hnew⟩
      · exact absurd hstored hold
      · exact hnew
    · exact hnew
  · have hstore : ((pushBranch op.tag [left, right] coord).run b).2.store =
        (b.store.intern (.branch op.tag [left, right])
          (coord <|> b.store.joinedCoord? [left, right])).2 := rfl
    rw [hstore] at hplace
    rcases Store.coord?_intern hplace with hstored | ⟨-, hnew⟩
    · exact absurd hstored hold
    · rw [← hcoord] at hnew
      cases coord <;> exact hnew

/-- An operator takes the last two nodes and leaves one. -/
theorem run_reduce_of_nodes (op : BinOp) (h : b.nodes = right :: left :: others) :
    ∃ id c, (reduce op).run b = ((), c) ∧ c.nodes = id :: others := by
  obtain ⟨store, env, nodes, errors, root⟩ := b
  obtain rfl : nodes = _ := h
  obtain ⟨id, u, hrun, -⟩ := run_pushOperation op left right (store.joinedCoord? [left, right])
    ⟨store, env, others, errors, root⟩
  exact ⟨id, _, hrun, rfl⟩

/-- The place of a new operation is joined from those of its operands. -/
theorem place_reduce {op : BinOp} (h : b.nodes = right :: left :: others) {id : NodeId}
    {place : Coord} (hfresh : b.store.node? id = none)
    (hplace : ((reduce op).run b).2.store.coord? id = some place) :
    b.store.joinedCoord? [left, right] = some place := by
  obtain ⟨store, env, nodes, errors, root⟩ := b
  obtain rfl : nodes = _ := h
  exact place_pushOperation (b := ⟨store, env, others, errors, root⟩) rfl hfresh hplace

/-! ## The operations of one answer -/

/-- What has been built before each operation: places of tokens that have been taken, and two
operands. -/
theorem reductions_sound {tokens : List Token} {least : Nat} {waiting : List BinOp}
    {firsts : List Token} (hstore : b.store.Aligned tokens)
    (hnodes : waiting.length < b.nodes.length) :
    ∀ x ∈ reductions least waiting firsts b, x.builder.store.Aligned tokens ∧
      ∃ right left others, x.builder.nodes = right :: left :: others := by
  induction waiting generalizing firsts b with
  | nil => exact List.forall_mem_nil _
  | cons op waiting ih =>
    match firsts with
    | [] | [_] => exact List.forall_mem_nil _
    | _ :: first :: firsts =>
      unfold reductions
      split
      · exact List.forall_mem_nil _
      · match hwaiting : b.nodes with
        | [] | [_] =>
          rw [hwaiting] at hnodes
          exact absurd hnodes (by simp)
        | right :: left :: others =>
          obtain ⟨id, c, hrun, hc⟩ := run_reduce_of_nodes op hwaiting
          have hc' : c.store.Aligned tokens := by
            have := (aligns_reduce op b hstore).1
            rwa [hrun] at this
          refine List.forall_mem_cons.2 ⟨⟨hstore, right, left, others, hwaiting⟩, ?_⟩
          rw [hrun]
          refine ih hc' ?_
          rw [hwaiting] at hnodes
          rw [hc]
          exact Nat.lt_of_succ_lt_succ hnodes

theorem first_mem_of_mem_reductions {least : Nat} {waiting : List BinOp} {firsts : List Token}
    {x : Reduction} (hx : x ∈ reductions least waiting firsts b) : x.first ∈ firsts := by
  induction waiting generalizing firsts b with
  | nil => cases hx
  | cons op waiting ih =>
    match firsts with
    | [] | [_] => cases hx
    | _ :: first :: firsts =>
      unfold reductions at hx
      split at hx
      · cases hx
      · rcases List.mem_cons.1 hx with rfl | hx
        · exact List.mem_cons_of_mem _ List.mem_cons_self
        · exact List.mem_cons_of_mem _ (ih hx)

/-- The operators that are reduced are the first of those that wait, and the others wait on. -/
theorem reductions_cover (least : Nat) {waiting : List BinOp} {firsts : List Token}
    (h : firsts.length = waiting.length + 1) (b : Builder) :
    ((reduceAll least waiting).run b).1 =
        waiting.drop (reductions least waiting firsts b).length ∧
      (reductions least waiting firsts b).map Reduction.op =
        waiting.take (reductions least waiting firsts b).length := by
  induction waiting generalizing firsts b with
  | nil => exact ⟨rfl, rfl⟩
  | cons op waiting ih =>
    match firsts with
    | [] | [_] => cases h
    | _ :: first :: firsts =>
      unfold reduceAll reductions
      split
      · exact ⟨rfl, rfl⟩
      · obtain ⟨hrest, hops⟩ := ih (Nat.succ.inj h) ((reduce op).run b).2
        exact ⟨hrest, congrArg (op :: ·) hops⟩

end Rule

/-! ## The operations of a text -/

namespace Reading

variable {lexicon : Lexicon} {limit : Nat} {r : Reading}

namespace Reached

/-- Operations are built when it is the turn of the operators that wait. -/
theorem exists_of_mem_reductions {x : Reduction} (hx : x ∈ r.reductions) :
    ∃ waiting rest b kind own, r.parser = ⟨.operator waiting :: rest, b, false⟩ ∧
      own ∈ r.firsts ∧ x ∈ Rule.reductions (TokenKind.least kind) waiting own b := by
  obtain ⟨⟨rules, b, halted⟩, ahead, taken, firsts⟩ := r
  unfold reductions at hx
  split at hx
  · rename_i waiting rest b token ahead taken own outer heq
    cases heq
    split at hx
    · cases hx
    · exact ⟨waiting, rest, b, token.kind, own, rfl, List.mem_cons_self, hx⟩
  · cases hx

/-- When an operation is built, its operands are the last two nodes, all places are those of tokens
that have been taken, and so is the first token of the left operand. -/
theorem exists_operands (h : Reached lexicon limit tokens r) {x : Reduction}
    (hx : x ∈ r.reductions) :
    x.first ∈ r.taken ∧ x.builder.store.Aligned r.taken ∧
      ∃ right left others, x.builder.nodes = right :: left :: others := by
  obtain ⟨waiting, rest, b, kind, own, hparser, hown, hmem⟩ := exists_of_mem_reductions hx
  have hnodes : waiting.length < b.nodes.length := by
    have hsegments := h.passes.segments (congrArg Parser.halted hparser)
    rw [hparser] at hsegments
    generalize hheight : b.nodes.length = height at hsegments
    cases hsegments with
    | owns own howns hrest =>
      obtain rfl : own = waiting.length + 1 := howns
      omega
  have hstore : b.store.Aligned r.taken := by
    have := h.sound.store
    rwa [hparser] at this
  exact ⟨h.first_mem_taken hparser hown (Rule.first_mem_of_mem_reductions hmem),
    Rule.reductions_sound hstore hnodes x hmem⟩

/-- While a text is read, a token makes nodes of the operators that wait and bind tight enough, each
of the last two operands. The place that is recorded for a new node begins and ends as tokens do
that have been taken, and it never ends after the last of them, which is that of the right operand.
It lies between the first token of the left operand and this one exactly if neither operand has a
place that begins before that first token: nodes are shared, and have the places at which they were
first seen. -/
theorem place_within_iff {text : String}
    (h : Reached lexicon limit (Scan.tokens lexicon text) r) :
    (∀ waiting rest b token ahead, r.parser = ⟨.operator waiting :: rest, b, false⟩ →
      r.ahead = token :: ahead → token.kind ≠ .comment →
        ((Rule.reduceAll token.kind.least waiting).run b).1 = waiting.drop r.reductions.length ∧
          r.reductions.map Reduction.op = waiting.take r.reductions.length) ∧
      ∀ x ∈ r.reductions, x.first ∈ r.taken ∧
        ∃ right left others, x.builder.nodes = right :: left :: others ∧
          ∀ id place, x.Records id place → place.Aligned r.taken ∧
            ∃ last before, r.taken = last :: before ∧
              place.stop.le last.location.coord.stop = true ∧
              (place.Within x.first last ↔ ∀ operand ∈ [left, right],
                ∀ found ∈ x.builder.store.coord? operand,
                  x.first.location.coord.start.le found.start = true) := by
  constructor
  · intro waiting rest b token ahead hparser hahead hkind
    obtain ⟨parser, ahead', taken, firsts⟩ := r
    obtain rfl : parser = _ := hparser
    obtain rfl : ahead' = _ := hahead
    obtain ⟨own, outer, hbegins, -, hfirsts⟩ := List.forall₂_cons_left_iff.1 h.sound.rules
    obtain rfl : firsts = _ := hfirsts
    have hreductions : reductions ⟨⟨.operator waiting :: rest, b, false⟩, token :: ahead, taken,
        own :: outer⟩ = Rule.reductions token.kind.least waiting own b := if_neg hkind
    rw [hreductions]
    exact Rule.reductions_cover _ hbegins.2 b
  · intro x hx
    obtain ⟨hfirst, haligned, right, left, others, hoperands⟩ := h.exists_operands hx
    refine ⟨hfirst, right, left, others, hoperands, fun id place hrecords => ?_⟩
    have hjoined := Rule.place_reduce hoperands hrecords.fresh hrecords.place
    have hplace := haligned.joinedCoord? [left, right] place hjoined
    refine ⟨hplace, ?_⟩
    obtain ⟨token, htoken, hstop⟩ := hplace.stop
    obtain ⟨last, before, htaken⟩ := List.exists_cons_of_ne_nil (List.ne_nil_of_mem htoken)
    have hle : place.stop.le last.location.coord.stop = true := by
      rw [hstop]
      exact h.le_stop_last (Scan.tokens_ordered lexicon text) htaken htoken
    refine ⟨last, before, htaken, hle, ?_⟩
    rw [← Store.le_start_joinedCoord?_iff hjoined]
    exact and_iff_left hle

end Reached

/-! ### A number that is seen again -/

namespace Again

def one : Token := ⟨.number "1", ⟨⟨0, 1⟩, ⟨⟨0, 0⟩, ⟨0, 1⟩⟩⟩⟩
def letter : Token := ⟨.string "a", ⟨⟨2, 3⟩, ⟨⟨0, 2⟩, ⟨0, 5⟩⟩⟩⟩
def times : Token := ⟨.operator .mul, ⟨⟨6, 1⟩, ⟨⟨0, 6⟩, ⟨0, 7⟩⟩⟩⟩
def again : Token := ⟨.number "1", ⟨⟨8, 1⟩, ⟨⟨0, 8⟩, ⟨0, 9⟩⟩⟩⟩
def ended : Token := ⟨.endOfText, ⟨⟨9, 0⟩, ⟨⟨0, 9⟩, ⟨0, 9⟩⟩⟩⟩

theorem tokens_eq : Scan.tokens .standard "1 'a' * 1" = [one, letter, times, again, ended] := by
  have hitems : (Scan.ofText .standard "1 'a' * 1").drain.1 =
      [.ok one, .ok letter, .ok times, .ok again, .ok ended] := by
    refine Scan.drain_of_next (by decide +kernel) (Scan.drain_of_next (by decide +kernel) ?_)
    refine Scan.drain_of_next (by decide +kernel) (Scan.drain_of_next (by decide +kernel) ?_)
    exact Scan.drain_of_next (by decide +kernel) (Scan.drain_of_end (by decide +kernel))
  unfold Scan.tokens Scan.items
  rw [hitems]
  rfl

theorem fresh_one : Store.empty.index[Node.leaf .num "1"]? = none := by simp [Store.empty]

/-- The number alone. -/
def number : Store := Store.empty.push (.leaf .num "1") (some one.location.coord) fresh_one

theorem fresh_letter : number.index[Node.leaf .str "a"]? = none := by
  simp [number, Store.empty, Store.push, Node.leaf]

/-- The number and the string after it. -/
def both : Store := number.push (.leaf .str "a") (some letter.location.coord) fresh_letter

theorem intern_one : Store.empty.intern (.leaf .num "1") (some one.location.coord) =
    (⟨1⟩, number) := Store.intern_of_fresh fresh_one _

theorem intern_letter : number.intern (.leaf .str "a") (some letter.location.coord) =
    (⟨2⟩, both) := Store.intern_of_fresh fresh_letter _

/-- The number is stored already. -/
theorem intern_again : both.intern (.leaf .num "1") (some again.location.coord) = (⟨1⟩, both) :=
  Store.intern_of_node? rfl _

/-- What has been built when some nodes wait. -/
def built (s : Store) (waiting : List NodeId) : Builder :=
  ⟨s, .ofLexicon .standard Runaway.defaultLimit, waiting, [], none⟩

/-- Readings of the text in its one sequence. -/
abbrev Reads (rules : List Rule) (b : Builder) (ahead taken own : List Token) : Prop :=
  Reached .standard Runaway.defaultLimit [one, letter, times, again, ended]
    ⟨⟨rules ++ [.sequence 0 .afterTerm, .programEnd], b, false⟩, ahead, taken,
      own :: [[], []]⟩

variable {s t : Store} {id : NodeId} {waiting : List NodeId} {ops : List BinOp} {token : Token}
  {ahead taken own : List Token}

/-- An operand that is a literal. -/
theorem Reads.literal {as : TokenClass} {node : Node}
    (h : Reads [.operand ops] (built s waiting) (token :: ahead) taken own)
    (hown : own.length = ops.length) (hkind : token.kind ≠ .comment)
    (hunary : Rule.answerUnary false token = pure (.passed [.primary false]))
    (hprimary : Rule.answerPrimary false token = do
      Build.pushNode node (some token.location.coord)
      return .taken as [])
    (hintern : s.intern node (some token.location.coord) = (id, t)) :
    Reads [.operator ops] (built t (id :: waiting)) ahead (token :: taken) (token :: own) := by
  have hrun : (Rule.answer token (.primary false)).run (built s waiting) =
      (.taken as [], built t (id :: waiting)) := by
    show (Rule.answerPrimary false token).run _ = _
    obtain ⟨rfl, rfl⟩ : (s.intern _ _).1 = id ∧ (s.intern _ _).2 = t := Prod.ext_iff.1 hintern
    rw [hprimary]
    rfl
  have hrun' : (Rule.answer token (.unary false)).run (built s waiting) =
      (.passed [.primary false], built s waiting) := by
    show (Rule.answerUnary false token).run _ = _
    rw [hunary]
    rfl
  have hoperand := h.step (.passed hkind (rfl : (Rule.answer token (.operand ops)).run _ =
    (.passed [.unary false, .operator ops], built s waiting)))
  have hnext := (hoperand.step (.passed hkind hrun')).step (.taken hkind hrun)
  have hkept : Rule.firstsKept (token :: own) (.operator ops) = token :: own :=
    Rule.firstsKept_eq (congrArg Nat.succ hown)
  show Reached _ _ _ ⟨_, ahead, token :: taken, (token :: own) :: [[], []]⟩
  rw [← hkept]
  exact hnext

/-- The operation when its second operand has been read. -/
theorem reads_operation : Reads [.operator [.mul]] (built both [⟨1⟩, ⟨2⟩, ⟨1⟩]) [ended]
    [again, times, letter, one] [again, letter] := by
  have hstart : Reads [.operand []] (built .empty []) [one, letter, times, again, ended] [] [] :=
    ((((Reached.start.step (.passed (by decide) rfl)).step (.passed (by decide) rfl)).step
      (.passed (by decide) rfl)).step (.passed (by decide) rfl))
  have hone : Reads [.operator []] (built number [⟨1⟩]) [letter, times, again, ended] [one] [one] :=
    hstart.literal rfl (by decide) rfl rfl intern_one
  have hnext : Reads [.operand []] (built number [⟨1⟩]) [letter, times, again, ended] [one] [] :=
    ((((hone.step (.passed (by decide) rfl)).step (.passed (by decide) rfl)).step
      (.passed (by decide) rfl)).step (.passed (by decide) rfl))
  have hletter : Reads [.operator []] (built both [⟨2⟩, ⟨1⟩]) [times, again, ended] [letter, one]
      [letter] := hnext.literal rfl (by decide) rfl rfl intern_letter
  have htimes : Reads [.operand [.mul]] (built both [⟨2⟩, ⟨1⟩]) [again, ended]
      [times, letter, one] [letter] := hletter.step (.taken (by decide) rfl)
  exact htimes.literal rfl (by decide) rfl rfl intern_again

/-- The product, and where it is said to be. -/
def product : Reduction := ⟨.mul, letter, built both [⟨1⟩, ⟨2⟩, ⟨1⟩]⟩

def place : Coord := ⟨⟨0, 0⟩, ⟨0, 5⟩⟩

theorem records_product : product.Records ⟨3⟩ place where
  fresh := rfl
  place := by
    have hfresh : both.index[Node.branch .mul [⟨2⟩, ⟨1⟩]]? = none := by
      simp [both, number, Store.empty, Store.push, Node.leaf, Node.branch]
    have hjoined : both.joinedCoord? [⟨2⟩, ⟨1⟩] = some place := rfl
    show (both.intern (.branch .mul [⟨2⟩, ⟨1⟩])
      (both.joinedCoord? [⟨2⟩, ⟨1⟩] <|> both.joinedCoord? [⟨2⟩, ⟨1⟩])).2.coord? ⟨3⟩ = _
    rw [hjoined, Store.intern_of_fresh hfresh]
    rfl

end Again

open Again in
/-- The product of a string and a number that stands before the string as well. It is said to begin
with that number, and to end where the string does. -/
theorem place_before_product : ∃ r x place,
    Reached .standard Runaway.defaultLimit (Scan.tokens .standard "1 'a' * 1") r ∧
      x ∈ r.reductions ∧ x.op = .mul ∧ r.taken.head? = some again ∧ x.first = letter ∧
      x.Records ⟨3⟩ place ∧ ¬ place.Within x.first again := by
  rw [tokens_eq]
  exact ⟨_, product, place, reads_operation, List.mem_cons_self, rfl, rfl, rfl, records_product,
    fun h => absurd h.1 (by decide)⟩

open Again in
/-- The number is the operand that was seen before. -/
theorem place_within_product : ∃ r x place,
    Reached .standard Runaway.defaultLimit (Scan.tokens .standard "1 'a' * 1") r ∧
      x ∈ r.reductions ∧ x.Records ⟨3⟩ place ∧ place.Aligned r.taken ∧
      place.stop.le again.location.coord.stop = true ∧
      (place.Within letter again ↔ ∀ operand ∈ [(⟨2⟩ : NodeId), ⟨1⟩],
        ∀ found ∈ both.coord? operand, letter.location.coord.start.le found.start = true) := by
  have hreached := reads_operation
  unfold Reads at hreached
  rw [← tokens_eq] at hreached
  obtain ⟨-, hall⟩ := Reached.place_within_iff hreached
  obtain ⟨-, right, left, others, hnodes, hplaces⟩ := hall product List.mem_cons_self
  cases hnodes
  obtain ⟨haligned, last, before, htaken, hstop, hwithin⟩ := hplaces ⟨3⟩ place records_product
  cases htaken
  exact ⟨_, product, place, hreached, List.mem_cons_self, records_product, haligned, hstop, hwithin⟩

end Reading

end Juxta