import Juxta.Proofs.StagedCalls
import Juxta.Proofs.RefoldedPrograms
import Juxta.Proofs.Numbering

/-!
# Programs that apply a function in stages

After some definitions a program may end in a function with literals after its name, or in the same
with some of the literals in parentheses around the name. If nothing in the body of the function is
applied to anything, both programs are read to their ends, have the same errors and are folded to
the same tree.

* `Builder.Gains`, `Builder.gains_lay`, `Builder.Gains.collect` : the trees of the nodes that wait;
* `Parser.Reads` : the terms of a sequence that have been read (`Parser.Reads.literals`,
  `Parser.Reads.close`, `Parser.Reads.finish`);
* `Snapshot.SameResults` : programs with the same results;
* `Parser.Defines` : definitions that a program begins with;
* `Parser.Defines.call`, `Parser.Defines.staged` : what programs are that end in a call;
* `Parser.staged_call` : calls in stages and at once.
-/

namespace Juxta

open Juxta.Tree (Plain)

/-! ## Nodes that wait -/

/-- Some nodes more wait, those of some trees. -/
structure Builder.Gains (b c : Builder) (trees : List Tree) : Prop where
  stores : b.store.Extends c.store
  grounded : c.store.Grounded
  env : c.env = b.env
  errors : c.errors = b.errors
  nodes : ∃ ids, c.nodes = ids.reverse ++ b.nodes ∧ c.store.HoldsAll ids trees

namespace Builder

variable {b c d : Builder} {trees more : List Tree}

theorem Gains.refl (hb : b.store.Grounded) : b.Gains b [] :=
  ⟨.refl _, hb, rfl, rfl, [], rfl, .nil⟩

theorem Gains.trans (h : b.Gains c trees) (k : c.Gains d more) : b.Gains d (trees ++ more) := by
  obtain ⟨ids, hnodes, hids⟩ := h.nodes
  obtain ⟨ids', hnodes', hids'⟩ := k.nodes
  refine ⟨h.stores.trans k.stores, k.grounded, k.env.trans h.env, k.errors.trans h.errors,
    ids ++ ids', ?_, ?_⟩
  · rw [hnodes', hnodes, List.reverse_append, List.append_assoc]
  · exact List.rel_append (hids.extend h.grounded k.grounded k.stores) hids'

/-- One node more waits. -/
def lay (b : Builder) (node : Node) (coord : Option Coord) : Builder :=
  { b with
    store := (b.store.intern node coord).2
    nodes := (b.store.intern node coord).1 :: b.nodes }

theorem gains_lay (hb : b.store.Grounded) {node : Node} (hc : node.children = [])
    (coord : Option Coord) : b.Gains (b.lay node coord) [node.alone] := by
  obtain ⟨_, _, hrun, he, ht, hid⟩ := Fold.builds_alone hb node hc coord
  cases hrun
  exact ⟨he, ht, rfl, rfl, [(b.store.intern node coord).1], rfl, .cons hid .nil⟩

/-- The last nodes that wait become one. -/
theorem Gains.collect (h : b.Gains c trees) (tag : Tag) {ids : List NodeId}
    (hids : c.store.HoldsAll ids trees) (coord : Option Coord) :
    b.Gains (lay { c with nodes := b.nodes } (.branch tag ids) coord) [.branch tag trees] := by
  obtain ⟨_, _, hrun, he, ht, hid⟩ := Fold.builds_intern h.grounded tag hids coord
  cases hrun
  exact ⟨h.stores.trans he, ht, h.env, h.errors, [_], rfl, .cons hid .nil⟩

end Builder

/-! ## Terms -/

/-- The node of a token that is a literal. -/
def TokenKind.literal? : TokenKind → Option Node
  | .number lexeme => some (.leaf .num lexeme)
  | .string text => some (.leaf .str text)
  | .keyword .trueWord => some ⟨.bool, [.flag true]⟩
  | .keyword .falseWord => some ⟨.bool, [.flag false]⟩
  | .keyword .nullWord => some ⟨.null, []⟩
  | _ => none

theorem TokenKind.literal_of_literal? {kind : TokenKind} {node : Node}
    (h : kind.literal? = some node) : node.children = [] ∧ node.alone.Literal := by
  unfold literal? at h
  split at h
  · cases h
    exact ⟨rfl, .text (.inl rfl), rfl⟩
  · cases h
    exact ⟨rfl, .text (.inr rfl), rfl⟩
  · cases h
    exact ⟨rfl, .flag, rfl⟩
  · cases h
    exact ⟨rfl, .flag, rfl⟩
  · cases h
    exact ⟨rfl, .bare (.inl rfl), rfl⟩
  · cases h

/-- The trees of the literals among some kinds of tokens. -/
def TokenKind.literals (kinds : List TokenKind) : List Tree :=
  kinds.filterMap fun kind => kind.literal?.map Node.alone

namespace TokenKind

variable {kinds : List TokenKind}

theorem literal_of_mem_literals {tree : Tree} (h : tree ∈ literals kinds) : tree.Literal := by
  obtain ⟨kind, -, hkind⟩ := List.mem_filterMap.1 h
  obtain ⟨node, hnode, rfl⟩ := Option.map_eq_some_iff.1 hkind
  exact (literal_of_literal? hnode).2

theorem literals_cons {kind : TokenKind} {node : Node} (h : kind.literal? = some node) :
    literals (kind :: kinds) = node.alone :: literals kinds :=
  List.filterMap_cons_some (congrArg (Option.map Node.alone) h)

theorem length_literals (h : ∀ kind ∈ kinds, kind.literal? ≠ none) :
    (literals kinds).length = kinds.length := by
  induction kinds with
  | nil => rfl
  | cons kind kinds ih =>
    obtain ⟨hkind, hrest⟩ := List.forall_mem_cons.1 h
    obtain ⟨node, hnode⟩ := Option.ne_none_iff_exists'.1 hkind
    rw [literals_cons hnode, List.length_cons, List.length_cons, ih hrest]

theorem literals_append (kinds more : List TokenKind) :
    literals (kinds ++ more) = literals kinds ++ literals more := List.filterMap_append

end TokenKind

namespace Parser

variable {token : Token} {base : Nat} {rest rules : List Rule} {b c : Builder}

/-- Rules that wait for a term of a sequence. -/
inductive Ready (base : Nat) (rest : List Rule) : List Rule → Prop where
  | first : Ready base rest (.sequence base .start :: rest)
  | next : Ready base rest (.sequence base .afterTerm :: rest)
  | operand : Ready base rest (.operator [] :: .sequence base .afterTerm :: rest)

/-- Rules that wait after a term. -/
abbrev ended (base : Nat) (rest : List Rule) : List Rule :=
  .operator [] :: .sequence base .afterTerm :: rest

theorem feed_literal {node : Node} (h : Ready base rest rules)
    (hk : token.kind.literal? = some node) (b : Builder) :
    ((⟨rules, b, false⟩ : Parser).feed token).2 =
      ⟨ended base rest, b.lay node (some token.location.coord), false⟩ := by
  obtain ⟨kind, location⟩ := token
  have hfeed : ∃ as, (⟨rules, b, false⟩ : Parser).feed ⟨kind, location⟩ =
      (as, ⟨ended base rest, b.lay node (some location.coord), false⟩) := by
    unfold TokenKind.literal? at hk
    dsimp only at hk
    split at hk
    all_goals cases hk
    all_goals cases h <;> exact ⟨_, feed_of_within (by nofun) rfl 7 rfl⟩
  obtain ⟨as, hfeed⟩ := hfeed
  rw [hfeed]

/-- A sequence has been read so far, and the nodes of its terms wait. -/
structure Reads (p : Parser) (base : Nat) (rest : List Rule) (b : Builder) (trees : List Tree) :
    Prop where
  going : p.halted = false
  ready : Ready base rest p.rules
  gains : b.Gains p.builder trees

theorem Reads.literals {tokens : List Token} {p : Parser} {trees : List Tree}
    (h : p.Reads base rest b trees) (ht : ∀ kind ∈ tokens.map Token.kind, kind.literal? ≠ none) :
    (p.feedAll tokens).Reads base rest b
      (trees ++ TokenKind.literals (tokens.map Token.kind)) := by
  induction tokens generalizing p trees with
  | nil =>
    rw [List.map_nil, TokenKind.literals, List.filterMap_nil, List.append_nil]
    exact h
  | cons token tokens ih =>
    obtain ⟨hkind, hrest⟩ := List.forall_mem_cons.1 ht
    obtain ⟨node, hnode⟩ := Option.ne_none_iff_exists'.1 hkind
    obtain ⟨rules, c, halted⟩ := p
    obtain ⟨rfl, hready, hgains⟩ := h
    obtain ⟨hchildren, -⟩ := TokenKind.literal_of_literal? hnode
    have hfeed : feedAll ⟨rules, c, false⟩ (token :: tokens) = feedAll _ tokens :=
      congrArg (feedAll · tokens) (feed_literal hready hnode c)
    rw [hfeed, List.map_cons, TokenKind.literals_cons hnode, ← List.singleton_append,
      ← List.append_assoc]
    exact ih ⟨rfl, .operand, hgains.trans (Builder.gains_lay hgains.grounded hchildren _)⟩ hrest

/-- The name of a function. -/
theorem feed_function {name : String} {params : List String} {body : NodeId} {scope : Nat}
    {word : Word} {number : Nat} (hfind : b.env.find? name = some (word, number))
    (hkind : word.kind = .function params body scope) (stage : SequenceStage)
    (location : Location) :
    (⟨.sequence base stage :: rest, b, false⟩ : Parser).feed ⟨.identifier name, location⟩ =
      (.function, ⟨ended base rest, b.lay (.leaf .ident name) (some location.coord), false⟩) := by
  obtain ⟨_, kind, _⟩ := word
  obtain rfl : kind = .function params body scope := hkind
  have hread : ((Rule.primary false).answer ⟨.identifier name, location⟩).run b =
      (.taken .function [], b.lay (.leaf .ident name) (some location.coord)) := by
    have hname : (Rule.readName name false location).run b =
        (.function, b.lay (.leaf .ident name) (some location.coord)) := by
      unfold Rule.readName
      rw [Bool.false_and, if_neg Bool.false_ne_true]
      refine (Build.run_next rfl _).trans ?_
      rw [hfind]
      rfl
    exact Build.run_next hname _
  rw [feed_waiting (by nofun) rfl]
  refine (offer_passed rfl).trans ((offer_passed rfl).trans ((offer_passed rfl).trans ?_))
  exact (offer_passed rfl).trans ((offer_passed rfl).trans (offer_taken hread))

theorem feed_open (b : Builder) (stage : SequenceStage) (location : Location) :
    (⟨.sequence base stage :: rest, b, false⟩ : Parser).feed ⟨.openParen, location⟩ =
      (.punctuation, ⟨.sequence b.nodes.length .start :: .paren location.coord :: ended base rest,
        b, false⟩) := feed_of_within (by nofun) rfl 6 rfl

/-- The nodes that a sequence has gained wait no longer. -/
theorem run_split {ids : List NodeId} (h : c.nodes = ids.reverse ++ b.nodes) :
    (Build.split b.nodes.length).run c = (ids, { c with nodes := b.nodes }) := by
  have hcount : c.nodes.length - b.nodes.length = ids.length := by
    rw [h, List.length_append, List.length_reverse, Nat.add_sub_cancel]
  show ((c.nodes.take (c.nodes.length - b.nodes.length)).reverse,
    { c with nodes := c.nodes.drop (c.nodes.length - b.nodes.length) }) = _
  rw [hcount, h, ← List.length_reverse, List.take_left, List.drop_left, List.reverse_reverse]

/-- The end of a sequence. -/
theorem run_closeSequence {trees : List Tree} (h : b.Gains c trees) :
    ∃ d, (Rule.closeSequence b.nodes.length).run c = ((), d) ∧
      b.Gains d [.branch .exprs trees] := by
  obtain ⟨ids, hnodes, hids⟩ := h.nodes
  exact ⟨_, Build.run_next (run_split hnodes) _, h.collect .exprs hids _⟩

/-- A token that ends the sequence. The next rule is offered it. -/
theorem Reads.offer_ended {p : Parser} {trees : List Tree}
    (h : p.Reads b.nodes.length rest b trees) (kind : TokenKind) (hk : kind.endsSequence = true)
    (location : Location) :
    ∃ c, p.feed ⟨kind, location⟩ = offer ⟨kind, location⟩ rest c ∧
      b.Gains c [.branch .exprs trees] := by
  obtain ⟨rules, d, halted⟩ := p
  obtain ⟨rfl, hready, hgains⟩ := h
  obtain ⟨c, hclose, hgained⟩ := run_closeSequence hgains
  refine ⟨c, ?_, hgained⟩
  have hcomment : kind ≠ .comment := by
    rintro rfl
    cases hk
  have hended : ∀ stage, offer ⟨kind, location⟩ (.sequence b.nodes.length stage :: rest) d =
      offer ⟨kind, location⟩ rest c := by
    intro stage
    have hanswer : ((Rule.sequence b.nodes.length stage).answer ⟨kind, location⟩).run d =
        (.passed [], c) := by
      show (Rule.answerSequence b.nodes.length stage ⟨kind, location⟩).run d = _
      unfold Rule.answerSequence
      rw [if_neg (show kind ≠ .dot from fun hdot => by rw [hdot] at hk; cases hk), if_pos hk]
      exact Build.run_next hclose _
    exact offer_passed hanswer
  rw [feed_waiting hcomment rfl]
  cases hready with
  | first => exact hended .start
  | next => exact hended .afterTerm
  | operand =>
    have hoperator : ((Rule.operator []).answer ⟨kind, location⟩).run d = (.passed [], d) := by
      cases kind <;> first | rfl | cases hk
    exact (offer_passed hoperator).trans (hended .afterTerm)

/-- The end of a sequence in parentheses. -/
theorem Reads.close {p : Parser} {trees : List Tree} {start : Coord}
    (h : p.Reads b.nodes.length (.paren start :: ended base rest) b trees) (location : Location) :
    (p.feed ⟨.closeParen, location⟩).2.Reads base rest b
      [.branch .paren [.branch .exprs trees]] := by
  obtain ⟨c, hfeed, hgains⟩ := h.offer_ended .closeParen rfl location
  obtain ⟨ids, hnodes, hids⟩ := hgains.nodes
  obtain ⟨id, rfl, -⟩ := Store.HoldsAll.of_single hids
  obtain ⟨store, env, nodes, errors, root⟩ := c
  obtain rfl : nodes = id :: b.nodes := hnodes
  have hparen : ((Rule.paren start).answer ⟨.closeParen, location⟩).run
      ⟨store, env, id :: b.nodes, errors, root⟩ =
        (.taken .punctuation [], Builder.lay ⟨store, env, b.nodes, errors, root⟩
          (.branch .paren [id]) (some (start.upTo location.coord))) := rfl
  rw [hfeed, offer_taken hparen]
  exact ⟨rfl, .operand, hgains.collect .paren hids _⟩

/-- The parser at the end of a program, with no other errors than those that were there. -/
def Finishes (p : Parser) (b : Builder) (sequence : Tree) : Prop :=
  ∃ s root, p = ⟨[], ⟨s, b.env, [], b.errors, some root⟩, false⟩ ∧ s.Grounded ∧
    s.Holds root (.branch .prog [sequence])

/-- The end of a text. The whole program is what its sequence is folded to. -/
theorem Reads.finish {p : Parser} {trees : List Tree} {folded : Tree}
    (h : p.Reads 0 [.programEnd] b trees) (hb : b.nodes = []) (location : Location)
    (hfold : ∀ s id, b.store.Extends s → s.Grounded → s.Holds id (.branch .exprs trees) →
      Fold.Builds s (fold b.env id) (Fold.Tells folded)) :
    (p.feed ⟨.endOfText, location⟩).2.Finishes b folded := by
  have h : p.Reads b.nodes.length [.programEnd] b trees := by
    rw [hb]
    exact h
  obtain ⟨c, hfeed, hgains⟩ := h.offer_ended .endOfText rfl location
  obtain ⟨ids, hnodes, hids⟩ := hgains.nodes
  obtain ⟨id, rfl, hid⟩ := Store.HoldsAll.of_single hids
  obtain ⟨store, env, nodes, errors, root⟩ := c
  obtain rfl : nodes = [id] := by
    rw [hb] at hnodes
    exact hnodes
  obtain rfl : env = b.env := hgains.env
  obtain rfl : errors = b.errors := hgains.errors
  obtain ⟨result, s, hresult, -, hs, htree⟩ := hfold store id hgains.stores hgains.grounded hid
  have hrun := Build.run_foldNode_of_gives
    (b := ⟨store, b.env, [], b.errors, root⟩) hresult
  obtain ⟨prog, t, hprog, -, ht, hroot⟩ :=
    Fold.builds_intern hs .prog (.cons htree .nil) (s.coord? id)
  have hintern : s.intern (.branch .prog [result]) (s.coord? id) = (prog, t) := by
    cases hprog
    rfl
  refine ⟨t, prog, ?_, ht, hroot⟩
  have hend : (Rule.programEnd.answer ⟨.endOfText, location⟩).run
      ⟨store, b.env, [id], b.errors, root⟩ =
        (.taken .punctuation [], ⟨t, b.env, [], b.errors, some prog⟩) := by
    refine (Build.run_next rfl _).trans ((Build.run_next hrun _).trans ?_)
    exact (Build.run_next rfl _).trans (Build.run_next (Build.run_intern hintern) _)
  rw [hfeed, offer_taken hend]
  rfl

end Parser

/-! ## Programs -/

/-- Two snapshots with the same results whatever number texts of functions show, and with the same
results at all if these do not depend on the numbers. -/
def Snapshot.SameResults (a b : Snapshot) : Prop :=
  ∀ steps config data,
    (∀ id, (compileShowing (fun _ => id) steps config a data).SameButPlaces
      (compileShowing (fun _ => id) steps config b data)) ∧
    ((∀ shown, compileShowing shown steps config a data = compileWithin steps config a data) →
      (∀ shown, compileShowing shown steps config b data = compileWithin steps config b data) →
      (compileWithin steps config a data).SameButPlaces (compileWithin steps config b data))

theorem Store.sameResults {s t : Store} {root root' : NodeId} {tree : Tree} (hs : s.Grounded)
    (ht : t.Grounded) (h : s.Holds root tree) (h' : t.Holds root' tree) :
    (s.snapshot root).SameResults (t.snapshot root') := by
  obtain ⟨slots, hn, -⟩ := h.exists_node hs
  obtain ⟨slots', hn', -⟩ := h'.exists_node ht
  obtain ⟨loaded, hload, hentries⟩ := hs.load_snapshot (hn ▸ Option.some_ne_none _)
  obtain ⟨loaded', hload', hentries'⟩ := ht.load_snapshot (hn' ▸ Option.some_ne_none _)
  have htree : loaded.tree? root = loaded'.tree? root' := by
    rw [Store.tree?_congr hentries, Store.tree?_congr hentries']
    exact h.trans h'.symm
  intro steps config data
  obtain ⟨-, hshown, -, hfree⟩ := compileWithin_sameTree (a := s.snapshot root)
    (b := t.snapshot root') rfl hload hload' htree steps config data
  exact ⟨fun id => hshown _ _ fun _ _ _ _ _ => rfl, hfree⟩

namespace Parser

variable {b : Builder} {p : Parser}

/-- Only definitions have been read so far, and the last one is complete. Whatever token comes next,
`b` has been built before it. -/
structure Defines (p : Parser) (b : Builder) : Prop where
  going : p.halted = false
  last : ∃ name params, p.rules = [.letBody name params, .sequence 0 .afterTerm, .programEnd] ∧
    ∀ token, (Rule.answerLetBody name params token).run p.builder = (.passed [], b)
  nodes : b.nodes = []

/-- What has been built after some definitions. -/
theorem Defines.grounded {lexicon : Lexicon} {limit : Nat} (h : p.Defines b)
    (hp : Passes lexicon limit p) : b.store.Grounded := by
  obtain ⟨name, params, hrules, hlast⟩ := h.last
  have hanswer : ((Rule.letBody name params).answer default).run p.builder = (.passed [], b) :=
    hlast default
  obtain ⟨hsound, ⟨hroot, hstacked⟩ | ⟨hnil, -⟩⟩ := hp.going h.going
  · rw [hrules] at hstacked
    exact (Rule.leaves_answer hstacked hsound hroot hanswer).1.grounded
  · cases hrules.symm.trans hnil

/-- The sequence of the program goes on after the last definition. -/
theorem Defines.feedAll (h : p.Defines b) {token : Token} (hk : token.kind ≠ .comment)
    (tokens : List Token) : p.feedAll (token :: tokens) =
      Parser.feedAll ⟨[.sequence 0 .afterTerm, .programEnd], b, false⟩ (token :: tokens) := by
  obtain ⟨rules, c, halted⟩ := p
  obtain ⟨rfl, ⟨name, params, rfl, hlast⟩, -⟩ := h
  have hanswer : ((Rule.letBody name params).answer token).run c = (.passed [], b) := hlast token
  refine congrArg (fun out => Parser.feedAll (Prod.snd out) tokens) ?_
  rw [feed_waiting hk rfl, feed_waiting hk rfl]
  exact offer_passed hanswer

/-- Comments change nothing. -/
theorem exists_feedAll (tokens : List Token) :
    ∃ others : List Token, others.map Token.kind = Token.kinds tokens ∧
      ∀ p : Parser, p.feedAll tokens = p.feedAll others := by
  induction tokens with
  | nil => exact ⟨[], rfl, fun _ => rfl⟩
  | cons token tokens ih =>
    obtain ⟨others, hkinds, hfeed⟩ := ih
    by_cases hcomment : token.kind = .comment
    · refine ⟨others, ?_, fun p => ?_⟩
      · rw [← List.singleton_append, Token.kinds_append, Token.kinds_comment hcomment, hkinds,
          List.nil_append]
      · rw [← hfeed]
        exact congrArg (feedAll · tokens) (feed_comment hcomment)
    · refine ⟨token :: others, ?_, fun p => hfeed _⟩
      rw [List.map_cons, hkinds, Token.kinds_cons hcomment]

theorem feedAll_append (p : Parser) (tokens others : List Token) :
    p.feedAll (tokens ++ others) = (p.feedAll tokens).feedAll others := List.foldl_append

section

variable {room : Nat} {name : String} {params : List String} {tree : Tree}

/-- The name of a function and literals after it. -/
theorem reads_call (hb : b.store.Grounded) (hcalls : b.env.Calls b.store room name params tree)
    {arguments : List Token} (hl : ∀ kind ∈ arguments.map Token.kind, kind.literal? ≠ none)
    (base : Nat) (rest : List Rule) (stage : SequenceStage) (location : Location) :
    (feedAll ⟨.sequence base stage :: rest, b, false⟩
      (⟨.identifier name, location⟩ :: arguments)).Reads base rest b
        (.leaf .ident name :: TokenKind.literals (arguments.map Token.kind)) := by
  obtain ⟨word, number, body, scope, hfind, hkind, -⟩ := hcalls.function
  have hname : (⟨ended base rest, b.lay (.leaf .ident name) (some location.coord), false⟩ :
      Parser).Reads base rest b [.leaf .ident name] := ⟨rfl, .operand, Builder.gains_lay hb rfl _⟩
  have hfeed : feedAll ⟨.sequence base stage :: rest, b, false⟩
      (⟨.identifier name, location⟩ :: arguments) = feedAll _ arguments :=
    congrArg (fun out => feedAll (Prod.snd out) arguments)
      (feed_function hfind hkind stage location)
  rw [hfeed]
  exact hname.literals hl

/-- The same in parentheses, and literals after them. -/
theorem reads_staged (hb : b.store.Grounded)
    (hcalls : b.env.Calls b.store room name params tree) {first later : List Token}
    (hfirst : ∀ kind ∈ first.map Token.kind, kind.literal? ≠ none)
    (hlater : ∀ kind ∈ later.map Token.kind, kind.literal? ≠ none) (base : Nat)
    (rest : List Rule) (stage : SequenceStage) (opening named closing : Location) :
    (feedAll ⟨.sequence base stage :: rest, b, false⟩ (⟨.openParen, opening⟩ ::
      ⟨.identifier name, named⟩ :: (first ++ ⟨.closeParen, closing⟩ :: later))).Reads base rest b
        (.branch .paren [.branch .exprs
          (.leaf .ident name :: TokenKind.literals (first.map Token.kind))] ::
            TokenKind.literals (later.map Token.kind)) := by
  have hinner := reads_call hb hcalls hfirst b.nodes.length
    (.paren opening.coord :: ended base rest) .start named
  have hfeed : feedAll ⟨.sequence base stage :: rest, b, false⟩ (⟨.openParen, opening⟩ ::
      ⟨.identifier name, named⟩ :: (first ++ ⟨.closeParen, closing⟩ :: later)) =
        feedAll _ (⟨.identifier name, named⟩ :: (first ++ ⟨.closeParen, closing⟩ :: later)) :=
    congrArg (fun out => feedAll (Prod.snd out) _) (feed_open b stage opening)
  rw [hfeed, ← List.cons_append, feedAll_append]
  exact (hinner.close closing).literals hlater

/-- A program that applies a function to literals. -/
theorem Defines.call (h : p.Defines b) (hb : b.store.Grounded) (hroom : b.env.room = room + 1)
    (hcalls : b.env.Calls b.store room name params tree) {arguments : List TokenKind}
    (hl : ∀ kind ∈ arguments, kind.literal? ≠ none) (hle : arguments.length ≤ params.length)
    {tokens : List Token}
    (ht : Token.kinds tokens = .identifier name :: (arguments ++ [.endOfText])) :
    (p.feedAll tokens).Finishes b
      (.branch .exprs [Tree.called params tree (TokenKind.literals arguments)]) := by
  obtain ⟨_, hkinds, hfeed⟩ := exists_feedAll tokens
  rw [ht] at hkinds
  obtain ⟨⟨_, named⟩, _, rfl, rfl, hothers⟩ := List.map_eq_cons_iff.1 hkinds
  obtain ⟨arguments, _, rfl, rfl, hend⟩ := List.map_eq_append_iff.1 hothers
  obtain ⟨⟨_, ending⟩, rfl, rfl⟩ := List.map_eq_singleton_iff.1 hend
  rw [hfeed, h.feedAll (by nofun), ← List.cons_append, feedAll_append]
  refine (reads_call hb hcalls hl 0 _ _ named).finish h.nodes ending fun s id he hs hid => ?_
  refine builds_fold_call hs hroom (hcalls.extend hb hs he) hid
    (fun _ => TokenKind.literal_of_mem_literals) ?_
  rwa [TokenKind.length_literals hl]

/-- A program that applies a function to some literals in parentheses, and what is left of it to
others after them. -/
theorem Defines.staged (h : p.Defines b) (hb : b.store.Grounded) (hroom : b.env.room = room + 1)
    (hcalls : b.env.Calls b.store room name params tree) {first later : List TokenKind}
    (hfirst : ∀ kind ∈ first, kind.literal? ≠ none) (hlater : ∀ kind ∈ later, kind.literal? ≠ none)
    (hne : later ≠ []) (hle : (first ++ later).length ≤ params.length) {tokens : List Token}
    (ht : Token.kinds tokens =
      .openParen :: .identifier name :: (first ++ .closeParen :: (later ++ [.endOfText]))) :
    (p.feedAll tokens).Finishes b
      (.branch .exprs [Tree.called params tree (TokenKind.literals (first ++ later))]) := by
  obtain ⟨_, hkinds, hfeed⟩ := exists_feedAll tokens
  rw [ht] at hkinds
  obtain ⟨⟨_, opening⟩, _, rfl, rfl, hinner⟩ := List.map_eq_cons_iff.1 hkinds
  obtain ⟨⟨_, named⟩, _, rfl, rfl, hrest⟩ := List.map_eq_cons_iff.1 hinner
  obtain ⟨first, _, rfl, rfl, hclose⟩ := List.map_eq_append_iff.1 hrest
  obtain ⟨⟨_, closing⟩, _, rfl, rfl, hafter⟩ := List.map_eq_cons_iff.1 hclose
  obtain ⟨later, _, rfl, rfl, hend⟩ := List.map_eq_append_iff.1 hafter
  obtain ⟨⟨_, ending⟩, rfl, rfl⟩ := List.map_eq_singleton_iff.1 hend
  have happend : ⟨.openParen, opening⟩ :: ⟨.identifier name, named⟩ ::
      (first ++ ⟨.closeParen, closing⟩ :: (later ++ [⟨.endOfText, ending⟩])) =
        (⟨.openParen, opening⟩ :: ⟨.identifier name, named⟩ ::
          (first ++ ⟨.closeParen, closing⟩ :: later)) ++ [(⟨.endOfText, ending⟩ : Token)] := by
    rw [List.cons_append, List.cons_append, List.append_assoc]
    rfl
  rw [hfeed, h.feedAll (by nofun), happend, feedAll_append]
  refine (reads_staged hb hcalls hfirst hlater 0 _ _ opening named closing).finish h.nodes ending
    fun s id he hs hid => ?_
  rw [TokenKind.literals_append]
  rw [List.length_append, ← TokenKind.length_literals hfirst,
    ← TokenKind.length_literals hlater] at hle
  refine builds_fold_staged hs hroom (hcalls.extend hb hs he) hid
    (fun _ => TokenKind.literal_of_mem_literals) (fun _ => TokenKind.literal_of_mem_literals)
    (fun hnil => hne ?_) hle
  rw [← List.length_eq_zero_iff, ← TokenKind.length_literals hlater, hnil]
  rfl

end

/-- Applying a function in stages, first to some literals and then to others, is applying it to all
of them at once. Both programs are read to their ends without errors of their own, both are folded
to what the function makes of all its arguments, and their results are the same. No name but those
of the parameters may be left in the body of the function, nothing in it may be applied to anything
once it has been folded, and there must be room for the scopes of its lambdas. -/
theorem staged_call {lexicon : Lexicon} {limit : Nat} {definitions whole staged : List Token}
    (hdefines : ((start lexicon limit).feedAll definitions).Defines b) {room : Nat}
    (hroom : b.env.room = room + 1) {name : String} {params : List String} {tree : Tree}
    (hcalls : b.env.Calls b.store room name params tree) {first later : List TokenKind}
    (hfirst : ∀ kind ∈ first, kind.literal? ≠ none) (hlater : ∀ kind ∈ later, kind.literal? ≠ none)
    (hne : later ≠ []) (hle : (first ++ later).length ≤ params.length)
    (hwhole : Token.kinds whole = .identifier name :: (first ++ later ++ [.endOfText]))
    (hstaged : Token.kinds staged =
      .openParen :: .identifier name :: (first ++ .closeParen :: (later ++ [.endOfText]))) :
    ∃ s t root root' program,
      (start lexicon limit).feedAll (definitions ++ whole) =
        ⟨[], ⟨s, b.env, [], b.errors, some root⟩, false⟩ ∧
      (start lexicon limit).feedAll (definitions ++ staged) =
        ⟨[], ⟨t, b.env, [], b.errors, some root'⟩, false⟩ ∧
      program = Tree.called params tree (TokenKind.literals (first ++ later)) ∧
      s.tree? root = some (.branch .prog [.branch .exprs [program]]) ∧
      t.tree? root' = some (.branch .prog [.branch .exprs [program]]) ∧
      (s.snapshot root).SameResults (t.snapshot root') := by
  have hb := hdefines.grounded (Passes.start.feedAll definitions)
  have hl : ∀ kind ∈ first ++ later, kind.literal? ≠ none :=
    fun kind hm => (List.mem_append.1 hm).elim (hfirst kind) (hlater kind)
  obtain ⟨s, root, hs, hsg, hroot⟩ := hdefines.call hb hroom hcalls hl hle hwhole
  obtain ⟨t, root', ht, htg, hroot'⟩ :=
    hdefines.staged hb hroom hcalls hfirst hlater hne hle hstaged
  refine ⟨s, t, root, root', _, ?_, ?_, rfl, hroot, hroot', Store.sameResults hsg htg hroot hroot'⟩
  · rw [feedAll_append, hs]
  · rw [feedAll_append, ht]

/-! ### A sum -/

namespace Adding

/-- The tokens of `let sum a b = a + b..`. -/
def definitions : List Token :=
  [.keyword .letWord, .identifier "sum", .identifier "a", .identifier "b", .equal,
    .identifier "a", .operator .add, .identifier "b", .dot, .dot].map fun kind => ⟨kind, default⟩

/-- The tokens of `sum 1 2`. -/
def whole : List Token :=
  [.identifier "sum", .number "1", .number "2", .endOfText].map fun kind => ⟨kind, default⟩

/-- The tokens of `(sum 1) 2`. -/
def staged : List Token :=
  [.openParen, .identifier "sum", .number "1", .closeParen, .number "2", .endOfText].map
    fun kind => ⟨kind, default⟩

/-- The body of the function. -/
def body : Tree := .branch .exprs [.branch .add [.leaf .ident "a", .leaf .ident "b"]]

/-- The scopes around the definition, and those in it. -/
def around : Environment :=
  (Environment.ofLexicon .standard Runaway.defaultLimit).addWord (.pending "sum")

def inside : Environment := around.entered "sum" none (bindParams 0 ["a", "b"] [])

/-- Rules that wait in the body of the definition. -/
def waiting (rules : List Rule) (b : Builder) : Parser :=
  ⟨rules ++ [.letBody "sum" ["a", "b"], .sequence 0 .afterTerm, .programEnd], b, false⟩

/-- Rules that wait in the program while the definition begins. -/
def begun (rules : List Rule) (env : Environment) : Parser :=
  ⟨rules ++ [.sequence 0 .afterTerm, .programEnd], ⟨.empty, env, [], [], none⟩, false⟩

variable (l : Location) (b : Builder)

theorem feed_let : (start .standard Runaway.defaultLimit).feed ⟨.keyword .letWord, l⟩ =
    (.keyword, begun [.letName] (.ofLexicon .standard Runaway.defaultLimit)) :=
  feed_of_within (by decide) rfl 4 rfl

theorem feed_name : (begun [.letName] (.ofLexicon .standard Runaway.defaultLimit)).feed
      ⟨.identifier "sum", l⟩ =
    (.definition, begun [.letParams "sum" []] (around.push "sum" none)) :=
  feed_of_within (by decide) rfl 1 rfl

theorem feed_param : (begun [.letParams "sum" []] (around.push "sum" none)).feed
      ⟨.identifier "a", l⟩ =
    (.parameter, begun [.letParams "sum" ["a"]]
      ((around.push "sum" none).addWord (.value "a" .absent 0))) :=
  feed_of_within (by decide) rfl 1 rfl

theorem feed_secondParam : (begun [.letParams "sum" ["a"]]
      ((around.push "sum" none).addWord (.value "a" .absent 0))).feed ⟨.identifier "b", l⟩ =
    (.parameter, begun [.letParams "sum" ["a", "b"]] inside) :=
  feed_of_within (by decide) rfl 1 rfl

theorem feed_equal : (begun [.letParams "sum" ["a", "b"]] inside).feed ⟨.equal, l⟩ =
    (.punctuation, waiting [.sequence 0 .start] ⟨.empty, inside, [], [], none⟩) :=
  feed_of_within (by decide) rfl 1 rfl

theorem feed_first (s : Store) : (waiting [.sequence 0 .start] ⟨s, inside, [], [], none⟩).feed
      ⟨.identifier "a", l⟩ =
    (.parameter, waiting [.operator [], .sequence 0 .afterTerm]
      (Builder.lay ⟨s, inside, [], [], none⟩ (.leaf .ident "a") (some l.coord))) :=
  feed_of_within (by decide) rfl 6 rfl

theorem feed_add : (waiting [.operator [], .sequence 0 .afterTerm] b).feed ⟨.operator .add, l⟩ =
    (.operator, waiting [.operand [.add], .sequence 0 .afterTerm] b) :=
  feed_of_within (by decide) rfl 1 rfl

theorem feed_second (s : Store) (id : NodeId) :
    (waiting [.operand [.add], .sequence 0 .afterTerm] ⟨s, inside, [id], [], none⟩).feed
      ⟨.identifier "b", l⟩ =
    (.parameter, waiting [.operator [.add], .sequence 0 .afterTerm]
      (Builder.lay ⟨s, inside, [id], [], none⟩ (.leaf .ident "b") (some l.coord))) :=
  feed_of_within (by decide) rfl 3 rfl

theorem feed_dot (s : Store) (first second : NodeId) :
    (waiting [.operator [.add], .sequence 0 .afterTerm]
      ⟨s, inside, [second, first], [], none⟩).feed ⟨.dot, l⟩ =
    (.punctuation, waiting [.sequence 0 .afterDot]
      (Builder.lay ⟨s, inside, [], [], none⟩ (.branch .add [first, second])
        (s.joinedCoord? [first, second] <|> s.joinedCoord? [first, second]))) :=
  feed_of_within (by decide) rfl 2 rfl

theorem feed_secondDot (s : Store) (id : NodeId) :
    (waiting [.sequence 0 .afterDot] ⟨s, inside, [id], [], none⟩).feed ⟨.dot, l⟩ =
    (.punctuation, waiting [] (Builder.lay ⟨s, inside, [], [], none⟩ (.branch .exprs [id])
      (s.joinedCoord? [id]))) :=
  feed_of_within (by decide) rfl 1 rfl

/-- A node that waits. -/
theorem lay_eq {s t : Store} {id : NodeId} {node : Node} {coord : Option Coord}
    (h : Fold.Gives s (Fold.intern node coord) id t) (nodes : List NodeId) :
    Builder.lay ⟨s, inside, nodes, [], none⟩ node coord = ⟨t, inside, id :: nodes, [], none⟩ := by
  cases h
  rfl

/-- The body waits after these tokens. -/
theorem feedAll_definitions : ∃ s id, (start .standard Runaway.defaultLimit).feedAll definitions =
      waiting [] ⟨s, inside, [id], [], none⟩ ∧ s.Grounded ∧ s.Holds id body := by
  obtain ⟨a, s, hs, -, hgs, ha⟩ := Fold.builds_alone Store.grounded_empty (.leaf .ident "a") rfl
    (some (default : Location).coord)
  obtain ⟨b, t, ht, he, hgt, hb⟩ := Fold.builds_alone hgs (.leaf .ident "b") rfl
    (some (default : Location).coord)
  obtain ⟨sum, u, hu, -, hgu, hsum⟩ := Fold.builds_intern hgt .add
    (.cons (ha.extend hgs hgt he) (.cons hb .nil)) _
  obtain ⟨id, v, hv, -, hgv, hid⟩ := Fold.builds_intern hgu .exprs (.cons hsum .nil) _
  refine ⟨v, id, ?_, hgv, hid⟩
  unfold definitions feedAll
  simp only [List.map_cons, List.map_nil, List.foldl_cons, List.foldl_nil]
  rw [feed_let, feed_name, feed_param, feed_secondParam, feed_equal, feed_first, lay_eq hs,
    feed_add, feed_second, lay_eq ht, feed_dot, lay_eq hu, feed_secondDot, lay_eq hv]

/-- Nothing in the body is applied to anything. -/
theorem plain_body (room : Nat) : Plain (· ∈ ["a", "b"]) room body := by
  have hname : ∀ name ∈ ["a", "b"], Plain (· ∈ ["a", "b"]) room (.leaf .ident name) :=
    fun name => .name
  refine .row (.inl rfl) (List.forall_mem_singleton.2 (.operation ⟨rfl, nofun, nofun⟩ ?_))
    (List.pairwise_singleton _ _) fun _ => List.forall_mem_singleton.2 rfl
  exact List.forall_mem_cons.2 ⟨hname "a" (by simp),
    List.forall_mem_singleton.2 (hname "b" (by simp))⟩

/-- The names in the body stand for themselves there. -/
theorem builds_body {s : Store} {id : NodeId} (hs : s.Grounded) (hid : s.Holds id body) :
    Fold.Builds s (fold inside id) (Fold.Tells body) := by
  have hl : Tree.Literals (Tree.assigned ["a", "b"] []) :=
    Tree.literals_assigned (List.forall_mem_nil _)
  have hfolded := builds_foldWithin hs hl (Environment.offers_entered .nil around "sum" none) hid
    (plain_body inside.room)
  have hadd : Tag.add.IsOperation := ⟨rfl, nofun, nofun⟩
  have hsame : body.given (Tree.assigned ["a", "b"] []) = body := by
    unfold body
    rw [Tree.given_row (.inl rfl), List.map_singleton, Tree.given_operation hadd]
    simp only [List.map_cons, List.map_nil, Tree.given_name, Tree.assigned_nil]
    rfl
  rwa [hsame] at hfolded

/-- The function is defined after these tokens. -/
theorem defines_sum : ∃ b, ((start .standard Runaway.defaultLimit).feedAll definitions).Defines b ∧
    b.env.room = 378 + 1 ∧ b.env.Calls b.store 378 "sum" ["a", "b"] body := by
  obtain ⟨s, id, hfeed, hs, hid⟩ := feedAll_definitions
  obtain ⟨folded, t, hfold, -, ht, hfolded⟩ := builds_body hs hid
  have hrun := Build.run_foldNode_of_gives (b := ⟨s, inside, [], [], none⟩) hfold
  refine ⟨⟨t, around.define 0 "sum" (.function ["a", "b"] folded 0), [], [], none⟩, ?_, rfl, ?_⟩
  · rw [hfeed]
    refine ⟨rfl, ⟨"sum", ["a", "b"], rfl, fun token => ?_⟩, rfl⟩
    exact (Build.run_next rfl _).trans ((Build.run_next hrun _).trans rfl)
  · exact ⟨⟨_, 0, folded, 0, rfl, rfl, hfolded⟩, plain_body 378⟩

end Adding

/-- A sum, of both of its arguments at once and in stages. -/
theorem staged_call_sum : ∃ b,
    ((start .standard Runaway.defaultLimit).feedAll Adding.definitions).Defines b ∧
      b.env.room = 378 + 1 ∧ b.env.Calls b.store 378 "sum" ["a", "b"] Adding.body ∧
      ∃ s t root root',
        (start .standard Runaway.defaultLimit).feedAll (Adding.definitions ++ Adding.whole) =
          ⟨[], ⟨s, b.env, [], b.errors, some root⟩, false⟩ ∧
        (start .standard Runaway.defaultLimit).feedAll (Adding.definitions ++ Adding.staged) =
          ⟨[], ⟨t, b.env, [], b.errors, some root'⟩, false⟩ ∧
        s.tree? root = some (.branch .prog [.branch .exprs [.leaf .num "3"]]) ∧
        t.tree? root' = some (.branch .prog [.branch .exprs [.leaf .num "3"]]) ∧
        (s.snapshot root).SameResults (t.snapshot root') := by
  obtain ⟨b, hdefines, hroom, hcalls⟩ := Adding.defines_sum
  have hfirst : ∀ kind ∈ [TokenKind.number "1"], kind.literal? ≠ none :=
    List.forall_mem_singleton.2 nofun
  have hlater : ∀ kind ∈ [TokenKind.number "2"], kind.literal? ≠ none :=
    List.forall_mem_singleton.2 nofun
  have hwhole : Token.kinds Adding.whole =
      .identifier "sum" :: ([.number "1"] ++ [.number "2"] ++ [.endOfText]) := rfl
  have hstaged : Token.kinds Adding.staged = .openParen :: .identifier "sum" ::
      ([.number "1"] ++ .closeParen :: ([.number "2"] ++ [.endOfText])) := rfl
  obtain ⟨s, t, root, root', program, hwhole, hstaged, rfl, hs, ht, hsame⟩ :=
    staged_call hdefines hroom hcalls hfirst hlater nofun (by decide) hwhole hstaged
  exact ⟨b, hdefines, hroom, hcalls, s, t, root, root', hwhole, hstaged, hs, ht, hsame⟩

end Parser

end Juxta
