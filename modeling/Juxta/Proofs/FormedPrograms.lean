import Juxta.Proofs.ClosedPrograms
import Juxta.Proofs.Grammar.Formed
import Juxta.Proofs.SameTree

/-!
# Programs are well-formed

Whatever a text is, the nodes that parsing stores have the slots that their kinds require. The nodes
of a complete program can be walked without looking whether something is missing.

* `Parser.Formed` : parsers whose nodes are well-formed, kept by every token (`Parser.Formed.feed`);
* `Session.of_drain` : what every token keeps holds when all tokens have been read;
* `Program.formed_store` : the nodes of all programs are well-formed;
* `Program.formed_of_beneath` : the nodes of a complete program. The only slot that may be empty is
  the second branch of a conditional.
-/

namespace Juxta

/-! ## Tokens -/

namespace Parser

/-- All nodes are well-formed. Unless parsing has been halted, the rules wait above nodes of the
right kinds. -/
structure Formed (p : Parser) : Prop where
  store : p.store.Formed
  waits : p.halted = false → ∃ waiting, Waits p.rules waiting ∧ p.builder.Formed waiting

variable {token : Token}

theorem offer_formed {rules : List Rule} {b : Builder} {waiting : List Known}
    (hrules : Waits rules waiting) (hb : b.Formed waiting) : (offer token rules b).2.Formed := by
  -- a rule that passes the token on leaves the others above what it has built
  fun_induction offer token rules b generalizing waiting with
  | case1 b =>
    refine ⟨hb.store, fun hhalted => ?_⟩
    cases hhalted
  | case2 b rule rest as more c h =>
    obtain ⟨hstore, hmore⟩ := Rule.builds_answer hrules b (.refl _) hb
    rw [h] at hstore hmore
    exact ⟨hstore, fun _ => hmore⟩
  | case3 b rule rest more c h hlt ih =>
    obtain ⟨-, hmore⟩ := Rule.builds_answer hrules b (.refl _) hb
    rw [h] at hmore
    obtain ⟨waiting, hwaits, hc⟩ := hmore
    exact ih hwaits hc
  | case4 b rule rest error c h =>
    obtain ⟨hstore, -⟩ := Rule.builds_answer hrules b (.refl _) hb
    rw [h] at hstore
    refine ⟨hstore, fun hhalted => ?_⟩
    cases hhalted

/-- One more token. -/
theorem Formed.feed {p : Parser} (h : p.Formed) (token : Token) : (p.feed token).2.Formed := by
  unfold Parser.feed
  split
  · exact h
  · split
    · exact h
    · rename_i hgoing
      obtain ⟨waiting, hwaits, hb⟩ := h.waits (Bool.eq_false_iff.2 hgoing)
      exact offer_formed hwaits hb

theorem formed_start {lexicon : Lexicon} (hl : lexicon.Fitting) (limit : Nat) :
    (start lexicon limit).Formed := by
  refine ⟨Store.formed_empty, fun _ => ⟨[], .rule [] [] rfl .nil, Store.formed_empty, ?_, .nil⟩⟩
  intro scope hs word hw
  obtain rfl := List.mem_singleton.1 hs
  obtain ⟨builtin, hbuiltin, rfl⟩ := List.mem_map.1 hw
  exact hl builtin hbuiltin

end Parser

namespace Session

variable {P : Parser → Prop}

theorem of_step {s t : Session} {step : Step} (h : P s.parser)
    (hfeed : ∀ p token, P p → P (p.feed token).2) (hs : s.step = (step, t)) : P t.parser := by
  unfold Session.step at hs
  split at hs
  · cases hs
    exact h
  · split at hs
    · cases hs
      exact hfeed _ _ h
    · cases hs
      exact h
    · cases hs
      exact h

/-- What every token keeps holds when all tokens have been read. -/
theorem of_drain {s : Session} (h : P s.parser) (hfeed : ∀ p token, P p → P (p.feed token).2) :
    P s.drain.2.parser := by
  fun_induction Session.drain s with
  | case1 s as t hs hlt steps u hdrain ih =>
    have hrest := ih (of_step h hfeed hs)
    rw [hdrain] at hrest
    exact hrest
  | case2 s last t hno hs => exact of_step h hfeed hs

end Session

/-! ## Programs -/

/-- Whether or not a text is a program, all nodes that are stored for it are well-formed. -/
theorem Program.formed_store {options : ParseOptions} (hl : options.lexicon.Fitting)
    (text : String) : (ofText options text).store.Formed :=
  have hread : (((Session.start options).push text).close).drain.2.parser.Formed :=
    Session.of_drain (Parser.formed_start hl options.limit) fun _ token h => h.feed token
  hread.store

namespace Node

variable {s : Store} {node : Node} {position : Nat} {id : NodeId}

theorem getElem?_slots_branch {tag : Tag} {ids : List NodeId}
    (h : (Node.branch tag ids).slots[position]? = some (.node id)) : ids[position]? = some id := by
  unfold Node.branch at h
  rw [List.getElem?_map] at h
  obtain ⟨other, hother, heq⟩ := Option.map_eq_some_iff.1 h
  cases heq
  exact hother

/-- What stands in a slot is stored. Only the second branch of a conditional may be missing. -/
theorem Formed.present_or_absent (h : node.Formed s)
    (hslot : node.slots[position]? = some (.node id)) :
    s.Present id ∨ id = .absent ∧ node.tag = .ifThen ∧ position = 2 := by
  have among : ∀ {tag : Tag} {ids : List NodeId}, s.AllPresent ids →
      (Node.branch tag ids).slots[position]? = some (.node id) → s.Present id :=
    fun hids hslot => hids id (List.mem_of_getElem? (getElem?_slots_branch hslot))
  cases h with
  | leaf h => cases List.mem_singleton.1 (List.mem_of_getElem? hslot)
  | flag => cases List.mem_singleton.1 (List.mem_of_getElem? hslot)
  | bare h => exact absurd (List.mem_of_getElem? hslot) List.not_mem_nil
  | row h hi => exact .inl (among hi hslot)
  | record h => exact .inl (among (fun field hm => Store.present_of_tag? (h field hm)) hslot)
  | binding hk hv =>
    exact .inl (among (List.forall_mem_cons.2
      ⟨Store.present_of_tag? hk, List.forall_mem_singleton.2 hv⟩) hslot)
  | lambda hl hp hb =>
    exact .inl (among (List.forall_mem_cons.2
      ⟨⟨_, hl⟩, List.forall_mem_singleton.2 (Store.present_of_tag? hb)⟩) hslot)
  | case hs hc =>
    exact .inl (among (List.forall_mem_cons.2
      ⟨hs, fun clause hm => Store.present_of_tag? (hc clause hm)⟩) hslot)
  | choice hc hy hn =>
    have hid := getElem?_slots_branch hslot
    match position with
    | 0 =>
      cases hid
      exact .inl hc
    | 1 =>
      cases hid
      exact .inl hy
    | 2 =>
      cases hid
      exact hn.symm.imp_right fun hnone => ⟨hnone, rfl, rfl⟩
  | operation h ho => exact .inl (among ho hslot)

theorem Formed.slot_absent (h : node.Formed s)
    (hslot : node.slots[position]? = some (.node .absent)) :
    node.tag = .ifThen ∧ position = 2 := by
  rcases h.present_or_absent hslot with hpresent | ⟨-, hplace⟩
  · exact nomatch hpresent.isAbsent
  · exact hplace

/-- A child is stored, unless its slot is empty. -/
theorem Formed.present_child (h : node.Formed s) (hm : id ∈ node.children) (ha : id ≠ .absent) :
    s.Present id := by
  obtain ⟨slot, hslot, hid⟩ := List.mem_filterMap.1 hm
  obtain ⟨position, hposition⟩ := List.mem_iff_getElem?.1 hslot
  cases slot with
  | node other =>
    cases hid
    exact (h.present_or_absent hposition).resolve_right fun habsent => ha habsent.1
  | text content => cases hid
  | flag value => cases hid

end Node

/-- What is below a stored node is stored. -/
theorem Store.Beneath.present {s : Store} (hs : s.Formed) {root id : NodeId}
    (hroot : s.Present root) (h : s.Beneath root id) (ha : id ≠ .absent) : s.Present id := by
  cases h with
  | root => exact hroot
  | child _ hn hm => exact (hs _ _ hn).present_child hm ha
  | absent => exact absurd rfl ha

namespace Program

/-- The root of a complete program is stored. -/
theorem present_root {options : ParseOptions} {text : String} {root : NodeId}
    (hroot : (ofText options text).root? = some root) :
    (ofText options text).store.Present root := by
  obtain ⟨hreached, -⟩ := (Session.reached_start options text).drain
  obtain ⟨-, -, hnode⟩ := hreached.of_root hroot
  exact Option.ne_none_iff_exists'.1 hnode

/-- All nodes of a complete program have the slots that their kinds require. Builtin functions and
operators stand above as many nodes as they take; a concatenation has its operands in a list. The
only slot that may be empty is the last one of a conditional. -/
theorem formed_of_beneath {limit : Nat} {version text : String} {root id : NodeId}
    (hroot : (ofText ⟨.standard, limit, version⟩ text).root? = some root)
    (hid : (ofText ⟨.standard, limit, version⟩ text).store.Beneath root id) (ha : id ≠ .absent) :
    ∃ node, (ofText ⟨.standard, limit, version⟩ text).store.node? id = some node ∧
      node.Formed (ofText ⟨.standard, limit, version⟩ text).store ∧
      (∀ builtin ∈ Lexicon.standard.builtins, builtin.2.tag = node.tag →
        ∃ operands, node = .branch node.tag operands ∧ operands.length = builtin.2.arity) ∧
      (∀ op : BinOp, op ≠ .concat → op.tag = node.tag →
        ∃ left right, node = .branch node.tag [left, right]) ∧
      ∀ position, node.slots[position]? = some (.node .absent) →
        node.tag = .ifThen ∧ position = 2 := by
  have hstore : (ofText ⟨.standard, limit, version⟩ text).store.Formed :=
    formed_store Lexicon.fitting_standard text
  obtain ⟨node, hnode⟩ := hid.present hstore (present_root hroot) ha
  have hformed := hstore id node hnode
  refine ⟨node, hnode, hformed, fun builtin hm htag => ?_, fun op hop htag => ?_,
    fun position hslot => hformed.slot_absent hslot⟩
  · obtain ⟨operands, hoperands, hlength, -⟩ :=
      hformed.of_operation (htag ▸ Lexicon.fitting_standard builtin hm)
    exact ⟨operands, hoperands, hlength⟩
  · obtain ⟨operands, hoperands, hlength, -⟩ :=
      hformed.of_operation (htag ▸ BinOp.operands?_tag hop)
    obtain ⟨left, right, rfl⟩ := List.length_eq_two.1 hlength
    exact ⟨left, right, hoperands⟩

/-- The lambda of a function has a list of parameters and a sequence. -/
theorem formed_of_beneath_identity :
    (ofText .standard "<x: x>").root? = some ⟨6⟩ ∧
      (ofText .standard "<x: x>").store.Beneath ⟨6⟩ ⟨4⟩ ∧ (⟨4⟩ : NodeId) ≠ .absent ∧
      ∃ node, (ofText .standard "<x: x>").store.node? ⟨4⟩ = some node ∧
        node.Formed (ofText .standard "<x: x>").store ∧ node.tag = .lambda := by
  obtain ⟨place, around, hprogram⟩ := ofText_identity
  have hroot : (ofText .standard "<x: x>").root? = some ⟨6⟩ := by
    rw [hprogram]
  have hbeneath : (ofText .standard "<x: x>").store.Beneath ⟨6⟩ ⟨4⟩ := by
    rw [hprogram]
    have hbody : (Identity.prog place around).Beneath ⟨6⟩ ⟨5⟩ := .child .root rfl List.mem_cons_self
    exact .child hbody rfl List.mem_cons_self
  have hlambda : (ofText .standard "<x: x>").store.tag? ⟨4⟩ = some .lambda := by
    rw [hprogram]
    rfl
  have ha : (⟨4⟩ : NodeId) ≠ .absent := by decide
  obtain ⟨node, hnode, hformed, -⟩ := formed_of_beneath hroot hbeneath ha
  exact ⟨hroot, hbeneath, ha, node, hnode, hformed,
    Option.some.inj ((Store.tag?_of_node? hnode).symm.trans hlambda)⟩

end Program

end Juxta
