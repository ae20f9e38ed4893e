import Juxta.Proofs.Fields
import Juxta.Proofs.Json.Reading

/-!
# Objects with distinct names

* `Json.Distinct` : no object in a value has a name twice;
* `Reader.Only` : whatever a reader gives satisfies a condition;
* `Only.bind`, `Only.iterate` : readers one after the other, and repeated steps;
* `Reader.only_value`, `Json.distinct_of_parse` : what is read from a text is of this kind, whatever
  the text repeats.
-/

namespace Juxta.Json

/-- No object in a value has a name twice. -/
inductive Distinct : Json → Prop where
  | null : Distinct .null
  | bool {flag} : Distinct (.bool flag)
  | whole {n} : Distinct (.whole n)
  | real {x} : Distinct (.real x)
  | str {content} : Distinct (.str content)
  | arr {items} : (∀ item ∈ items, Distinct item) → Distinct (.arr items)
  | obj {fields} : (Fields.names fields).Nodup → (∀ field ∈ fields, Distinct field.2) →
      Distinct (.obj fields)

theorem Distinct.arr_iff {items : List Json} :
    Distinct (.arr items) ↔ ∀ item ∈ items, Distinct item :=
  ⟨fun h => by cases h; assumption, .arr⟩

theorem Distinct.obj_iff {fields : List (String × Json)} :
    Distinct (.obj fields) ↔ (Fields.names fields).Nodup ∧ ∀ field ∈ fields, Distinct field.2 :=
  ⟨fun h => by cases h; exact ⟨‹_›, ‹_›⟩, fun h => .obj h.1 h.2⟩

namespace Reader

variable {α β σ : Type} {P : α → Prop} {Q : β → Prop}

/-- Whatever a reader gives satisfies a condition. -/
def Only (P : α → Prop) (r : Reader α) : Prop :=
  ∀ ⦃cursor a rest⦄, r.run.run cursor = (.ok a, rest) → P a

theorem Only.fst {r : Reader α} (h : r.Only P) {cursor : Cursor} {a : α}
    (ha : (r.run cursor).1 = .ok a) : P a := h (Prod.ext ha rfl)

theorem only_true (r : Reader α) : r.Only fun _ => True := fun _ _ _ _ => trivial

theorem only_pure {a : α} (h : P a) : Only P (pure a) := by
  rintro cursor b rest heq
  cases heq
  exact h

theorem only_fail (cause : Cause) : Only P (fail cause) := nofun

theorem only_failNext (cause : Cause) : Only P (failNext cause) := nofun

theorem Only.bind {r : Reader α} {next : α → Reader β} (h : r.Only P)
    (k : ∀ a, P a → (next a).Only Q) : (r >>= next).Only Q := by
  intro cursor b rest heq
  rw [run_bind] at heq
  split at heq
  · rename_i a left hr
    exact k a (h hr) heq
  · cases heq

/-- What is read before does not matter. -/
theorem only_bind (r : Reader α) {next : α → Reader β} (k : ∀ a, (next a).Only Q) :
    (r >>= next).Only Q := (only_true r).bind fun a _ => k a

/-- A state that every step keeps, up to a result. -/
theorem Only.iterateTo {I : σ → Prop} {step : σ → Reader (Sum σ β)}
    (h : ∀ state, I state → (step state).Only (Sum.elim I Q)) (fuel : Nat) {state : σ}
    (hinv : I state) : (iterateTo step fuel state).Only Q := by
  induction fuel generalizing state with
  | zero => exact only_fail _
  | succ fuel ih =>
    refine (h state hinv).bind fun out hout => ?_
    cases out with
    | inl next => exact ih hout
    | inr result => exact only_pure hout

theorem Only.iterate {I : σ → Prop} {step : σ → Reader (Sum σ β)}
    (h : ∀ state, I state → (step state).Only (Sum.elim I Q)) {state : σ}
    (hinv : I state) : (iterate step state).Only Q :=
  only_bind _ fun _ => Only.iterateTo h _ hinv

/-! ## Numbers

What is read of a number, and where reading it fails, does not matter: the result is a number. -/

theorem only_real (negative : Bool) (s : Significand) : (real negative s).Only Distinct := by
  unfold real
  split
  · exact only_pure .real
  · exact only_fail _

theorem only_exponent (negative : Bool) (s : Significand) :
    (exponent negative s).Only Distinct := by
  unfold exponent
  dsimp only
  repeat' with_reducible first
    | exact only_pure .real
    | exact only_real ..
    | refine only_bind _ fun _ => ?_
    | split

theorem only_fraction (negative : Bool) (s : Significand) :
    (fraction negative s).Only Distinct := by
  unfold fraction
  dsimp only
  repeat' with_reducible first
    | exact only_real ..
    | exact only_exponent ..
    | refine only_bind _ fun _ => ?_
    | split

theorem only_whole (negative : Bool) (s : Significand) : (whole negative s).Only Distinct := by
  unfold whole
  repeat' with_reducible first
    | exact only_pure .whole
    | exact only_real ..
    | split

theorem only_number (negative : Bool) : (number negative).Only Distinct := by
  unfold number
  dsimp only
  repeat' with_reducible first
    | exact only_whole ..
    | exact only_fraction ..
    | exact only_exponent ..
    | refine only_bind _ fun _ => ?_
    | split

/-! ## Values -/

theorem only_items {item : Reader α} (h : item.Only P) :
    (items item).Only fun done => ∀ a ∈ done, P a := by
  refine Only.iterate (I := fun done => ∀ a ∈ done, P a) (fun done hdone => ?_) (by nofun)
  refine only_bind _ fun more => ?_
  split
  · exact h.bind fun a ha => only_pure (List.forall_mem_cons.2 ⟨ha, hdone⟩)
  · exact only_pure fun a hm => hdone a (List.mem_reverse.1 hm)

/-- Every value that is read is of this kind: the fields of an object are set one by one. -/
theorem only_value (room : Nat) : (value room).Only Distinct := by
  induction room with
  | zero => exact only_failNext _
  | succ room ih =>
    have hlist : Only Distinct (do
        skip 1
        let done ← items (value room)
        endList
        return .arr done) :=
      only_bind _ fun _ => (only_items ih).bind fun done hdone =>
        only_bind _ fun _ => only_pure (.arr hdone)
    have hobject : Only Distinct (do
        skip 1
        let fields ← iterate (fun (done : List (String × Json)) => do
          if ← moreKeys done.isEmpty then
            skip 1
            let name ← string
            colon
            return .inl ((name, ← value room) :: done)
          else return .inr (Fields.ofPairs done.reverse)) []
        endObject
        return .obj fields) := by
      refine only_bind _ fun _ => Only.bind (Only.iterate
        (I := fun done : List (String × Json) => ∀ field ∈ done, field.2.Distinct)
        (Q := fun fields => (Fields.names fields).Nodup ∧ ∀ field ∈ fields, field.2.Distinct)
        (fun done hdone => ?_) (by nofun)) fun fields hfields =>
          only_bind _ fun _ => only_pure (.obj hfields.1 hfields.2)
      refine only_bind _ fun more => ?_
      split
      · refine only_bind _ fun _ => only_bind _ fun name => only_bind _ fun _ =>
          ih.bind fun value hvalue => only_pure (List.forall_mem_cons.2 ⟨hvalue, hdone⟩)
      · exact only_pure ⟨Fields.names_nodup_ofPairs _,
          Fields.forall_ofPairs fun field hm => hdone field (List.mem_reverse.1 hm)⟩
    unfold value
    refine only_bind _ fun first => ?_
    dsimp only
    split
    · exact only_failNext _
    · exact only_bind _ fun _ => only_pure .null
    · exact only_bind _ fun _ => only_pure .bool
    · exact only_bind _ fun _ => only_pure .bool
    · exact only_bind _ fun _ => only_number _
    · exact only_bind _ fun _ => only_bind _ fun content => only_pure .str
    · split
      · exact only_bind _ fun _ => hlist
      · exact hlist
    · split
      · exact only_bind _ fun _ => hobject
      · exact hobject
    · split
      · exact only_number _
      · exact only_failNext _

/-- What a reader gives for a complete text. -/
theorem Only.readAll {r : Reader α} (h : r.Only P) {text : String} {a : α}
    (ha : readAll r text = .ok a) : P a := by
  refine Only.fst ?_ ha
  refine h.bind fun result hresult => only_bind _ fun after => ?_
  cases after with
  | some _ => exact only_failNext _
  | none => exact only_pure hresult

end Reader

/-- A text that is read stands for a value without a name twice in one object. -/
theorem distinct_of_parse {text : String} {json : Json} (h : parse text = .ok json) :
    json.Distinct :=
  (Reader.only_value Reader.nesting).readAll h

end Juxta.Json
