import Juxta.Proofs.Json.Scalars

/-!
# Values that are read back

* `Spells` : the text of a value is read as a value of a type, whatever follows;
* `spells_text`, `spells_natural`, `spells_variant` : strings, numbers and names;
* `joined`, `Feeds`, `iterates_joined` : what stands between brackets, with commas in between;
* `spells_list`, `spells_table` : lists, and objects with numbers as keys;
* `Record.Fills`, `spells_record` : records, whose fields fill a state one after the other.
-/

namespace Juxta.Json

open Reader

variable {α β σ : Type}

/-! ## Texts as characters -/

theorem toList_text_nat (n : Nat) : (nat n).text.toList = Nat.toDigits 10 n := by
  show (toString (n : Int)).toList = _
  exact String.toList_ofList

theorem toList_quoted (s : String) :
    (quoted s).toList = '"' :: s.toList.flatMap encodeChar ++ ['"'] := String.toList_ofList

/-- Texts with commas in between, and with one before the first unless nothing is before it. -/
def joined : (first : Bool) → List (List Char) → List Char
  | _, [] => []
  | first, text :: rest => (if first then text else ',' :: text) ++ joined false rest

theorem intercalate_comma (texts : List (List Char)) :
    [','].intercalate texts = joined true texts := by
  cases texts with
  | nil => rfl
  | cons text rest =>
    show _ = text ++ joined false rest
    induction rest generalizing text with
    | nil => simp [joined]
    | cons next rest ih =>
      rw [List.intercalate_cons_cons, ih next]
      simp [joined]

theorem texts_eq (items : List Json) : texts items = items.map text := by
  induction items with
  | nil => rfl
  | cons item rest ih => exact congrArg (text item :: ·) ih

theorem fieldTexts_eq (fields : List (String × Json)) :
    fieldTexts fields = fields.map fun e => quoted e.1 ++ ":" ++ text e.2 := by
  induction fields with
  | nil => rfl
  | cons field rest ih =>
    obtain ⟨name, value⟩ := field
    exact congrArg ((quoted name ++ ":" ++ text value) :: ·) ih

theorem toList_text_arr (items : List Json) : (arr items).text.toList =
    '[' :: joined true (items.map fun item => item.text.toList) ++ [']'] := by
  show ("[" ++ ",".intercalate (texts items) ++ "]").toList = _
  rw [texts_eq, String.toList_append, String.toList_append, String.toList_intercalate,
    List.map_map]
  exact congrArg (fun chars => '[' :: chars ++ [']']) (intercalate_comma _)

/-- A field as characters: its name between quotes, a colon and its value. -/
def fieldChars (field : String × Json) : List Char :=
  '"' :: field.1.toList.flatMap encodeChar ++ '"' :: ':' :: field.2.text.toList

theorem toList_text_obj (fields : List (String × Json)) :
    (obj fields).text.toList = '{' :: joined true (fields.map fieldChars) ++ ['}'] := by
  have hfield : String.toList ∘ (fun e : String × Json => quoted e.1 ++ ":" ++ text e.2) =
      fieldChars := by
    funext field
    show (quoted field.1 ++ ":" ++ text field.2).toList = _
    rw [String.toList_append, String.toList_append, toList_quoted]
    simp [fieldChars]
  show ("\x7b" ++ ",".intercalate (fieldTexts fields) ++ "\x7d").toList = _
  rw [fieldTexts_eq, String.toList_append, String.toList_append, String.toList_intercalate,
    List.map_map, hfield]
  exact congrArg (fun chars => '{' :: chars ++ ['}']) (intercalate_comma _)

/-! ## Scalars -/

/-- The text of a value is read as `a`, whatever follows that does not go on with a number. -/
def Spells (r : Reader α) (json : Json) (a : α) : Prop :=
  ∀ rest, EndsNumber rest → Gives r (json.text.toList ++ rest) a rest

theorem toList_text_str_append (s : String) (rest : List Char) :
    (str s).text.toList ++ rest = '"' :: (s.toList.flatMap encodeChar ++ '"' :: rest) := by
  show (quoted s).toList ++ rest = _
  rw [toList_quoted]
  simp

/-- A reader that looks at the next character, where that is no blank. -/
theorem gives_next_bind {c : Char} (hc : isBlank c = false) {chars rest : List Char}
    {next : Option Char → Reader α} {a : α} (h : Gives (next (some c)) (c :: chars) a rest) :
    Gives (Reader.next >>= next) (c :: chars) a rest :=
  (gives_next (stops_cons hc chars)).bind h

theorem spells_text (s : String) : Spells Reader.text (.str s) s := by
  intro rest _
  rw [toList_text_str_append]
  refine (gives_next_bind (by decide) ?_).located
  exact (gives_skip_one '"' _).bind (gives_string s rest)

theorem isBlank_of_isDigit {c : Char} (h : c.isDigit = true) : isBlank c = false := by
  unfold isBlank
  simp only [Bool.or_eq_false_iff, beq_eq_false_iff_ne]
  refine ⟨⟨⟨?_, ?_⟩, ?_⟩, ?_⟩ <;> rintro rfl <;> exact absurd h (by decide)

theorem spells_natural {n bound : Nat} (h : n < bound) (hbound : bound ≤ wordBound)
    (expected : String) : Spells (natural bound expected) (.nat n) n := by
  intro rest hrest
  have hnumber := gives_number (Nat.lt_of_lt_of_le h hbound) hrest
  rw [toList_text_nat]
  obtain ⟨c, digits, hdigits, hc⟩ := exists_toDigits n
  rw [hdigits] at hnumber ⊢
  refine (gives_next_bind (isBlank_of_isDigit hc) ?_).located
  split
  · rename_i hnone
    cases hnone
  · rename_i hminus
    cases hminus
    exact absurd hc (by decide)
  · rename_i d hsome
    cases hsome
    rw [if_pos hc]
    refine hnumber.bind ?_
    show Gives (if 0 ≤ (n : Int) && (n : Int) < bound then pure (n : Int).toNat else _) rest n rest
    rw [if_pos (by simpa using h)]
    exact gives_pure n rest

theorem spells_nameOf {names : List (String × α)} {name : String} {a : α}
    (h : Fields.get? names name = some a) : Spells (nameOf names) (.str name) a := by
  intro rest _
  rw [toList_text_str_append]
  refine Gives.located ((gives_skip_one '"' _).bind ((gives_string name rest).bind ?_))
  rw [h]
  exact gives_pure a rest

theorem spells_variant {names : List (String × α)} {name : String} {a : α}
    (h : Fields.get? names name = some a) : Spells (variant names) (.str name) a := by
  intro rest hrest
  have hname := spells_nameOf h rest hrest
  rw [toList_text_str_append] at hname ⊢
  exact gives_next_bind (by decide) hname

/-! ## Whole values -/

theorem spells_value_nat {n : Nat} (h : n < wordBound) (room : Nat) :
    Spells (value (room + 1)) (.nat n) (.nat n) := by
  intro rest hrest
  have hnumber := gives_number h hrest
  rw [toList_text_nat]
  obtain ⟨c, digits, hdigits, hc⟩ := exists_toDigits n
  rw [hdigits] at hnumber ⊢
  unfold value
  refine gives_next_bind (isBlank_of_isDigit hc) ?_
  split
  case h_1 hnone => cases hnone
  case h_9 d _ _ _ _ _ _ _ hsome =>
    cases hsome
    rw [if_pos hc]
    exact hnumber
  all_goals
    rename_i hletter
    cases hletter
    exact absurd hc (by decide)

theorem spells_value_str (s : String) (room : Nat) :
    Spells (value (room + 1)) (.str s) (.str s) := by
  intro rest _
  rw [toList_text_str_append]
  unfold value
  refine gives_next_bind (by decide) ?_
  exact (gives_skip_one '"' _).bind ((gives_string s rest).bind (gives_pure _ rest))

theorem spells_value_bool (flag : Bool) (room : Nat) :
    Spells (value (room + 1)) (.bool flag) (.bool flag) := by
  intro rest _
  unfold value
  cases flag with
  | true =>
    refine gives_next_bind (by decide) ?_
    exact (gives_word ['t', 'r', 'u', 'e'] rest).bind (gives_pure _ rest)
  | false =>
    refine gives_next_bind (by decide) ?_
    exact (gives_word ['f', 'a', 'l', 's', 'e'] rest).bind (gives_pure _ rest)

/-! ## Brackets -/

/-- Steps that read one text after the other, each with the comma before it. -/
inductive Feeds (step : σ → Reader (Sum σ β)) : Bool → σ → List (List Char) → σ → Prop where
  | nil {first : Bool} {state : σ} : Feeds step first state [] state
  | cons {first : Bool} {state next last : σ} {text : List Char} {rest : List (List Char)} :
      text ≠ [] →
      (∀ after, EndsNumber after →
        Gives (step state) ((if first then text else ',' :: text) ++ after) (.inl next) after) →
      Feeds step false next rest last → Feeds step first state (text :: rest) last

theorem endsNumber_joined {close : Char} (hclose : EndsNumber [close]) (texts : List (List Char))
    (rest : List Char) : EndsNumber (joined false texts ++ close :: rest) := by
  cases texts with
  | nil => exact stops_cons (hclose close rfl) rest
  | cons text texts => exact stops_cons (by decide) _

/-- What stands between brackets. -/
theorem iterates_joined {step : σ → Reader (Sum σ β)} {close : Char} (hclose : EndsNumber [close])
    {first : Bool} {texts : List (List Char)} {state last : σ}
    (h : Feeds step first state texts last) {result : β} {rest : List Char}
    (hlast : Gives (step last) (close :: rest) (.inr result) (close :: rest)) :
    Iterates step state (joined first texts ++ close :: rest) result (close :: rest) := by
  induction h with
  | nil => exact .last hlast
  | @cons first state next last text texts hne hread _ ih =>
    have hmore := hread _ (endsNumber_joined hclose texts rest)
    have hlength := List.length_pos_iff.2 hne
    rw [joined, List.append_assoc]
    refine .more hmore ?_ (ih hlast)
    cases first <;> simp <;> omega

/-- Looking for another piece in front of a bracket: after the first piece, a comma goes before. -/
structure Looks (more : (first : Bool) → Reader Bool) (close : Char) (Opens : Char → Prop) :
    Prop where
  stop : ∀ first rest, Gives (more first) (close :: rest) false (close :: rest)
  first : ∀ c rest, Opens c → Gives (more true) (c :: rest) true (c :: rest)
  later : ∀ c rest, Opens c → Gives (more false) (',' :: c :: rest) true (c :: rest)

theorem Looks.gives {more : Bool → Reader Bool} {close : Char} {Opens : Char → Prop}
    (h : Looks more close Opens) {text rest : List Char} {c : Char} (htext : text = c :: rest)
    (hc : Opens c) (first : Bool) (after : List Char) :
    Gives (more first) ((if first then text else ',' :: text) ++ after) true (text ++ after) := by
  subst htext
  cases first with
  | true => exact h.first c (rest ++ after) hc
  | false => exact h.later c (rest ++ after) hc

theorem looks_moreItems : Looks moreItems ']' fun c => isBlank c = false ∧ c ≠ ']' where
  stop first rest := gives_next_bind (by decide) (gives_pure false _)
  first c rest hc := by
    refine gives_next_bind hc.1 ?_
    split
    · contradiction
    · rename_i hend
      cases hend
      exact absurd rfl hc.2
    · exact gives_pure true _
  later c rest hc := by
    refine gives_next_bind (by decide) ?_
    refine (gives_skip_one ',' _).bind (gives_next_bind hc.1 ?_)
    split
    · rename_i hend
      cases hend
      exact absurd rfl hc.2
    · exact gives_pure true _
    · contradiction

theorem looks_moreKeys : Looks moreKeys '}' (· = '"') where
  stop first rest := gives_next_bind (by decide) (gives_pure false _)
  first c rest hc := by
    cases hc
    exact gives_next_bind (by decide) (gives_pure true _)
  later c rest hc := by
    cases hc
    refine gives_next_bind (by decide) ?_
    exact (gives_skip_one ',' _).bind (gives_next_bind (by decide) (gives_pure true _))

theorem gives_endList (rest : List Char) : Gives endList (']' :: rest) () rest :=
  gives_next_bind (by decide) (gives_skip_one ']' rest)

theorem gives_endObject (rest : List Char) : Gives endObject ('}' :: rest) () rest :=
  gives_next_bind (by decide) (gives_skip_one '}' rest)

theorem gives_colon (rest : List Char) : Gives colon (':' :: rest) () rest :=
  gives_next_bind (by decide) (gives_skip_one ':' rest)

/-! ## Lists and tables -/

/-- Reads another piece, unless the bracket is next. -/
def gather (more : (first : Bool) → Reader Bool) (piece : Reader α) (done : List α) :
    Reader (Sum (List α) (List α)) := do
  if ← more done.isEmpty then return .inl ((← piece) :: done) else return .inr done.reverse

section

variable {more : Bool → Reader Bool} {close : Char} {Opens : Char → Prop} {piece : Reader α}
  {chars : α → List Char}

theorem feeds_gather (hmore : Looks more close Opens) {pieces : List α}
    (h : ∀ a ∈ pieces, (∃ c rest, chars a = c :: rest ∧ Opens c) ∧
      ∀ after, EndsNumber after → Gives piece (chars a ++ after) a after) (done : List α) :
    Feeds (gather more piece) done.isEmpty done (pieces.map chars) (pieces.reverse ++ done) := by
  induction pieces generalizing done with
  | nil => exact .nil
  | cons a pieces ih =>
    obtain ⟨⟨⟨c, rest, htext, hc⟩, hread⟩, hothers⟩ := List.forall_mem_cons.1 h
    rw [List.map_cons, List.reverse_cons, List.append_assoc]
    refine .cons (by simp [htext]) (fun after hafter => ?_) (ih hothers (a :: done))
    exact (hmore.gives htext hc done.isEmpty after).bind
      ((hread after hafter).bind (gives_pure _ after))

theorem gives_gather_stop (piece : Reader α) (hmore : Looks more close Opens) (done : List α)
    (rest : List Char) :
    Gives (gather more piece done) (close :: rest) (.inr done.reverse) (close :: rest) :=
  (hmore.stop done.isEmpty rest).bind (gives_pure _ _)

/-- All pieces between two brackets. -/
theorem gives_gather (hmore : Looks more close Opens) (hclose : EndsNumber [close])
    {pieces : List α} (h : ∀ a ∈ pieces, (∃ c rest, chars a = c :: rest ∧ Opens c) ∧
      ∀ after, EndsNumber after → Gives piece (chars a ++ after) a after) (rest : List Char) :
    Gives (iterate (gather more piece) []) (joined true (pieces.map chars) ++ close :: rest) pieces
      (close :: rest) := by
  have hfeeds := feeds_gather hmore h []
  rw [List.append_nil] at hfeeds
  have hstop := gives_gather_stop piece hmore pieces.reverse rest
  rw [List.reverse_reverse] at hstop
  exact (iterates_joined hclose hfeeds hstop).gives

end

/-- A text that a list may begin with. -/
def Begins (chars : List Char) : Prop :=
  ∃ c rest, chars = c :: rest ∧ isBlank c = false ∧ c ≠ ']'

theorem begins_nat (n : Nat) : Begins (nat n).text.toList := by
  obtain ⟨c, digits, hdigits, hc⟩ := exists_toDigits n
  refine ⟨c, digits, (toList_text_nat n).trans hdigits, isBlank_of_isDigit hc, ?_⟩
  rintro rfl
  exact absurd hc (by decide)

theorem begins_str (s : String) : Begins (str s).text.toList :=
  ⟨'"', _, toList_quoted s, by decide, by decide⟩

theorem begins_bool (flag : Bool) : Begins (bool flag).text.toList := by
  cases flag with
  | true => exact ⟨'t', _, rfl, by decide, by decide⟩
  | false => exact ⟨'f', _, rfl, by decide, by decide⟩

theorem spells_list {item : Reader α} {encode : α → Json} {items : List α}
    (h : ∀ a ∈ items, Begins (encode a).text.toList ∧ Spells item (encode a) a) :
    Spells (list item) (.arr (items.map encode)) items := by
  intro rest _
  rw [toList_text_arr, List.map_map, List.append_assoc]
  refine (gives_next_bind (by decide) ?_).located
  refine (gives_skip_one '[' _).bind (Gives.closing ?_ (gives_endList rest))
  exact gives_gather looks_moreItems (stops_cons (by decide) []) h rest

/-- The digits of a number between quotes. -/
theorem gives_numericKey {n bound : Nat} (h : n < bound) (hbound : bound ≤ wordBound)
    (expected : String) (rest : List Char) :
    Gives (numericKey bound expected) ('"' :: Nat.toDigits 10 n ++ '"' :: rest) n rest := by
  have hnumber := spells_natural h hbound expected ('"' :: rest) (stops_cons (by decide) rest)
  rw [toList_text_nat] at hnumber
  obtain ⟨c, digits, hdigits, hc⟩ := exists_toDigits n
  rw [hdigits] at hnumber ⊢
  refine (gives_skip_one '"' _).bind ((gives_peek _).bind ?_)
  show Gives (if (c.isDigit || c == '-') = true then _ else _) _ n rest
  rw [if_pos (by rw [hc]; rfl)]
  refine hnumber.bind ((gives_peek _).bind ?_)
  exact (gives_skip_one '"' rest).bind (gives_pure n rest)

theorem fieldChars_append (name : String) (json : Json) (after : List Char) :
    fieldChars (name, json) ++ after =
      '"' :: (name.toList.flatMap encodeChar ++ '"' :: (':' :: (json.text.toList ++ after))) := by
  simp [fieldChars]

theorem isPlain_of_isDigit {c : Char} (h : c.isDigit = true) : isPlain c = true := by
  have hcode : 48 ≤ c.toNat := by
    have hdigit := h
    simp only [Char.isDigit, Bool.and_eq_true, decide_eq_true_eq] at hdigit
    exact hdigit.1
  unfold isPlain
  simp only [Bool.and_eq_true, bne_iff_ne, decide_eq_true_eq]
  refine ⟨⟨?_, ?_⟩, by omega⟩ <;> rintro rfl <;> exact absurd h (by decide)

/-- The digits of a number need no backslashes. -/
theorem flatMap_encodeChar_toString (n : Nat) :
    (toString n).toList.flatMap encodeChar = Nat.toDigits 10 n := by
  have hdigits : (toString n).toList = Nat.toDigits 10 n := String.toList_ofList
  rw [hdigits]
  exact flatMap_encodeChar_of_isPlain fun c hm =>
    isPlain_of_isDigit (Nat.isDigit_of_mem_toDigits (by decide) (by decide) hm)

/-- Reads an entry of a table. -/
def keyed (key : Reader Nat) (entry : Reader α) : Reader (Nat × α) := do
  let k ← key
  colon
  return (k, ← entry)

theorem gather_keyed (key : Reader Nat) (entry : Reader α) :
    gather moreKeys (keyed key entry) = fun done => do
      if ← moreKeys done.isEmpty then
        let k ← key
        colon
        return .inl ((k, ← entry) :: done)
      else return .inr done.reverse := by
  funext done
  unfold gather keyed
  simp only [bind_assoc, pure_bind]

theorem spells_table {entry : Reader α} {encode : α → Json} {bound : Nat}
    (hbound : bound ≤ wordBound) (expected : String) {entries : List (Nat × α)}
    (h : ∀ e ∈ entries, e.1 < bound ∧ Spells entry (encode e.2) e.2) :
    Spells (table (numericKey bound expected) entry)
      (.obj (entries.map fun e => (toString e.1, encode e.2))) entries := by
  intro rest _
  rw [toList_text_obj, List.map_map, List.append_assoc]
  refine (gives_next_bind (by decide) ?_).located
  refine (gives_skip_one '{' _).bind (Gives.closing ?_ (gives_endObject rest))
  rw [← gather_keyed]
  refine gives_gather looks_moreKeys (stops_cons (by decide) []) (fun e hm => ?_) rest
  obtain ⟨hkey, hentry⟩ := h e hm
  refine ⟨⟨'"', _, rfl, rfl⟩, fun after hafter => ?_⟩
  dsimp only [Function.comp_apply]
  rw [fieldChars_append, flatMap_encodeChar_toString]
  refine (gives_numericKey hkey hbound expected _).bind ?_
  exact (gives_colon _).bind ((hentry after hafter).bind (gives_pure e after))

/-! ## Records -/

/-- A reader whose result is put to use. -/
theorem Spells.map {r : Reader α} {json : Json} {a : α} (h : Spells r json a) (f : α → σ) :
    Spells (do return f (← r)) json (f a) :=
  fun rest hrest => (h rest hrest).bind (gives_pure (f a) rest)

/-- Fields of a record, read one after the other into a state. -/
inductive Record.Fills (record : Record σ α) : σ → List (String × Json) → σ → Prop where
  | nil {state : σ} : record.Fills state [] state
  | cons {state next last : σ} {name : String} {json : Json} {fields : List (String × Json)} :
      name ∈ record.fields → record.has name state = false →
      Spells (record.read name state) json next → record.Fills next fields last →
      record.Fills state ((name, json) :: fields) last

/-- Reads one field of a record. -/
def nextField (record : Record σ α) (state : Bool × σ) : Reader (Sum (Bool × σ) σ) := do
  let (first, state) := state
  if !(← moreKeys first) then return .inr state
  skip 1
  let name ← string
  if record.fields.contains name then
    if record.has name state then refuse (.duplicateField name)
    colon
    return .inl (false, ← record.read name state)
  else if record.closed then refuse (.unknownField name record.fields)
  else
    colon
    skipValue
    return .inl (false, state)

theorem Record.Fills.feeds {record : Record σ α} {state last : σ} {fields : List (String × Json)}
    (h : record.Fills state fields last) (first : Bool) :
    Feeds (nextField record) first (first, state) (fields.map fieldChars)
      (first && fields.isEmpty, last) := by
  induction h generalizing first with
  | nil =>
    rw [List.isEmpty_nil, Bool.and_true]
    exact .nil
  | @cons state next last name json fields hname hhas hread _ ih =>
    rw [List.isEmpty_cons, Bool.and_false]
    refine .cons (by simp [fieldChars]) (fun after hafter => ?_) (ih false)
    have hopen : fieldChars (name, json) = '"' :: _ := rfl
    refine (looks_moreKeys.gives hopen rfl first after).bind ?_
    rw [fieldChars_append]
    refine (gives_skip_one '"' _).bind ((gives_string name _).bind ?_)
    rw [if_pos (List.contains_iff_mem.2 hname), hhas]
    exact (gives_colon _).bind ((hread after hafter).bind (gives_pure _ after))

theorem spells_record {record : Record σ α} {empty last : σ} {fields : List (String × Json)}
    (h : record.Fills empty fields last) {a : α} (hlast : record.finish last = .ok a) :
    Spells (Reader.record record empty) (.obj fields) a := by
  intro rest _
  rw [toList_text_obj, List.append_assoc]
  refine (gives_next_bind (by decide) ?_).located
  refine (gives_skip_one '{' _).bind (Gives.closing ?_ (gives_endObject rest))
  have hstop : Gives (nextField record (fields.isEmpty, last)) ('}' :: rest) (.inr last)
      ('}' :: rest) := (looks_moreKeys.stop fields.isEmpty rest).bind (gives_pure _ _)
  refine (iterates_joined (stops_cons (by decide) []) (h.feeds true) hstop).gives.bind ?_
  unfold Record.done
  rw [hlast]
  exact gives_pure a _

end Juxta.Json
