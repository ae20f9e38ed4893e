import Juxta.Value.Json
import Juxta.Proofs.Json.Distinct

/-!
# Data that passes through unchanged

Data from outside becomes a value and is handed back as it was, as long as its numbers are whole
ones of 63 bits and a sign.

* `Json.Integral` : all numbers in a value are whole ones of some kind;
* `Decimal.toInt_ofInt?` : a whole number as a decimal is the same number;
* `Value.json_ofWhole` : which numbers of 64 bits, signed or not, come back as they were;
* `Value.json_ofJson_iff` : the values that come back as they were, fields and items in their order.
-/

namespace Juxta

/-- All numbers in a value are whole ones of some kind. -/
inductive Json.Integral (kind : Int → Prop) : Json → Prop where
  | null : Integral kind .null
  | bool {flag} : Integral kind (.bool flag)
  | whole {n} : kind n → Integral kind (.whole n)
  | str {content} : Integral kind (.str content)
  | arr {items} : (∀ item ∈ items, Integral kind item) → Integral kind (.arr items)
  | obj {fields} : (∀ field ∈ fields, Integral kind field.2) → Integral kind (.obj fields)

namespace Json.Integral

variable {kind : Int → Prop}

theorem whole_iff {n : Int} : Integral kind (.whole n) ↔ kind n :=
  ⟨fun h => by cases h; assumption, .whole⟩

theorem arr_iff {items : List Json} :
    Integral kind (.arr items) ↔ ∀ item ∈ items, Integral kind item :=
  ⟨fun h => by cases h; assumption, .arr⟩

theorem obj_iff {fields : List (String × Json)} :
    Integral kind (.obj fields) ↔ ∀ field ∈ fields, Integral kind field.2 :=
  ⟨fun h => by cases h; assumption, .obj⟩

end Json.Integral

/-! ## Numbers -/

/-- A whole number of 64 bits, signed or not: what is read without rounding. -/
def Json.Held (n : Int) : Prop := -9223372036854775808 ≤ n ∧ n < 18446744073709551616

/-- A whole number of 63 bits and a sign. -/
def Json.Signed (n : Int) : Prop := -9223372036854775808 ≤ n ∧ n < 9223372036854775808

theorem Decimal.toInt_ofInt? {n : Int} (h : n.natAbs < bound) :
    ∃ d, ofInt? n = some d ∧ d.isWhole = true ∧ d.toInt = n := by
  refine ⟨_, dif_pos ⟨h, Nat.zero_le _⟩, ?_, ?_⟩
  · show (n.natAbs % 1 == 0) = true
    rw [Nat.mod_one]
    rfl
  · show (if (decide (n < 0) && n.natAbs != 0) = true then -((n.natAbs / 1 : Nat) : Int)
      else ((n.natAbs / 1 : Nat) : Int)) = n
    rw [Nat.div_one]
    split
    · rename_i hneg
      rw [Bool.and_eq_true, decide_eq_true_eq] at hneg
      omega
    · rename_i hneg
      rw [Bool.and_eq_true, decide_eq_true_eq, bne_iff_ne] at hneg
      omega

namespace Value

/-- A whole number of 64 bits comes back as it was exactly if its sign is one of the bits. -/
theorem json_ofWhole {n : Int} (h : Json.Held n) :
    (ofJson (.whole n)).json = .whole n ↔ Json.Signed n := by
  unfold Json.Held at h
  unfold Json.Signed
  have hbound : n.natAbs < Decimal.bound := by
    unfold Decimal.bound
    omega
  obtain ⟨d, hd, hwhole, hint⟩ := Decimal.toInt_ofInt? hbound
  have hjson : (ofJson (.whole n)).json = numberJson d := by
    unfold ofJson
    rw [hd]
    rfl
  rw [hjson]
  unfold numberJson Decimal.toInt64?
  rw [if_pos hwhole, hint]
  by_cases hsigned : -9223372036854775808 ≤ n ∧ n < 9223372036854775808
  · rw [if_pos (by simpa using hsigned)]
    exact iff_of_true rfl hsigned
  · rw [if_neg (by simpa using hsigned)]
    refine iff_of_false (fun heq => ?_) hsigned
    dsimp only at heq
    split at heq <;> cases heq

/-! ## Lists and records -/

theorem names_ofJsonFields : ∀ fields : List (String × Json),
    Fields.names (ofJsonFields fields) = Fields.names fields
  | [] => rfl
  | (name, _) :: rest => congrArg (name :: ·) (names_ofJsonFields rest)

theorem names_jsonFields : ∀ fields : List (String × Value),
    Fields.names (jsonFields fields) = Fields.names fields
  | [] => rfl
  | (name, _) :: rest => congrArg (name :: ·) (names_jsonFields rest)

mutual

theorem json_ofJson_iff : ∀ {j : Json}, j.Distinct → j.Integral Json.Held →
    ((ofJson j).json = j ↔ j.Integral Json.Signed)
  | .null, _, _ => iff_of_true rfl .null
  | .bool _, _, _ => iff_of_true rfl .bool
  | .str _, _, _ => iff_of_true rfl .str
  | .real _, _, hn => nomatch hn
  | .whole n, _, hn => by
    rw [json_ofWhole (Json.Integral.whole_iff.1 hn), Json.Integral.whole_iff]
  | .arr items, hd, hn => by
    rw [Json.Integral.arr_iff, ← jsonItems_ofJsonItems_iff (Json.Distinct.arr_iff.1 hd)
      (Json.Integral.arr_iff.1 hn)]
    show Json.arr (jsonItems (ofJsonItems items)) = Json.arr items ↔ _
    rw [Json.arr.injEq]
  | .obj fields, hd, hn => by
    obtain ⟨hnodup, hfields⟩ := Json.Distinct.obj_iff.1 hd
    rw [Json.Integral.obj_iff,
      ← jsonFields_ofJsonFields_iff hfields (Json.Integral.obj_iff.1 hn)]
    show Json.obj (Fields.ofPairs (jsonFields (ofJsonFields fields))) = Json.obj fields ↔ _
    rw [Json.obj.injEq, Fields.ofPairs_of_nodup]
    rw [names_jsonFields, names_ofJsonFields]
    exact hnodup

theorem jsonItems_ofJsonItems_iff : ∀ {items : List Json}, (∀ item ∈ items, item.Distinct) →
    (∀ item ∈ items, item.Integral Json.Held) →
    (jsonItems (ofJsonItems items) = items ↔ ∀ item ∈ items, item.Integral Json.Signed)
  | [], _, _ => iff_of_true rfl (by nofun)
  | item :: rest, hd, hn => by
    obtain ⟨hditem, hdrest⟩ := List.forall_mem_cons.1 hd
    obtain ⟨hnitem, hnrest⟩ := List.forall_mem_cons.1 hn
    rw [List.forall_mem_cons, ← json_ofJson_iff hditem hnitem,
      ← jsonItems_ofJsonItems_iff hdrest hnrest]
    exact List.cons_eq_cons

theorem jsonFields_ofJsonFields_iff : ∀ {fields : List (String × Json)},
    (∀ field ∈ fields, field.2.Distinct) →
    (∀ field ∈ fields, field.2.Integral Json.Held) →
    (jsonFields (ofJsonFields fields) = fields ↔
      ∀ field ∈ fields, field.2.Integral Json.Signed)
  | [], _, _ => iff_of_true rfl (by nofun)
  | (name, value) :: rest, hd, hn => by
    obtain ⟨hdvalue, hdrest⟩ := List.forall_mem_cons.1 hd
    obtain ⟨hnvalue, hnrest⟩ := List.forall_mem_cons.1 hn
    rw [List.forall_mem_cons, ← json_ofJson_iff hdvalue hnvalue,
      ← jsonFields_ofJsonFields_iff hdrest hnrest]
    show (name, (ofJson value).json) :: jsonFields (ofJsonFields rest) = (name, value) :: rest ↔ _
    rw [List.cons_eq_cons, Prod.mk.injEq]
    exact and_congr_left fun _ => and_iff_right rfl

end

/-- External data whose numbers are all whole ones of 64 bits, signed or not, comes back as it was
exactly if none of them needs all 64 bits for its magnitude: with every item and every field in its
place. -/
theorem unchanged_iff {j : Json} (hd : j.Distinct) (hn : j.Integral Json.Held) :
    (ofJson j).json = j ↔ j.Integral Json.Signed := json_ofJson_iff hd hn

/-- The least and the greatest signed number, in an object in a list. -/
def limits : Json :=
  .arr [.obj [("least", .whole (-9223372036854775808)), ("greatest", .whole 9223372036854775807)],
    .null]

theorem limits_unchanged : (ofJson limits).json = limits := by
  have hheld {n : Int} (h : -9223372036854775808 ≤ n ∧ n ≤ 9223372036854775807) :
      Json.Held n ∧ Json.Signed n := by
    unfold Json.Held Json.Signed
    omega
  have hleast := hheld (n := -9223372036854775808) (by decide)
  have hgreatest := hheld (n := 9223372036854775807) (by decide)
  have hd : limits.Distinct := by
    unfold limits
    simp [Json.Distinct.arr_iff, Json.Distinct.obj_iff, Json.Distinct.null, Json.Distinct.whole,
      Fields.names]
  have hn : limits.Integral Json.Held := by
    unfold limits
    simp [Json.Integral.arr_iff, Json.Integral.obj_iff, Json.Integral.whole_iff,
      Json.Integral.null, hleast, hgreatest]
  refine (unchanged_iff hd hn).2 ?_
  unfold limits
  simp [Json.Integral.arr_iff, Json.Integral.obj_iff, Json.Integral.whole_iff,
    Json.Integral.null, hleast, hgreatest]

/-- The greatest unsigned number is read without rounding but handed back as a binary number. -/
theorem greatest_rounded : Json.Held 18446744073709551615 ∧
    (ofJson (.whole 18446744073709551615)).json ≠ .whole 18446744073709551615 ∧
    (ofJson (.whole 18446744073709551615)).json.text = "1.8446744073709552e+19" := by
  have hheld : Json.Held 18446744073709551615 := by
    unfold Json.Held
    omega
  refine ⟨hheld, fun hback => ?_, by decide +kernel⟩
  have hsigned := (json_ofWhole hheld).1 hback
  unfold Json.Signed at hsigned
  omega

end Value

end Juxta
