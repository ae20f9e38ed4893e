import Mathlib.Data.List.Forall2
import Juxta.Fields

/-!
# All values of some fields

* `Fields.of_get?` : what holds of all values holds of the value of a name;
* `Fields.forall_set`, `Fields.forall_ofPairs` : it still holds after new values for which it does;
* `Fields.names_nodup_ofPairs`, `Fields.ofPairs_of_nodup`, `Fields.get?_eq_some_iff` : fields that
  are set one after another have distinct names, fields with distinct names are not changed by
  setting them so, and each of their names has one value;
* `Fields.Rel` : the same names with values that are related, before and after `Fields.get?` and
  `Fields.set`.
-/

namespace Juxta

namespace Fields

variable {α : Type} {P : α → Prop}

theorem of_get? {fields : Fields α} (h : ∀ field ∈ fields, P field.2) {name : String} {value : α}
    (hv : fields.get? name = some value) : P value := by
  induction fields with
  | nil => cases hv
  | cons field rest ih =>
    obtain ⟨key, first⟩ := field
    obtain ⟨hfirst, hrest⟩ := List.forall_mem_cons.1 h
    unfold get? at hv
    split at hv
    · cases hv
      exact hfirst
    · exact ih hrest hv

theorem forall_set {fields : Fields α} (h : ∀ field ∈ fields, P field.2) {name : String}
    {new : α} (hn : P new) : ∀ field ∈ fields.set name new, P field.2 := by
  induction fields with
  | nil =>
    unfold set
    exact List.forall_mem_singleton.2 hn
  | cons field rest ih =>
    obtain ⟨key, first⟩ := field
    obtain ⟨hfirst, hrest⟩ := List.forall_mem_cons.1 h
    unfold set
    split
    · exact List.forall_mem_cons.2 ⟨hn, hrest⟩
    · exact List.forall_mem_cons.2 ⟨hfirst, ih hrest⟩

theorem forall_foldl_set {pairs : List (String × α)} (h : ∀ pair ∈ pairs, P pair.2)
    {fields : Fields α} (hf : ∀ field ∈ fields, P field.2) :
    ∀ field ∈ pairs.foldl (fun fields pair => fields.set pair.1 pair.2) fields, P field.2 := by
  induction pairs generalizing fields with
  | nil => exact hf
  | cons pair rest ih =>
    obtain ⟨hpair, hrest⟩ := List.forall_mem_cons.1 h
    exact ih hrest (forall_set hf hpair)

theorem forall_ofPairs {pairs : List (String × α)} (h : ∀ pair ∈ pairs, P pair.2) :
    ∀ field ∈ ofPairs pairs, P field.2 :=
  forall_foldl_set h fun _ hm => nomatch hm

/-! ## Distinct names -/

theorem names_nodup_foldl_set (pairs : List (String × α)) {fields : Fields α}
    (h : fields.names.Nodup) :
    (names (pairs.foldl (fun fields pair => fields.set pair.1 pair.2) fields)).Nodup := by
  induction pairs generalizing fields with
  | nil => exact h
  | cons pair rest ih => exact ih (names_nodup_set h pair.1 pair.2)

theorem names_nodup_ofPairs (pairs : List (String × α)) : (ofPairs pairs).names.Nodup :=
  names_nodup_foldl_set pairs List.nodup_nil

/-- A new name comes last. -/
theorem set_of_not_mem {fields : Fields α} {name : String} (h : name ∉ fields.names) (new : α) :
    fields.set name new = fields ++ [(name, new)] := by
  induction fields with
  | nil => rfl
  | cons field rest ih =>
    have hne : field.1 ≠ name := fun he => h (he ▸ List.mem_cons_self ..)
    have hrest : name ∉ names rest := fun hm => h (List.mem_cons_of_mem _ hm)
    unfold set
    rw [if_neg hne, ih hrest]
    rfl

theorem foldl_set_of_nodup {pairs fields : Fields α} (h : (names (fields ++ pairs)).Nodup) :
    pairs.foldl (fun fields pair => set fields pair.1 pair.2) fields = fields ++ pairs := by
  induction pairs generalizing fields with
  | nil => exact (List.append_nil fields).symm
  | cons pair rest ih =>
    have hnew : pair.1 ∉ fields.names := by
      unfold names at h ⊢
      rw [List.map_append, List.nodup_append] at h
      exact fun hm => h.2.2 _ hm _ (List.mem_cons_self ..) rfl
    have hmove : fields ++ pair :: rest = fields ++ [pair] ++ rest := by
      rw [List.append_assoc, List.singleton_append]
    rw [hmove] at h ⊢
    rw [List.foldl_cons, set_of_not_mem hnew]
    exact ih h

/-- Fields with distinct names are the same after they are set one by one. -/
theorem ofPairs_of_nodup {fields : Fields α} (h : fields.names.Nodup) : ofPairs fields = fields :=
  foldl_set_of_nodup h

theorem mem_of_get? {fields : Fields α} {name : String} {value : α}
    (h : fields.get? name = some value) : (name, value) ∈ fields := by
  induction fields with
  | nil => cases h
  | cons field rest ih =>
    obtain ⟨key, first⟩ := field
    unfold get? at h
    split at h
    · rename_i hkey
      cases h
      rw [hkey]
      exact List.mem_cons_self ..
    · exact List.mem_cons_of_mem _ (ih h)

/-- A name among distinct ones has one value, which is found. -/
theorem get?_eq_some_iff {fields : Fields α} (h : fields.names.Nodup) {name : String} {value : α} :
    fields.get? name = some value ↔ (name, value) ∈ fields := by
  refine ⟨mem_of_get?, fun hm => ?_⟩
  induction fields with
  | nil => cases hm
  | cons field rest ih =>
    obtain ⟨key, first⟩ := field
    obtain ⟨hkey, hrest⟩ := List.nodup_cons.1 h
    unfold get?
    rcases List.mem_cons.1 hm with heq | hm
    · cases heq
      rw [if_pos rfl]
    · rw [if_neg ?_]
      · exact ih hrest hm
      · rintro rfl
        exact hkey (List.mem_map.2 ⟨_, hm, rfl⟩)

/-! ## Values that are related -/

section

variable {β : Type} {R : α → β → Prop} {fields pairs : Fields α} {fields' pairs' : Fields β}

/-- The same names with values that are related. -/
abbrev Rel (R : α → β → Prop) : Fields α → Fields β → Prop :=
  List.Forall₂ fun field field' => field.1 = field'.1 ∧ R field.2 field'.2

theorem rel_iff : Rel R fields fields' ↔ fields.names = fields'.names ∧
    List.Forall₂ R (fields.map Prod.snd) (fields'.map Prod.snd) := by
  constructor
  · intro h
    refine ⟨?_, List.rel_map (fun _ _ hfield => hfield.2) h⟩
    exact List.forall₂_eq_eq_eq ▸ List.rel_map (fun _ _ hfield => hfield.1) h
  · induction fields generalizing fields' with
    | nil =>
      rintro ⟨hnames, -⟩
      rw [List.map_eq_nil_iff.1 hnames.symm]
      exact .nil
    | cons field rest ih =>
      rintro ⟨hnames, hvalues⟩
      cases fields' with
      | nil => cases hnames
      | cons field' rest' =>
        obtain ⟨hname, hothers⟩ := List.cons_eq_cons.1 hnames
        obtain ⟨hvalue, hrest⟩ := List.forall₂_cons.1 hvalues
        exact .cons ⟨hname, hvalue⟩ (ih ⟨hothers, hrest⟩)

theorem Rel.get? (h : Rel R fields fields') (name : String) :
    Option.Rel R (fields.get? name) (fields'.get? name) := by
  induction h with
  | nil => exact .none
  | @cons field field' rest rest' hfield _ ih =>
    obtain ⟨key, value⟩ := field
    obtain ⟨rfl, hvalue⟩ := hfield
    unfold Fields.get?
    split
    · exact .some hvalue
    · exact ih

theorem Rel.set (h : Rel R fields fields') (name : String) {new : α} {new' : β} (hn : R new new') :
    Rel R (fields.set name new) (fields'.set name new') := by
  induction h with
  | nil => exact .cons ⟨rfl, hn⟩ .nil
  | @cons field field' rest rest' hfield hrest ih =>
    obtain ⟨key, value⟩ := field
    obtain ⟨rfl, hvalue⟩ := hfield
    unfold Fields.set
    split
    · exact .cons ⟨rfl, hn⟩ hrest
    · exact .cons ⟨rfl, hvalue⟩ ih

theorem Rel.foldl_set (hp : Rel R pairs pairs') (h : Rel R fields fields') :
    Rel R (pairs.foldl (fun fields pair => Fields.set fields pair.1 pair.2) fields)
      (pairs'.foldl (fun fields pair => Fields.set fields pair.1 pair.2) fields') := by
  induction hp generalizing fields fields' with
  | nil => exact h
  | @cons pair pair' _ _ hpair _ ih =>
    obtain ⟨hname, hvalue⟩ := hpair
    rw [List.foldl_cons, List.foldl_cons, ← hname]
    exact ih (h.set pair.1 hvalue)

theorem Rel.ofPairs (h : Rel R pairs pairs') : Rel R (ofPairs pairs) (ofPairs pairs') :=
  h.foldl_set .nil

/-- Names together with values that are related. -/
theorem Rel.zip (names : List String) {values : List α} {values' : List β}
    (h : List.Forall₂ R values values') : Rel R (names.zip values) (names.zip values') := by
  induction h generalizing names with
  | nil =>
    rw [List.zip_nil_right, List.zip_nil_right]
    exact .nil
  | cons hvalue _ ih =>
    cases names with
    | nil => exact .nil
    | cons name rest => exact .cons ⟨rfl, hvalue⟩ (ih rest)

end

end Fields

end Juxta
