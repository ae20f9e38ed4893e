import Juxta.Json.Typed

/-!
# What readers give

* `Reader.Gives` : a reader succeeds on what is in front of it, with a value and with what is left,
  wherever that stands;
* `Gives.bind`, `Gives.located`, `Gives.closing` : readers one after the other, and readers whose
  failures would be placed;
* `gives_next`, `gives_span`, `gives_skip`, `gives_word` : single characters and runs of them;
* `Reader.Iterates`, `Iterates.gives` : repeated steps, each of which reads something.
-/

namespace Juxta.Json.Reader

variable {α β σ : Type}

/-- A step after another one goes on with its result and its cursor, unless it fails. -/
theorem run_bind (r : Reader α) (next : α → Reader β) (cursor : Cursor) :
    (r >>= next).run.run cursor = match r.run.run cursor with
      | (.ok a, left) => (next a).run.run left
      | (.error failure, left) => (.error failure, left) := by
  rw [ExceptT.run_bind, StateT.run_bind]
  generalize r.run.run cursor = out
  obtain ⟨result, left⟩ := out
  cases result <;> rfl

/-- What is done about a failure does not matter to a reader that succeeds. -/
theorem run_tryCatch (r : Reader α) (recover : Failure → Reader α) (cursor : Cursor) :
    (tryCatch r recover).run.run cursor = match r.run.run cursor with
      | (.ok a, left) => (.ok a, left)
      | (.error failure, left) => (recover failure).run.run left := by
  rw [ExceptT.run_tryCatch, StateT.run_bind]
  generalize r.run.run cursor = out
  obtain ⟨result, left⟩ := out
  cases result <;> rfl

/-- A reader gives a value for the characters in front of it and leaves the rest. -/
def Gives (r : Reader α) (chars : List Char) (a : α) (rest : List Char) : Prop :=
  ∀ place, ∃ place', r.run.run ⟨chars, place⟩ = (.ok a, ⟨rest, place'⟩)

variable {chars mid rest : List Char} {a : α} {b : β}

theorem gives_pure (a : α) (chars : List Char) : Gives (pure a) chars a chars :=
  fun place => ⟨place, rfl⟩

theorem Gives.bind {r : Reader α} {next : α → Reader β} (h : Gives r chars a mid)
    (k : Gives (next a) mid b rest) : Gives (r >>= next) chars b rest := by
  intro place
  obtain ⟨between, hr⟩ := h place
  obtain ⟨after, hnext⟩ := k between
  refine ⟨after, ?_⟩
  rw [run_bind, hr]
  exact hnext

theorem Gives.tryCatch {r : Reader α} (h : Gives r chars a rest) (recover : Failure → Reader α) :
    Gives (tryCatch r recover) chars a rest := by
  intro place
  obtain ⟨after, hr⟩ := h place
  refine ⟨after, ?_⟩
  rw [run_tryCatch, hr]

/-- A reader that succeeds need not be told where it would have failed. -/
theorem Gives.located {r : Reader α} (h : Gives r chars a rest) :
    Gives (located r) chars a rest := h.tryCatch _

theorem Gives.closing {body : Reader α} {close : Reader Unit} (h : Gives body chars a mid)
    (hclose : Gives close mid () rest) : Gives (closing body close) chars a rest :=
  (h.tryCatch _).bind (hclose.bind (gives_pure a rest))

/-! ## Characters -/

theorem gives_get_bind {next : Cursor → Reader α}
    (h : ∀ place, Gives (next ⟨chars, place⟩) chars a rest) : Gives (get >>= next) chars a rest :=
  fun place => h place place

theorem gives_peek (chars : List Char) : Gives peek chars chars.head? chars :=
  fun place => ⟨place, rfl⟩

theorem gives_skip (taken rest : List Char) :
    Gives (skip taken.length) (taken ++ rest) () rest := by
  intro place
  let chars := (taken ++ rest).take taken.length
  refine ⟨place.after (byteCount chars) chars, ?_⟩
  show (Except.ok (), Cursor.mk ((taken ++ rest).drop taken.length) _) = _
  rw [List.drop_left]

theorem gives_skip_one (c : Char) (rest : List Char) : Gives (skip 1) (c :: rest) () rest :=
  gives_skip [c] rest

/-- The rest does not begin with a character of some kind. -/
def Stops (condition : Char → Bool) (rest : List Char) : Prop :=
  ∀ c ∈ rest.head?, condition c = false

theorem stops_nil (condition : Char → Bool) : Stops condition [] := nofun

theorem stops_cons {condition : Char → Bool} {c : Char} (h : condition c = false)
    (rest : List Char) : Stops condition (c :: rest) := by
  rintro d hd
  cases hd
  exact h

/-- All characters of some kind in front of one that is not. -/
theorem takeWhile_append {condition : Char → Bool} {taken rest : List Char}
    (h : ∀ c ∈ taken, condition c = true) (hrest : Stops condition rest) :
    (taken ++ rest).takeWhile condition = taken := by
  rw [List.takeWhile_append_of_pos h]
  cases rest with
  | nil => exact List.append_nil taken
  | cons c rest => rw [List.takeWhile_cons_of_neg (by simp [hrest c rfl]), List.append_nil]

theorem gives_span {condition : Char → Bool} {taken rest : List Char}
    (h : ∀ c ∈ taken, condition c = true) (hrest : Stops condition rest) :
    Gives (span condition) (taken ++ rest) taken rest := by
  refine gives_get_bind fun place => ?_
  dsimp only
  rw [takeWhile_append h hrest]
  exact (gives_skip taken rest).bind (gives_pure taken rest)

/-- In front of a character that is no blank there is nothing to pass over. -/
theorem gives_next {chars : List Char} (h : Stops isBlank chars) :
    Gives next chars chars.head? chars := by
  have hnone : Gives (span isBlank) chars [] chars := gives_span (List.forall_mem_nil _) h
  exact (hnone.bind (gives_pure () chars)).bind (gives_peek chars)

theorem gives_word (letters rest : List Char) :
    Gives (word letters) (letters ++ rest) () rest := by
  induction letters with
  | nil => exact gives_pure () rest
  | cons c letters ih =>
    refine (gives_peek _).bind ?_
    dsimp only [List.cons_append, List.head?_cons]
    rw [if_pos rfl]
    exact (gives_skip_one c _).bind ih

/-! ## Repeated steps -/

/-- Steps that are repeated until they give a result. Each step that gives none reads something. -/
inductive Iterates (step : σ → Reader (Sum σ β)) : σ → List Char → β → List Char → Prop where
  | last {state : σ} {chars rest : List Char} {result : β} :
      Gives (step state) chars (.inr result) rest → Iterates step state chars result rest
  | more {state next : σ} {chars mid rest : List Char} {result : β} :
      Gives (step state) chars (.inl next) mid → mid.length < chars.length →
      Iterates step next mid result rest → Iterates step state chars result rest

theorem Iterates.givesTo {step : σ → Reader (Sum σ β)} {state : σ}
    (h : Iterates step state chars b rest) {fuel : Nat} (hfuel : chars.length < fuel) :
    Gives (iterateTo step fuel state) chars b rest := by
  induction h generalizing fuel with
  | last hstep =>
    cases fuel with
    | zero => exact absurd hfuel (Nat.not_lt_zero _)
    | succ fuel => exact hstep.bind (gives_pure _ _)
  | more hstep hlt _ ih =>
    cases fuel with
    | zero => exact absurd hfuel (Nat.not_lt_zero _)
    | succ fuel => exact hstep.bind (ih (by omega))

/-- What is in front of a reader bounds the steps that are allowed. -/
theorem Iterates.gives {step : σ → Reader (Sum σ β)} {state : σ}
    (h : Iterates step state chars b rest) : Gives (iterate step state) chars b rest := by
  refine gives_get_bind fun place => h.givesTo ?_
  dsimp only
  omega

end Juxta.Json.Reader
