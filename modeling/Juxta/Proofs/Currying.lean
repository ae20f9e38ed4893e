import Juxta.Evaluation
import Juxta.Proofs.Walk.Outcomes

/-!
# Calls with some of the arguments first

A function that is called with some arguments and then, if that gives a function, with others does
what it does when it is called with all of them at once.

* `Evaluator.call_append_of_lt`, `Evaluator.call_append_of_le` : what a call with more arguments
  asks for first, if there are too few without them, and if there are enough;
* `Evaluator.call_goesOn_of_lt`, `Evaluator.call_goesOn_of_le` : how such a call goes on;
* `Evaluator.call_append` : the outcomes of a call with all arguments are those of the second call,
  behind the diagnostics of the first one.
-/

namespace Juxta

namespace Evaluator

variable {e : Evaluator} {scheduling : Scheduling} {site : NodeId} {f g : Closure}
  {a b : List Value} {context : Context} {found : List Diagnostic} {outcome : Outcome Value}

/-- With too few arguments first, the function that waits for more is called with the others. -/
theorem call_append_of_lt (e : Evaluator) (site : NodeId) (b : List Value) (context : Context)
    (h : (f.applied ++ a).length < f.params.length) :
    e.call site f a context = .done [] (.function { f with applied := f.applied ++ a }) ∧
      e.call site f (a ++ b) context =
        e.call site { f with applied := f.applied ++ a } b context := by
  unfold call
  dsimp only
  rw [if_pos h, List.append_assoc]
  exact ⟨rfl, rfl⟩

/-- With enough arguments first, further ones are left over, whatever they are. -/
theorem call_append_of_le (e : Evaluator) (site : NodeId) (context : Context)
    (h : f.params.length ≤ (f.applied ++ a).length) :
    (∃ error, ∀ more, e.call site f (a ++ more) context = .abort error) ∨
      ∃ inner rest, ∀ more, e.call site f (a ++ more) context =
        .gather [f.body] inner (.surplus site (rest ++ more) context) := by
  have hle : ∀ more, ¬ (f.applied ++ (a ++ more)).length < f.params.length := by
    intro more
    rw [← List.append_assoc, List.length_append]
    omega
  have hown : ∀ more, (f.applied ++ (a ++ more)).take f.params.length =
      (f.applied ++ a).take f.params.length := by
    intro more
    rw [← List.append_assoc, List.take_append_of_le_length h]
  have hover : ∀ more, (f.applied ++ (a ++ more)).drop f.params.length =
      (f.applied ++ a).drop f.params.length ++ more := by
    intro more
    rw [← List.append_assoc, List.drop_append_of_le_length h]
  cases hscope : Scope.call f.scope context.scope "lambda"
      (f.params.zip ((f.applied ++ a).take f.params.length)) e.limit with
  | error cause =>
    refine .inl ⟨.runaway cause (e.store.coord? site), fun more => ?_⟩
    unfold call
    dsimp only
    rw [if_neg (hle more), hown, hscope]
  | ok scope =>
    refine .inr ⟨⟨scope, some ((f.applied ++ a).take f.params.length)⟩,
      (f.applied ++ a).drop f.params.length, fun more => ?_⟩
    unfold call
    dsimp only
    rw [if_neg (hle more), hown, hover, hscope]

/-- With too few arguments first, a call goes on as the call of the function that waits for more. -/
theorem call_goesOn_of_lt (hlt : (f.applied ++ a).length < f.params.length)
    (h : e.walk.Comes scheduling (e.call site f a context) (.finished found (.function g))) :
    e.walk.GoesOn scheduling (e.call site f (a ++ b) context) found (e.call site g b context) := by
  obtain ⟨hfirst, hall⟩ := call_append_of_lt e site b context hlt
  rw [hfirst] at h
  cases h.unique (e.walk.comes_done scheduling _ _)
  rw [hall]
  exact .refl

/-- With enough arguments first, a call goes on as the call of the function that the body gives.
That is the one that the first call gives, or it has been called with the arguments left over, in
fewer steps. -/
theorem call_goesOn_of_le {n : Nat} (hb : b ≠ [])
    (hle : f.params.length ≤ (f.applied ++ a).length)
    (h : e.walk.ComesIn scheduling n (e.call site f a context) (.finished found (.function g))) :
    e.walk.GoesOn scheduling (e.call site f (a ++ b) context) found (e.call site g b context) ∨
      ∃ closure rest first second, found = first ++ second ∧
        (∃ k < n, e.walk.ComesIn scheduling k (e.call site closure rest context)
          (.finished second (.function g))) ∧
        e.walk.GoesOn scheduling (e.call site f (a ++ b) context) first
          (e.call site closure (rest ++ b) context) := by
  rw [← List.append_nil a] at h
  rcases call_append_of_le e site context hle with
    ⟨error, hcall⟩ | ⟨inner, rest, hcall⟩
  · rw [hcall] at h
    cases Walk.Comes.unique ⟨n, h⟩ (e.walk.comes_abort scheduling error)
  rw [hcall, List.append_nil] at h
  rw [hcall]
  rcases h.of_visiting with ⟨error, he, -⟩ | ⟨first, value, hbody, k, hk, h⟩
  · cases he
  change e.walk.ComesIn scheduling k (e.surplus site rest context first value) _ at h
  cases value with
  | function closure =>
    have hgo : e.walk.GoesOn scheduling (.gather [f.body] inner (.surplus site (rest ++ b) context))
        first (e.call site closure (rest ++ b) context) :=
      Walk.goesOn_visiting hbody (if_neg (by simp [hb]))
    cases rest with
    | nil =>
      cases Walk.Comes.unique ⟨k, h⟩ (e.walk.comes_done scheduling first (.function closure))
      exact .inl hgo
    | cons left rest =>
      obtain ⟨j, hj, last, hlast, he⟩ := h.of_after
      cases last with
      | finished second result =>
        cases he
        exact .inr ⟨closure, left :: rest, first, second, rfl, ⟨j, Nat.lt_trans hj hk, hlast⟩, hgo⟩
      | aborted => cases he
      | unfinished => cases he
  | _ => cases Walk.Comes.unique ⟨k, h⟩ (e.walk.comes_done scheduling first _)

/-- If a function that is called with some arguments gives a function, then calling it with more
arguments comes to what calling that function with the others comes to, behind the diagnostics of
the first call. -/
theorem call_append (hb : b ≠ [])
    (h : e.walk.Comes scheduling (e.call site f a context) (.finished found (.function g))) :
    e.walk.Comes scheduling (e.call site f (a ++ b) context) outcome ↔
      ∃ last, e.walk.Comes scheduling (e.call site g b context) last ∧
        outcome = last.prepend found := by
  suffices hgo : e.walk.GoesOn scheduling (e.call site f (a ++ b) context) found
      (e.call site g b context) from hgo outcome
  obtain ⟨n, hn⟩ := h
  -- on the steps of the first call, as it may be that of a function that the body gives
  induction n using Nat.strongRecOn generalizing f a found with
  | ind n ih =>
    rcases Nat.lt_or_ge (f.applied ++ a).length f.params.length with hlt | hle
    · exact call_goesOn_of_lt hlt ⟨n, hn⟩
    · rcases call_goesOn_of_le hb hle hn with hgo | ⟨_, _, _, _, rfl, ⟨k, hk, hinner⟩, hgo⟩
      · exact hgo
      · exact hgo.trans (ih k hk hinner)

theorem fresh_name : Store.empty.index[Node.leaf .ident "y"]? = none := by simp [Store.empty]

/-- A name. -/
def nameStore : Store := .push .empty (.leaf .ident "y") none fresh_name

theorem fresh_names : nameStore.index[Node.branch .list [⟨1⟩]]? = none := by
  simp [nameStore, Store.empty, Store.push, Node.branch, Node.leaf]

/-- The name, and a list of it. -/
def paramStore : Store := nameStore.push (.branch .list [⟨1⟩]) none fresh_names

theorem fresh_identity : paramStore.index[Node.branch .lambda [⟨2⟩, ⟨1⟩]]? = none := by
  simp [paramStore, nameStore, Store.empty, Store.push, Node.branch, Node.leaf]

/-- The program `y -> y`. -/
def identityStore : Store := paramStore.push (.branch .lambda [⟨2⟩, ⟨1⟩]) none fresh_identity

/-- A function of `x` with the body `y -> y`, called with one argument and with two. -/
theorem call_append_constant :
    let e : Evaluator := ⟨identityStore, .null, 10, Config.standard.caseFallthrough⟩
    let f : Closure := ⟨⟨4⟩, ["x"], ⟨3⟩, .global, []⟩
    let g : Closure := ⟨⟨3⟩, ["y"], ⟨1⟩, ⟨"lambda", [("x", .null)], some .global, 1⟩, []⟩
    e.walk.Comes .queued (e.call ⟨3⟩ f [.null] .global) (.finished [] (.function g)) ∧
      e.walk.Comes .queued (e.call ⟨3⟩ f ([.null] ++ [.bool true]) .global)
        (.finished [] (.bool true)) := by
  intro e f g
  have hf : e.walk.Comes .queued (e.call ⟨3⟩ f [.null] .global)
      (.finished [] (.function g)) := ⟨20, Outcome.finished_ne_unfinished _ _, 20, rfl⟩
  have hg : e.walk.Comes .queued (e.call ⟨3⟩ g [.bool true] .global)
      (.finished [] (.bool true)) := ⟨20, Outcome.finished_ne_unfinished _ _, 20, rfl⟩
  exact ⟨hf, (call_append (by simp) hf).2 ⟨_, hg, rfl⟩⟩

end Evaluator

end Juxta
