import Juxta.Proofs.FreeNames
import Juxta.Proofs.Interning
import Juxta.Proofs.Prolonged

/-!
# How many terms are taken

A name takes as many of the terms after it as a function has parameters, and each of these terms may
take others in turn. So two rows of terms are compared term by term, whatever comes after a term
that takes none of it.

* `Fold.Abreast` : two steps that come to the same wherever some nodes are stored;
* `Environment.arity`, `Environment.Spans`, `Environment.owed` : how many terms are taken;
* `Descent.abreast_term` : a term in front of different terms;
* `Descent.abreast_spans` : terms that are complete, with and without others after them.
-/

namespace Juxta

/-! ## Steps side by side -/

namespace Fold

variable {α β γ δ : Type} {s : Store}

/-- Two steps come to the same failure, or to related results and the same store. The second one may
also fail for want of order. -/
inductive SameEnd (s : Store) (post : α → β → Prop) :
    Except FoldError α × Store → Except FoldError β × Store → Prop
  | unordered {error : FoldError} {u : Store} {out : Except FoldError α × Store}
      (h : ¬ error.IsRunaway) : SameEnd s post out (.error error, u)
  | failed (error : FoldError) (u : Store) : SameEnd s post (.error error, u) (.error error, u)
  | given {a : α} {b : β} {u : Store} (he : s.Extends u) (h : post a b) :
      SameEnd s post (.ok a, u) (.ok b, u)

theorem SameEnd.get {post : α → γ → Prop} {out : Except FoldError α × Store} {t : Store}
    {next : Store → Fold γ} (h : SameEnd s post out ((next t).run.run t)) :
    SameEnd s post out ((MonadState.get >>= next).run.run t) := h

/-- Two steps that come to the same wherever the nodes of `s` are stored. -/
def Abreast (s : Store) (x : Fold α) (y : Fold β) (post : α → β → Prop) : Prop :=
  ∀ t, s.Extends t → SameEnd s post (x.run.run t) (y.run.run t)

theorem settles_extends (s : Store) : Store.Settles s.Extends :=
  fun t node coord ht _ => ht.trans (t.extends_intern node coord)

theorem Abreast.pure {a : α} {b : β} {post : α → β → Prop} (h : post a b) :
    Abreast s (Pure.pure a) (Pure.pure b) post := fun _ ht => .given ht h

theorem Abreast.same {x : Fold α} {post : α → α → Prop} (hx : Maintains s.Extends x)
    (h : ∀ a, post a a) : Abreast s x x post := by
  intro t ht
  have he := hx t ht
  generalize x.run.run t = out at he
  obtain ⟨result, u⟩ := out
  cases result with
  | ok a => exact .given he (h a)
  | error error => exact .failed error u

theorem Abreast.bind {x : Fold α} {y : Fold β} {next : α → Fold γ} {next' : β → Fold δ}
    {P : α → β → Prop} {Q : γ → δ → Prop} (h : Abreast s x y P)
    (k : ∀ a b, P a b → Abreast s (next a) (next' b) Q) :
    Abreast s (x >>= next) (y >>= next') Q := by
  intro t ht
  have hend := h t ht
  rw [run_bind, run_bind]
  generalize x.run.run t = out, y.run.run t = out' at hend
  cases hend with
  | unordered hways => exact .unordered hways
  | failed error u => exact .failed error u
  | given he hab => exact k _ _ hab _ he

theorem Abreast.imp {x : Fold α} {y : Fold β} {P Q : α → β → Prop} (h : Abreast s x y P)
    (k : ∀ a b, P a b → Q a b) : Abreast s x y Q := by
  intro t ht
  have hend := h t ht
  generalize x.run.run t = out, y.run.run t = out' at hend ⊢
  cases hend with
  | unordered hways => exact .unordered hways
  | failed error u => exact .failed error u
  | given he hab => exact .given he (k _ _ hab)

/-- The second step goes on, but stores nothing more. -/
theorem Abreast.finish {x : Fold α} {y : Fold β} {next : β → Fold γ} {P : α → β → Prop}
    {Q : α → γ → Prop} (h : Abreast s x y P)
    (k : ∀ t a b u, s.Extends t → Gives t y b u → P a b → ∃ c, Gives u (next b) c u ∧ Q a c) :
    Abreast s x (y >>= next) Q := by
  intro t ht
  have hend := h t ht
  rw [run_bind]
  generalize hy : y.run.run t = out' at hend
  generalize x.run.run t = out at hend
  cases hend with
  | unordered hways => exact .unordered hways
  | failed error u => exact .failed error u
  | @given a b u he hab =>
    obtain ⟨c, hc, hq⟩ := k t a b u ht hy hab
    dsimp only
    unfold Gives at hc
    rw [hc]
    exact .given he hq

theorem Abreast.get {next : Store → Fold γ} {next' : Store → Fold δ} {Q : γ → δ → Prop}
    (k : ∀ t, s.Extends t → Abreast s (next t) (next' t) Q) :
    Abreast s (MonadState.get >>= next) (MonadState.get >>= next') Q := fun t ht => k t ht t ht

/-- What would come after a failure makes no difference. -/
theorem abreast_throw (error : FoldError) (next : α → Fold γ) (next' : β → Fold δ)
    (Q : γ → δ → Prop) : Abreast s (throw error >>= next) (throw error >>= next') Q :=
  fun t _ => .failed error t

/-- A step that does less for want of order. -/
theorem Abreast.of_prolongs {x : Fold α} {y z : Fold β} {post : α → β → Prop}
    (h : Abreast s x y post) (hz : y.Prolongs (fun error => ¬ error.IsRunaway) z) :
    Abreast s x z post := by
  intro t ht
  rcases hz t with ⟨error, u, hways, hrun⟩ | hsame
  · rw [hrun]
    exact .unordered hways
  · rw [← hsame]
    exact h t ht

end Fold

/-! ## What names take -/

/-- How many terms a name takes: as many as a function has parameters. -/
def WordKind.arity : WordKind → Nat
  | .function params _ _ => params.length
  | .builtin _ arity => arity
  | .value _ | .pending => 0

namespace Environment

def arityOf (env : Environment) (name : String) : Nat :=
  match env.find? name with
  | some (word, _) => word.kind.arity
  | none => 0

/-- How many terms a term takes among the arguments of a function. -/
def arity (env : Environment) (s : Store) (id : NodeId) : Nat :=
  match s.node? id with
  | some node => if node.tag = .ident then env.arityOf (node.text?.getD "") else 0
  | none => 0

/-- So many terms, each with all the terms that it takes. -/
def Spans (env : Environment) (s : Store) : (count : Nat) → List NodeId → Prop
  | count, [] => count = 0
  | 0, _ :: _ => False
  | count + 1, id :: rest => Spans env s (count + env.arity s id) rest

/-- How many terms are still to be taken after some terms, if `count` were to be taken before. -/
def owed (env : Environment) (s : Store) : (count : Nat) → List NodeId → Nat
  | count, [] => count
  | count, id :: rest => owed env s (count - 1 + env.arity s id) rest

variable {env : Environment} {s : Store} {id : NodeId} {node : Node}

theorem Spans.eq_nil {ids : List NodeId} (h : env.Spans s 0 ids) : ids = [] := by
  cases ids with
  | nil => rfl
  | cons id rest => exact h.elim

theorem arity_of_ident (hn : s.node? id = some node) (ht : node.tag = .ident) :
    env.arity s id = env.arityOf (node.text?.getD "") := by
  unfold arity
  rw [hn]
  exact if_pos ht

theorem arity_of_ne (hn : s.node? id = some node) (ht : node.tag ≠ .ident) :
    env.arity s id = 0 := by
  unfold arity
  rw [hn]
  exact if_neg ht

theorem arity_of_word {word : Word} {number : Nat} (hn : s.node? id = some node)
    (ht : node.tag = .ident) (hfind : env.find? (node.text?.getD "") = some (word, number)) :
    env.arity s id = word.kind.arity := by
  rw [arity_of_ident hn ht]
  unfold arityOf
  rw [hfind]

theorem arity_of_none (hn : s.node? id = none) : env.arity s id = 0 := by
  unfold arity
  rw [hn]

end Environment

theorem Store.Extends.node?_eq {s t : Store} {id : NodeId} (h : s.Extends t) (hid : s.Knows id) :
    t.node? id = s.node? id := by
  by_cases hn : s.node? id = none
  · have habsent : ¬ 0 < id.index := fun hpos => (s.node?_ne_none_iff id).2 ⟨hpos, hid⟩ hn
    rw [hn]
    by_contra hne
    exact habsent ((t.node?_ne_none_iff id).1 hne).1
  · exact (h id hn).1

/-! ## Terms side by side -/

namespace Descent

open Fold

variable {s : Store} {d : Descent} {stand stand' : Stand} {id : NodeId} {node : Node}
  {take take' : Nat → Fold (List NodeId × Nat)} {Q : Nat → Nat → Prop}

/-- The same results, of terms that may have taken different numbers of terms. -/
abbrev Alongside {α : Type} (Q : Nat → Nat → Prop) (r r' : α × Nat) : Prop :=
  r.1 = r'.1 ∧ Q r.2 r'.2

theorem abreast_counted {x : Fold NodeId} (hx : Maintains s.Extends x) {n n' : Nat} (h : Q n n') :
    Abreast s (do return (← x, n)) (do return (← x, n')) (Alongside Q) :=
  .bind (P := Eq) (.same hx fun _ => rfl) fun _ _ hab => .pure ⟨hab, h⟩

theorem abreast_applyFollowing (hd : d.Maintaining s.Extends) (hnone : stand = .argument → Q 0 0)
    (htake : stand = .head → ∀ count, Abreast s (take count) (take' count) (Alongside Q))
    (lambda : NodeId) :
    Abreast s (d.applyFollowing stand take lambda) (d.applyFollowing stand take' lambda)
      (Alongside Q) := by
  unfold applyFollowing
  cases stand with
  | argument =>
    rw [if_pos rfl, if_pos rfl]
    exact .pure ⟨rfl, hnone rfl⟩
  | head =>
    rw [if_neg nofun, if_neg nofun]
    refine .get fun t _ => (htake rfl _).bind ?_
    rintro ⟨arguments, taken⟩ ⟨_, taken'⟩ ⟨rfl, hq⟩
    dsimp only
    split
    · exact .pure ⟨rfl, hq⟩
    · exact .get fun u _ => abreast_counted (maintains_expand hd _ _ _ _ _) hq

/-- A name, which takes no terms unless it stands for a function or, at the head, for a lambda. -/
theorem abreast_ident (hd : d.Maintaining s.Extends)
    (hstand : stand = stand' ∨ 0 < d.env.arityOf (node.text?.getD ""))
    (hnone : d.env.arityOf (node.text?.getD "") = 0 → Q 0 0)
    (htake : ∀ count, count = d.env.arityOf (node.text?.getD "") ∨
        stand = .head ∧ d.env.arityOf (node.text?.getD "") = 0 →
      Abreast s (take count) (take' count) (Alongside Q)) :
    Abreast s (d.ident stand take id node) (d.ident stand' take' id node) (Alongside Q) := by
  unfold Environment.arityOf at hstand hnone htake
  unfold ident
  dsimp only
  generalize node.text?.getD "" = name at *
  cases hfind : d.env.find? name with
  | none =>
    rw [hfind] at hnone
    exact .pure ⟨rfl, hnone rfl⟩
  | some found =>
    rw [hfind] at hstand hnone htake
    obtain ⟨⟨title, kind, offset⟩, number⟩ := found
    cases kind with
    | pending => exact .pure ⟨rfl, hnone rfl⟩
    | value bound =>
      obtain rfl := hstand.resolve_right (Nat.lt_irrefl 0)
      dsimp only
      split
      · exact .pure ⟨rfl, hnone rfl⟩
      · refine .get fun t _ => ?_
        split
        · exact abreast_applyFollowing hd (fun _ => hnone rfl)
            (fun hhead count => htake count (.inr ⟨hhead, rfl⟩)) bound
        · exact .pure ⟨rfl, hnone rfl⟩
    | function params body scope =>
      refine (htake params.length (.inl rfl)).bind ?_
      rintro ⟨arguments, taken⟩ ⟨_, taken'⟩ ⟨rfl, hq⟩
      exact abreast_counted (maintains_expand hd _ _ _ _ _) hq
    | builtin tag arity =>
      refine (htake arity (.inl rfl)).bind ?_
      rintro ⟨arguments, taken⟩ ⟨_, taken'⟩ ⟨rfl, hq⟩
      exact abreast_counted (maintains_builtin hd.settles _ _ _ _) hq

theorem abreast_paren (hd : d.Maintaining s.Extends) (hnone : Q 0 0)
    (htake : stand = .head → ∀ count, Abreast s (take count) (take' count) (Alongside Q)) :
    Abreast s (d.paren stand take id node) (d.paren stand take' id node) (Alongside Q) := by
  have hkeep : ∀ inner folded, Abreast s
      (do
        let sequence ← rebuild inner .exprs folded
        return (← rebuild id .paren [sequence], 0))
      (do
        let sequence ← rebuild inner .exprs folded
        return (← rebuild id .paren [sequence], 0)) (Alongside Q) := by
    intro inner folded
    refine (Abreast.same (maintains_rebuild hd.settles _ _ _) (fun _ => rfl)).bind ?_
    rintro sequence _ rfl
    exact abreast_counted (maintains_rebuild hd.settles _ _ _) hnone
  unfold paren
  refine .get fun t _ => (Abreast.same (hd.below _) (fun _ => rfl)).bind ?_
  rintro folded _ rfl
  refine .get fun u _ => ?_
  dsimp only
  split
  · split
    · exact abreast_applyFollowing hd (fun _ => hnone) htake _
    iterate 4 · exact hkeep _ _
    · exact .pure ⟨rfl, hnone⟩
  · exact hkeep _ _

/-- A term, which takes the terms that follow if it is a name, or a lambda at the head. -/
theorem abreast_term (hd : d.Maintaining s.Extends) (hid : s.Knows id)
    (hstand : stand = stand' ∨ 0 < d.env.arity s id) (hnone : d.env.arity s id = 0 → Q 0 0)
    (htake : ∀ count, count = d.env.arity s id ∨ stand = .head ∧ d.env.arity s id = 0 →
      Abreast s (take count) (take' count) (Alongside Q)) :
    Abreast s (d.term stand take id) (d.term stand' take' id) (Alongside Q) := by
  unfold term
  refine .get fun t ht => ?_
  rw [ht.node?_eq hid]
  cases hn : s.node? id with
  | none => exact .pure ⟨rfl, hnone (Environment.arity_of_none hn)⟩
  | some node =>
    dsimp only
    split
    · exact abreast_throw _ _ _ _
    · by_cases htag : node.tag = .ident
      · rw [Environment.arity_of_ident hn htag] at hstand hnone htake
        rw [htag]
        exact abreast_ident hd hstand hnone htake
      · have harity : d.env.arity s id = 0 := Environment.arity_of_ne hn htag
        obtain rfl := hstand.resolve_right (Nat.not_lt_of_le (Nat.le_of_eq harity))
        have hhead : stand = .head → ∀ count,
            Abreast s (take count) (take' count) (Alongside Q) :=
          fun hstand count => htake count (.inr ⟨hstand, harity⟩)
        split
        · rename_i hident
          exact absurd hident htag
        · refine (Abreast.same (maintains_lambda hd id node) (fun _ => rfl)).bind ?_
          rintro lambda _ rfl
          exact abreast_applyFollowing hd (fun _ => hnone harity) hhead _
        · exact abreast_paren hd (hnone harity) hhead
        · exact abreast_counted (maintains_single hd id node) (hnone harity)

theorem terms_none (d : Descent) (ids : List NodeId) (stand : Stand) :
    d.terms ids stand 0 0 = Pure.pure ([], 0) := by
  cases ids with
  | nil => rfl
  | cons id rest => rfl

/-- The terms after one term, the terms that it has taken, and some more. -/
theorem drop_taken (first : NodeId) (later : List NodeId) (taken more : Nat) :
    (first :: later).drop (1 + taken + more) = (later.drop taken).drop more := by
  rw [Nat.add_assoc, Nat.add_comm 1, List.drop_succ_cons, List.drop_drop]

/-- Terms that are complete take none of those after them. -/
theorem abreast_spans (hd : d.Maintaining s.Extends) {ids after : List NodeId} {count most : Nat}
    (h : d.env.Spans s most ids) (hle : count ≤ most) (hids : ∀ id ∈ ids, s.Knows id) :
    Abreast s (d.terms (ids ++ after) .argument count 0) (d.terms ids .argument count 0)
      fun r r' => r.1.length = count ∧ Alongside (fun n n' => n = n' ∧ n ≤ ids.length ∧
        d.env.Spans s (most - count) (ids.drop n)) r r' := by
  -- a term may take some of those after it, so the induction is on how many are left
  induction hlength : ids.length using Nat.strongRecOn generalizing ids count most with
  | ind length ih =>
    subst hlength
    cases count with
    | zero =>
      rw [terms_none, terms_none]
      exact .pure ⟨rfl, rfl, rfl, Nat.zero_le _, h⟩
    | succ count =>
      cases ids with
      | nil =>
        obtain rfl : most = 0 := h
        exact absurd hle (Nat.not_succ_le_zero _)
      | cons id rest =>
        obtain ⟨hid, hrest⟩ := List.forall_mem_cons.1 hids
        obtain ⟨most, rfl⟩ := Nat.exists_eq_add_one.2 (Nat.lt_of_lt_of_le (Nat.succ_pos count) hle)
        have hspans : d.env.Spans s (most + d.env.arity s id) rest := h
        have hterm : Abreast s
            (d.term .argument (fun count => d.terms (rest ++ after) .argument count 0) id)
            (d.term .argument (fun count => d.terms rest .argument count 0) id)
            (Alongside fun n n' => n = n' ∧ n ≤ rest.length ∧
              d.env.Spans s most (rest.drop n)) := by
          refine abreast_term hd hid (.inl rfl) (fun hzero => ?_) fun count hcount => ?_
          · rw [hzero] at hspans
            exact ⟨rfl, Nat.zero_le _, hspans⟩
          · obtain rfl := hcount.resolve_right nofun
            refine (ih rest.length (Nat.lt_succ_self _) hspans (Nat.le_add_left _ _) hrest rfl).imp
              fun r r' hr => ?_
            obtain ⟨-, hsame, hn, hle, hr⟩ := hr
            rw [Nat.add_sub_cancel] at hr
            exact ⟨hsame, hn, hle, hr⟩
        rw [List.cons_append]
        unfold terms
        refine hterm.bind ?_
        rintro ⟨folded, taken⟩ ⟨_, _⟩ ⟨rfl, rfl, hbefore, hlater⟩
        dsimp only
        rw [terms_skip, terms_skip _ rest, List.drop_append_of_le_length hbefore]
        have hshorter : (rest.drop taken).length < (id :: rest).length := by
          rw [List.length_drop, List.length_cons]
          omega
        refine (ih _ hshorter hlater (Nat.le_of_succ_le_succ hle)
          (fun id hm => hrest id (List.mem_of_mem_drop hm)) rfl).bind ?_
        rintro ⟨others, more⟩ ⟨_, _⟩ ⟨hcount, rfl, rfl, hmore, hdone⟩
        refine .pure ⟨congrArg Nat.succ hcount, rfl, rfl, ?_, ?_⟩
        · rw [List.length_drop] at hmore
          rw [List.length_cons]
          omega
        · rw [drop_taken, Nat.succ_sub_succ]
          exact hdone

end Descent

end Juxta
