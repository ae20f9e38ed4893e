import Juxta.Proofs.Lockstep

/-!
# Results do not depend on numbers, but for texts of functions

Two snapshots of the same tree have the same result if texts of functions show the same numbers for
equal lambdas. As programs are, these are the ids of the lambdas, and so results may differ.

* `CompileResult.SameButPlaces` : the same result, but for places in the program text;
* `compileShowing` : the result if texts of functions show other numbers;
* `compileWithin_sameTree` : the results of the same tree;
* `Store.lambdaLast`, `Store.lambdaFirst` : a tree with a function whose text is seen.
-/

namespace Juxta

/-! ## Results -/

/-- The same value and diagnostics that say the same, or the same error but for the place of a
call one scope too deep. -/
inductive CompileResult.SameButPlaces : CompileResult → CompileResult → Prop where
  | compiled {found found' : List Diagnostic} (value : Option Json) : SameGists found found' →
      SameButPlaces (.compiled ⟨found, value⟩) (.compiled ⟨found', value⟩)
  | failed {error error' : CompileError} : error.Alike error' →
      SameButPlaces (.failed error) (.failed error')
  | unfinished : SameButPlaces .unfinished .unfinished

/-- Evaluates a program in which the text of a function shows `shown` of its lambda. -/
def Config.evaluateShowing (config : Config) (shown : NodeId → NodeId) (steps : Nat)
    (store : Store) (root : NodeId) (data : Json) : CompileResult :=
  let e : Evaluator := ⟨store, .ofJson data, config.recursionLimit, config.caseFallthrough⟩
  match (e.showing shown).run config.scheduling steps root .global with
  | .finished found value => .compiled ⟨found, some value.json⟩
  | .aborted error => .failed error
  | .unfinished => .unfinished

/-- Compiles a snapshot in which the text of a function shows `shown` of its lambda. -/
def compileShowing (shown : NodeId → NodeId) (steps : Nat) (config : Config) (snapshot : Snapshot)
    (data : Json) : CompileResult :=
  match config.load snapshot with
  | .error error => .failed error
  | .ok store =>
    match (checking store).run config.scheduling steps snapshot.root () with
    | .finished found _ =>
      if found.isEmpty then config.evaluateShowing shown steps store snapshot.root data
      else .compiled ⟨found, none⟩
    | .aborted error => .failed error
    | .unfinished => .unfinished

/-- Texts of functions show the numbers of their lambdas. -/
theorem compileShowing_id (steps : Nat) (config : Config) (snapshot : Snapshot) (data : Json) :
    compileShowing id steps config snapshot data = compileWithin steps config snapshot data := by
  have hevaluate : ∀ store, config.evaluateShowing id steps store snapshot.root data =
      config.evaluate steps store snapshot.root data := by
    intro store
    unfold Config.evaluateShowing
    dsimp only
    rw [Evaluator.showing_id]
    rfl
  unfold compileShowing
  simp only [hevaluate]
  rfl

theorem SameGists.isEmpty {found found' : List Diagnostic} (h : SameGists found found') :
    found.isEmpty = found'.isEmpty := by
  have := congrArg List.isEmpty h
  rwa [List.isEmpty_map, List.isEmpty_map] at this

theorem Config.load_of_version {config : Config} {a b : Snapshot} (hv : a.version = b.version)
    {s t : Store} (ha : a.load = .ok s) (hb : b.load = .ok t) :
    (config.load a = .ok s ∧ config.load b = .ok t) ∨
      ∃ error, config.load a = .error error ∧ config.load b = .error error := by
  unfold Config.load
  rw [ha, hb, hv]
  dsimp only
  split
  · exact .inr ⟨_, rfl, rfl⟩
  · exact .inl ⟨rfl, rfl⟩

theorem Config.evaluateShowing_sameTree (config : Config) {s t : Store} (hs : s.Grounded)
    (ht : t.Grounded) {root root' : NodeId} (hroot : s.SameTree t root root root')
    {shown shown' : NodeId → NodeId} (hshown : s.ShowsAlike t root shown shown') (steps : Nat)
    (data : Json) :
    (config.evaluateShowing shown steps s root data).SameButPlaces
      (config.evaluateShowing shown' steps t root' data) := by
  let e : Evaluator := ⟨s, .ofJson data, config.recursionLimit, config.caseFallthrough⟩
  let e' : Evaluator := ⟨t, .ofJson data, config.recursionLimit, config.caseFallthrough⟩
  let l : Value.Likeness := ⟨s.SameTree t root, Eq, Decimal.congruence_eq⟩
  have h : e.Alike l e' :=
    ⟨Store.SameTree.alike hs ht root, Value.alike_ofJson l data, rfl, rfl⟩
  have hrun := (h.showing fun a b hab hlambda => hshown a b hab.beneath hlambda hab.tree).run
    (.same _) config.scheduling steps hroot (Context.alike_global l)
  show CompileResult.SameButPlaces (match (e.showing shown).run _ steps root _ with
      | .finished found value => .compiled ⟨found, some value.json⟩
      | .aborted error => .failed error
      | .unfinished => .unfinished)
    (match (e'.showing shown').run _ steps root' _ with
      | .finished found value => .compiled ⟨found, some value.json⟩
      | .aborted error => .failed error
      | .unfinished => .unfinished)
  generalize (e.showing shown).run _ _ _ _ = outcome at hrun ⊢
  generalize (e'.showing shown').run _ _ _ _ = outcome' at hrun ⊢
  cases hrun with
  | finished hf hv =>
    dsimp only
    rw [Value.Alike.json id hv]
    exact .compiled _ hf
  | aborted he => exact .failed he
  | unfinished => exact .unfinished

/-- Programs of the same tree, with the same numbers in texts of functions. -/
theorem compileShowing_sameTree {a b : Snapshot} (hv : a.version = b.version) {s t : Store}
    (ha : a.load = .ok s) (hb : b.load = .ok t) (hroot : s.tree? a.root = t.tree? b.root)
    {shown shown' : NodeId → NodeId} (hshown : s.ShowsAlike t a.root shown shown') (steps : Nat)
    (config : Config) (data : Json) : (compileShowing shown steps config a data).SameButPlaces
      (compileShowing shown' steps config b data) := by
  obtain ⟨hs, hka⟩ := Snapshot.load_grounded ha
  obtain ⟨ht, hkb⟩ := Snapshot.load_grounded hb
  have hsame : s.SameTree t a.root a.root b.root := ⟨.root, ((s.node?_ne_none_iff _).1 hka).2,
    ((t.node?_ne_none_iff _).1 hkb).2, hroot⟩
  unfold compileShowing
  obtain ⟨hla, hlb⟩ | ⟨error, hla, hlb⟩ := config.load_of_version hv ha hb
  · rw [hla, hlb]
    have hunit : (checkLikeness s t a.root).context () () := trivial
    have hcheck := (checking_alike hs ht a.root).run (.same _) config.scheduling steps hsame hunit
    dsimp only
    generalize (checking s).run config.scheduling steps a.root () = checked at hcheck ⊢
    generalize (checking t).run config.scheduling steps b.root () = checked' at hcheck ⊢
    cases hcheck with
    | finished hf _ =>
      dsimp only
      rw [← hf.isEmpty]
      split
      · exact config.evaluateShowing_sameTree hs ht hsame hshown steps data
      · exact .compiled none hf
    | aborted he => exact .failed he
    | unfinished => exact .unfinished
  · rw [hla, hlb]
    exact .failed (.same error)

/-- A result depends on the tree of a program and on the numbers that texts of functions show, and
on nothing else. Two snapshots of the same version and the same tree have the same result, whatever
numbers stand for their lambdas, as long as equal lambdas get equal numbers; so they have if equal
lambdas have equal ids, and if their results do not depend on what texts of functions show. -/
theorem compileWithin_sameTree {a b : Snapshot} (hv : a.version = b.version) {s t : Store}
    (ha : a.load = .ok s) (hb : b.load = .ok t) (hroot : s.tree? a.root = t.tree? b.root)
    (steps : Nat) (config : Config) (data : Json) :
    (∀ snapshot, compileShowing id steps config snapshot data =
        compileWithin steps config snapshot data) ∧
      (∀ shown shown', s.ShowsAlike t a.root shown shown' →
        (compileShowing shown steps config a data).SameButPlaces
          (compileShowing shown' steps config b data)) ∧
      (s.ShowsAlike t a.root id id → (compileWithin steps config a data).SameButPlaces
        (compileWithin steps config b data)) ∧
      ((∀ shown, compileShowing shown steps config a data = compileWithin steps config a data) →
        (∀ shown, compileShowing shown steps config b data = compileWithin steps config b data) →
        (compileWithin steps config a data).SameButPlaces
          (compileWithin steps config b data)) := by
  have hsame : ∀ shown shown', s.ShowsAlike t a.root shown shown' →
      (compileShowing shown steps config a data).SameButPlaces
        (compileShowing shown' steps config b data) :=
    fun _ _ hshown => compileShowing_sameTree hv ha hb hroot hshown steps config data
  refine ⟨fun snapshot => compileShowing_id .., hsame, fun hids => ?_, fun hfreeA hfreeB => ?_⟩
  · have hown := hsame id id hids
    rwa [compileShowing_id, compileShowing_id] at hown
  · have hconstant := hsame (fun _ => .absent) (fun _ => .absent) fun _ _ _ _ _ => rfl
    rwa [hfreeA, hfreeB] at hconstant

/-! ## A text that shows a number -/

/-- A string and a function in a row, where the function has the number 4. -/
def Store.lambdaLast : Store :=
  (((((empty.push (.leaf .str "a") none (by simp [empty])).push (.leaf .ident "x") none
    (by simp [empty, push, Node.leaf])).push (.branch .list [⟨2⟩]) none
    (by simp [empty, push, Node.leaf, Node.branch])).push (.branch .lambda [⟨3⟩, ⟨2⟩]) none
    (by simp [empty, push, Node.leaf, Node.branch])).push (.branch .list [⟨1⟩, ⟨4⟩]) none
    (by simp [empty, push, Node.leaf, Node.branch])).push (.branch .concat [⟨5⟩]) none
    (by simp [empty, push, Node.leaf, Node.branch])

/-- The same, where the function has the number 3. -/
def Store.lambdaFirst : Store :=
  (((((empty.push (.leaf .ident "x") none (by simp [empty])).push (.branch .list [⟨1⟩]) none
    (by simp [empty, push, Node.leaf, Node.branch])).push (.branch .lambda [⟨2⟩, ⟨1⟩]) none
    (by simp [empty, push, Node.leaf, Node.branch])).push (.leaf .str "a") none
    (by simp [empty, push, Node.leaf, Node.branch])).push (.branch .list [⟨4⟩, ⟨3⟩]) none
    (by simp [empty, push, Node.leaf, Node.branch])).push (.branch .concat [⟨5⟩]) none
    (by simp [empty, push, Node.leaf, Node.branch])

theorem Store.load_lambdaLast :
    (Store.lambdaLast.snapshot ⟨6⟩).load = .ok Store.lambdaLast := by
  have hbuilt : Store.lambdaLast.Built := by
    refine .push (.push (.push (.push (.push (.push .empty ?_) ?_) ?_) ?_) ?_) ?_ <;>
      simp [Knows, size, push, empty, Node.leaf, Node.children, Slot.id?, Node.branch]
  exact hbuilt.load_snapshot (Option.some_ne_none _)

theorem Store.load_lambdaFirst :
    (Store.lambdaFirst.snapshot ⟨6⟩).load = .ok Store.lambdaFirst := by
  have hbuilt : Store.lambdaFirst.Built := by
    refine .push (.push (.push (.push (.push (.push .empty ?_) ?_) ?_) ?_) ?_) ?_ <;>
      simp [Knows, size, push, empty, Node.leaf, Node.children, Slot.id?, Node.branch]
  exact hbuilt.load_snapshot (Option.some_ne_none _)

/-- The tree that both of them hold. -/
def Tree.stringAndLambda : Tree :=
  .branch .concat [.branch .list [.leaf .str "a",
    .branch .lambda [.branch .list [.leaf .ident "x"], .leaf .ident "x"]]]

theorem Store.tree_lambdaLast : Store.lambdaLast.tree? ⟨6⟩ = some .stringAndLambda := by
  rfl

theorem Store.tree_lambdaFirst : Store.lambdaFirst.tree? ⟨6⟩ = some .stringAndLambda := by
  rfl

theorem compileWithin_lambda {store : Store} {text : String} {scheduling : Scheduling}
    (hload : (store.snapshot ⟨6⟩).load = .ok store)
    (hcheck : (checking store).run scheduling 30 ⟨6⟩ () = .finished [] (.string false))
    (hvalue : (Evaluator.walk ⟨store, .ofJson .null, Config.standard.recursionLimit,
      Config.standard.caseFallthrough⟩).run scheduling 30 ⟨6⟩ .global =
        .finished [] (.string text)) :
    compileWithin 30 { Config.standard with scheduling } (store.snapshot ⟨6⟩) .null =
      .compiled ⟨[], some (.str text)⟩ := by
  have hconfig : { Config.standard with scheduling }.load (store.snapshot ⟨6⟩) = .ok store := by
    unfold Config.load
    rw [hload]
    rfl
  exact compileWithin_eq_compiled hconfig hcheck hvalue

/-- All snapshots that are taken carry the same version. -/
theorem Store.version_snapshot (s t : Store) (root root' : NodeId) :
    (s.snapshot root).version = (t.snapshot root').version := rfl

/-- The text of a function shows the number of its lambda, so that the results of the same tree
differ. -/
theorem compileWithin_ne_of_lambdas :
    (Store.lambdaLast.snapshot ⟨6⟩).version = (Store.lambdaFirst.snapshot ⟨6⟩).version ∧
      (Store.lambdaLast.snapshot ⟨6⟩).load = .ok Store.lambdaLast ∧
      (Store.lambdaFirst.snapshot ⟨6⟩).load = .ok Store.lambdaFirst ∧
      Store.lambdaLast.tree? ⟨6⟩ = Store.lambdaFirst.tree? ⟨6⟩ ∧
      ∀ scheduling,
        compileWithin 30 { Config.standard with scheduling } (Store.lambdaLast.snapshot ⟨6⟩)
            .null = .compiled ⟨[], some (.str "a<lambda #4 x>")⟩ ∧
          compileWithin 30 { Config.standard with scheduling } (Store.lambdaFirst.snapshot ⟨6⟩)
            .null = .compiled ⟨[], some (.str "a<lambda #3 x>")⟩ := by
  refine ⟨Store.version_snapshot .., Store.load_lambdaLast, Store.load_lambdaFirst, ?_,
    fun scheduling => ⟨?_, ?_⟩⟩
  · rw [Store.tree_lambdaLast, Store.tree_lambdaFirst]
  · refine compileWithin_lambda Store.load_lambdaLast ?_ ?_ <;> cases scheduling <;> rfl
  · refine compileWithin_lambda Store.load_lambdaFirst ?_ ?_ <;> cases scheduling <;> rfl

/-- With one number for all functions the results are the same. -/
theorem compileWithin_sameTree_lambdas :
    (Store.lambdaLast.snapshot ⟨6⟩).version = (Store.lambdaFirst.snapshot ⟨6⟩).version ∧
      (Store.lambdaLast.snapshot ⟨6⟩).load = .ok Store.lambdaLast ∧
      (Store.lambdaFirst.snapshot ⟨6⟩).load = .ok Store.lambdaFirst ∧
      Store.lambdaLast.tree? ⟨6⟩ = Store.lambdaFirst.tree? ⟨6⟩ ∧
      (compileShowing (fun _ => ⟨1⟩) 30 .standard (Store.lambdaLast.snapshot ⟨6⟩)
          .null).SameButPlaces
        (compileShowing (fun _ => ⟨1⟩) 30 .standard (Store.lambdaFirst.snapshot ⟨6⟩) .null) := by
  have htree : Store.lambdaLast.tree? ⟨6⟩ = Store.lambdaFirst.tree? ⟨6⟩ := by
    rw [Store.tree_lambdaLast, Store.tree_lambdaFirst]
  obtain ⟨-, hsame, -⟩ := compileWithin_sameTree (a := Store.lambdaLast.snapshot ⟨6⟩)
    (b := Store.lambdaFirst.snapshot ⟨6⟩) (Store.version_snapshot ..) Store.load_lambdaLast
    Store.load_lambdaFirst htree 30 .standard .null
  exact ⟨Store.version_snapshot .., Store.load_lambdaLast, Store.load_lambdaFirst, htree,
    hsame _ _ fun _ _ _ _ _ => rfl⟩

end Juxta
