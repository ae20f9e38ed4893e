import Juxta.Pattern
import Juxta.Proofs.Closures
import Juxta.Proofs.RescaledNumbers
import Juxta.Proofs.Walk.Alike

/-!
# Values that are alike

Two evaluations may compute values that are the same but for the numbers of the bodies of functions,
or but for the scales of decimals. Values that are alike in this way stay so: no operation looks at
what they may differ in, but to hand it on.

* `Value.Likeness` : which bodies and which decimals may stand for each other;
* `Value.Alike`, `Closure.Alike`, `Scope.Alike`, `Computed.Alike` : values with the same structure;
* `Value.Within.alike`, `Value.Alike.symm`, `Value.Alike.trans` : likeness is an equivalence;
* `Scope.Alike.get?`, `Scope.Alike.call` : names and calls;
* `Value.Alike.shown`, `Value.Alike.tree`, `Value.Alike.eq` : what does not differ;
* `Tag.operate_alike` : operations.
-/

namespace Juxta

/-- Which bodies of functions and which decimals may stand for each other. -/
structure Value.Likeness where
  node : NodeId → NodeId → Prop
  number : Decimal → Decimal → Prop
  congruence : Decimal.Congruence number

mutual

/-- Values with the same structure. -/
inductive Value.Alike (l : Value.Likeness) : Value → Value → Prop where
  | null : Value.Alike l .null .null
  | bool (flag : Bool) : Value.Alike l (.bool flag) (.bool flag)
  | number {a b : Decimal} (h : l.number a b) : Value.Alike l (.number a) (.number b)
  | nan : Value.Alike l .nan .nan
  | string (content : String) : Value.Alike l (.string content) (.string content)
  | list {items items' : List Value} (h : List.Forall₂ (Value.Alike l) items items') :
      Value.Alike l (.list items) (.list items')
  | fields {fields fields' : List (String × Value)}
      (hn : Fields.names fields = Fields.names fields')
      (hv : List.Forall₂ (Value.Alike l) (fields.map Prod.snd) (fields'.map Prod.snd)) :
      Value.Alike l (.record fields) (.record fields')
  | function {closure closure' : Closure} (h : Closure.Alike l closure closure') :
      Value.Alike l (.function closure) (.function closure')

/-- Functions with the same structure. They show the same number in their texts. -/
inductive Closure.Alike (l : Value.Likeness) : Closure → Closure → Prop where
  | intro {lambda : NodeId} {params : List String} {body body' : NodeId} {scope scope' : Scope}
      {applied applied' : List Value} (hb : l.node body body') (hs : Scope.Alike l scope scope')
      (ha : List.Forall₂ (Value.Alike l) applied applied') :
      Closure.Alike l ⟨lambda, params, body, scope, applied⟩
        ⟨lambda, params, body', scope', applied'⟩

/-- Scopes with the same names. -/
inductive Scope.Alike (l : Value.Likeness) : Scope → Scope → Prop where
  | intro {name : String} {words words' : List (String × Value)} {parent parent' : Option Scope}
      {depth : Nat} (hn : Fields.names words = Fields.names words')
      (hv : List.Forall₂ (Value.Alike l) (words.map Prod.snd) (words'.map Prod.snd))
      (hp : Option.Rel (Scope.Alike l) parent parent') :
      Scope.Alike l ⟨name, words, parent, depth⟩ ⟨name, words', parent', depth⟩

end

/-- Results of the same kind with the same message. -/
inductive Computed.Alike (l : Value.Likeness) : Computed → Computed → Prop where
  | value {v w : Value} (h : v.Alike l w) : Computed.Alike l (.value v) (.value w)
  | fallback (message : Option String) {v w : Value} (h : v.Alike l w) :
      Computed.Alike l (.fallback message v) (.fallback message w)
  | endless : Computed.Alike l .endless .endless

/-- The same data and the same arguments. -/
structure Surroundings.Alike (l : Value.Likeness) (s s' : Surroundings) : Prop where
  data : s.data.Alike l s'.data
  arguments : Option.Rel (List.Forall₂ (Value.Alike l)) s.arguments s'.arguments

variable {l : Value.Likeness}

/-! ## Parts -/

section

variable {v w : Value} {values values' : List Value} {fields fields' : Fields Value}

theorem Value.Alike.record (h : Fields.Rel (Value.Alike l) fields fields') :
    (Value.record fields).Alike l (.record fields') :=
  have ⟨hn, hv⟩ := Fields.rel_iff.1 h
  .fields hn hv

theorem Scope.Alike.ofWords {name : String} {words words' : Fields Value}
    {parent parent' : Option Scope} {depth : Nat} (h : Fields.Rel (Value.Alike l) words words')
    (hp : Option.Rel (Scope.Alike l) parent parent') :
    Scope.Alike l ⟨name, words, parent, depth⟩ ⟨name, words', parent', depth⟩ :=
  have ⟨hn, hv⟩ := Fields.rel_iff.1 h
  .intro hn hv hp

theorem Value.Alike.getD {value value' : Option Value} (h : Option.Rel (Value.Alike l) value value')
    {other other' : Value} (ho : other.Alike l other') :
    (value.getD other).Alike l (value'.getD other') := by
  cases h with
  | none => exact ho
  | some h => exact h

theorem Value.alike_headD (h : List.Forall₂ (Value.Alike l) values values') :
    (values.headD .null).Alike l (values'.headD .null) := by
  cases h with
  | nil => exact .null
  | cons h _ => exact h

theorem Value.alike_getLastD (h : List.Forall₂ (Value.Alike l) values values') :
    (values.getLastD .null).Alike l (values'.getLastD .null) := by
  rw [List.getLastD_eq_getLast?, List.getLastD_eq_getLast?, List.getLast?_eq_getElem?,
    List.getLast?_eq_getElem?, h.length_eq]
  exact .getD (forall₂_getElem? h _) .null

theorem Closure.Alike.unbound {closure closure' : Closure} (h : closure.Alike l closure') :
    closure.unbound = closure'.unbound := by
  obtain ⟨-, -, ha⟩ := h
  exact congrArg (List.drop · _) ha.length_eq

end

/-! ## A value and itself -/

section

variable {kind : Kind}

mutual

/-- A value is like itself if the bodies of its functions may stand for themselves. -/
theorem Value.Within.alike
    (h : ∀ closure, kind.functions closure → l.node closure.body closure.body) :
    ∀ {value : Value}, value.Within kind → value.Alike l value
  | _, .null => .null
  | _, .bool => .bool _
  | _, .number => .number (l.congruence.refl _)
  | _, .nan => .nan
  | _, .string => .string _
  | _, .list hitems =>
    .list (List.forall₂_same.2 fun item hm => Value.Within.alike h (hitems item hm))
  | _, .record hfields _ => .record <| List.forall₂_same.2 fun field hm =>
    ⟨rfl, Value.Within.alike h (hfields field hm)⟩
  | _, .function hclosure => .function (Closure.Within.alike h hclosure)

theorem Closure.Within.alike
    (h : ∀ closure, kind.functions closure → l.node closure.body closure.body) :
    ∀ {closure : Closure}, closure.Within kind → closure.Alike l closure
  | ⟨_, _, _, _, _⟩, .intro hkind hscope happlied =>
    .intro (h _ hkind) (Scope.Within.alike h hscope)
      (List.forall₂_same.2 fun value hm => Value.Within.alike h (happlied value hm))

theorem Scope.Within.alike
    (h : ∀ closure, kind.functions closure → l.node closure.body closure.body) :
    ∀ {scope : Scope}, scope.Within kind → scope.Alike l scope
  | ⟨_, _, none, _⟩, .intro hwords _ => .ofWords (List.forall₂_same.2 fun word hm =>
      ⟨rfl, Value.Within.alike h (hwords word hm)⟩) .none
  | ⟨_, _, some outer, _⟩, .intro hwords hparent => .ofWords (List.forall₂_same.2 fun word hm =>
      ⟨rfl, Value.Within.alike h (hwords word hm)⟩)
      (.some (Scope.Within.alike h (hparent outer rfl)))

end

end

/-! ## The likeness of others -/

section

variable {l' l'' : Value.Likeness}

mutual

/-- A value is like another one the other way round. -/
theorem Value.Alike.symm (hn : ∀ {a b}, l.node a b → l'.node b a)
    (hd : ∀ {a b}, l.number a b → l'.number b a) :
    ∀ {v w : Value}, v.Alike l w → w.Alike l' v
  | .null, _, .null => .null
  | .bool _, _, .bool _ => .bool _
  | .number _, _, .number h => .number (hd h)
  | .nan, _, .nan => .nan
  | .string _, _, .string _ => .string _
  | .list _, _, .list h => .list (Value.alike_symmItems hn hd h)
  | .record _, _, .fields hnames hv =>
    .record (Value.alike_symmFields hn hd (Fields.rel_iff.2 ⟨hnames, hv⟩))
  | .function _, .function _, .function h => .function (Closure.Alike.symm hn hd h)

theorem Value.alike_symmItems (hn : ∀ {a b}, l.node a b → l'.node b a)
    (hd : ∀ {a b}, l.number a b → l'.number b a) :
    ∀ {items items' : List Value}, List.Forall₂ (Value.Alike l) items items' →
      List.Forall₂ (Value.Alike l') items' items
  | [], _, .nil => .nil
  | _ :: _, _, .cons h hrest => .cons (h.symm hn hd) (Value.alike_symmItems hn hd hrest)

theorem Value.alike_symmFields (hn : ∀ {a b}, l.node a b → l'.node b a)
    (hd : ∀ {a b}, l.number a b → l'.number b a) :
    ∀ {fields fields' : Fields Value}, Fields.Rel (Value.Alike l) fields fields' →
      Fields.Rel (Value.Alike l') fields' fields
  | [], _, .nil => .nil
  | (_, _) :: _, (_, _) :: _, .cons ⟨hname, h⟩ hrest =>
    .cons ⟨hname.symm, h.symm hn hd⟩ (Value.alike_symmFields hn hd hrest)

theorem Closure.Alike.symm (hn : ∀ {a b}, l.node a b → l'.node b a)
    (hd : ∀ {a b}, l.number a b → l'.number b a) :
    ∀ {f g : Closure}, f.Alike l g → g.Alike l' f
  | ⟨_, _, _, _, _⟩, ⟨_, _, _, _, _⟩, .intro hb hs ha =>
    .intro (hn hb) (Scope.Alike.symm hn hd hs) (Value.alike_symmItems hn hd ha)

theorem Scope.Alike.symm (hn : ∀ {a b}, l.node a b → l'.node b a)
    (hd : ∀ {a b}, l.number a b → l'.number b a) :
    ∀ {scope scope' : Scope}, scope.Alike l scope' → scope'.Alike l' scope
  | ⟨_, _, none, _⟩, ⟨_, _, none, _⟩, .intro hnames hv _ =>
    .ofWords (Value.alike_symmFields hn hd (Fields.rel_iff.2 ⟨hnames, hv⟩)) .none
  | ⟨_, _, some _, _⟩, ⟨_, _, some _, _⟩, .intro hnames hv (.some hp) =>
    .ofWords (Value.alike_symmFields hn hd (Fields.rel_iff.2 ⟨hnames, hv⟩))
      (.some (Scope.Alike.symm hn hd hp))

end

mutual

/-- A value that is like one that is like a third one is like that. -/
theorem Value.Alike.trans (hn : ∀ {a b c}, l.node a b → l'.node b c → l''.node a c)
    (hd : ∀ {a b c}, l.number a b → l'.number b c → l''.number a c) :
    ∀ {u v w : Value}, u.Alike l v → v.Alike l' w → u.Alike l'' w
  | .null, _, _, .null, .null => .null
  | .bool _, _, _, .bool _, .bool _ => .bool _
  | .number _, _, _, .number h, .number k => .number (hd h k)
  | .nan, _, _, .nan, .nan => .nan
  | .string _, _, _, .string _, .string _ => .string _
  | .list _, _, _, .list h, .list k => .list (Value.alike_transItems hn hd h k)
  | .record _, _, _, .fields hnames hv, .fields knames kv =>
    .record (Value.alike_transFields hn hd (Fields.rel_iff.2 ⟨hnames, hv⟩)
      (Fields.rel_iff.2 ⟨knames, kv⟩))
  | .function _, .function _, .function _, .function h, .function k =>
    .function (Closure.Alike.trans hn hd h k)

theorem Value.alike_transItems (hn : ∀ {a b c}, l.node a b → l'.node b c → l''.node a c)
    (hd : ∀ {a b c}, l.number a b → l'.number b c → l''.number a c) :
    ∀ {items items' items'' : List Value}, List.Forall₂ (Value.Alike l) items items' →
      List.Forall₂ (Value.Alike l') items' items'' → List.Forall₂ (Value.Alike l'') items items''
  | [], _, _, .nil, .nil => .nil
  | _ :: _, _, _, .cons h hrest, .cons k krest =>
    .cons (h.trans hn hd k) (Value.alike_transItems hn hd hrest krest)

theorem Value.alike_transFields (hn : ∀ {a b c}, l.node a b → l'.node b c → l''.node a c)
    (hd : ∀ {a b c}, l.number a b → l'.number b c → l''.number a c) :
    ∀ {fields fields' fields'' : Fields Value}, Fields.Rel (Value.Alike l) fields fields' →
      Fields.Rel (Value.Alike l') fields' fields'' → Fields.Rel (Value.Alike l'') fields fields''
  | [], _, _, .nil, .nil => .nil
  | (_, _) :: _, (_, _) :: _, (_, _) :: _, .cons ⟨hname, h⟩ hrest, .cons ⟨kname, k⟩ krest =>
    .cons ⟨hname.trans kname, h.trans hn hd k⟩ (Value.alike_transFields hn hd hrest krest)

theorem Closure.Alike.trans (hn : ∀ {a b c}, l.node a b → l'.node b c → l''.node a c)
    (hd : ∀ {a b c}, l.number a b → l'.number b c → l''.number a c) :
    ∀ {f g h : Closure}, f.Alike l g → g.Alike l' h → f.Alike l'' h
  | ⟨_, _, _, _, _⟩, ⟨_, _, _, _, _⟩, ⟨_, _, _, _, _⟩, .intro hb hs ha, .intro kb ks ka =>
    .intro (hn hb kb) (Scope.Alike.trans hn hd hs ks) (Value.alike_transItems hn hd ha ka)

theorem Scope.Alike.trans (hn : ∀ {a b c}, l.node a b → l'.node b c → l''.node a c)
    (hd : ∀ {a b c}, l.number a b → l'.number b c → l''.number a c) :
    ∀ {scope scope' scope'' : Scope}, scope.Alike l scope' → scope'.Alike l' scope'' →
      scope.Alike l'' scope''
  | ⟨_, _, none, _⟩, ⟨_, _, none, _⟩, ⟨_, _, none, _⟩, .intro hnames hv _,
    .intro knames kv _ => .ofWords (Value.alike_transFields hn hd
      (Fields.rel_iff.2 ⟨hnames, hv⟩) (Fields.rel_iff.2 ⟨knames, kv⟩)) .none
  | ⟨_, _, some _, _⟩, ⟨_, _, some _, _⟩, ⟨_, _, some _, _⟩, .intro hnames hv (.some hp),
    .intro knames kv (.some kp) => .ofWords (Value.alike_transFields hn hd
      (Fields.rel_iff.2 ⟨hnames, hv⟩) (Fields.rel_iff.2 ⟨knames, kv⟩))
      (.some (Scope.Alike.trans hn hd hp kp))

end

end

/-- Data from outside has no functions in it. -/
theorem Value.alike_ofJson (l : Value.Likeness) (json : Json) :
    (Value.ofJson json).Alike l (Value.ofJson json) :=
  (Value.within_data (fun _ => False) json).alike fun _ => False.elim

/-! ## Names and calls -/

namespace Scope

theorem alike_global (l : Value.Likeness) : global.Alike l global := .intro rfl .nil .none

theorem Alike.depth {scope scope' : Scope} (h : scope.Alike l scope') :
    scope.depth = scope'.depth := by
  cases h
  rfl

/-- Names stand for values that are alike. -/
theorem Alike.get? (name : String) : ∀ {scope scope' : Scope}, scope.Alike l scope' →
    Option.Rel (Value.Alike l) (scope.get? name) (scope'.get? name)
  | ⟨_, words, parent, _⟩, ⟨_, words', parent', _⟩, .intro hn hv hp => by
    have hword := Fields.Rel.get? (Fields.rel_iff.2 ⟨hn, hv⟩) name
    unfold Scope.get?
    generalize Fields.get? words name = value at hword ⊢
    generalize Fields.get? words' name = value' at hword ⊢
    cases hword with
    | some h => exact .some h
    | none =>
      cases hp with
      | none => exact .none
      | some hp => exact Alike.get? name hp

/-- The scope of a call. -/
theorem Alike.call {parent parent' caller caller' : Scope} (hp : parent.Alike l parent')
    (hc : caller.Alike l caller') (name : String) {words words' : Fields Value}
    (hw : Fields.Rel (Value.Alike l) words words') (limit : Nat) :
    (∃ cause, Scope.call parent caller name words limit = .error cause ∧
        Scope.call parent' caller' name words' limit = .error cause) ∨
      ∃ scope scope', Scope.call parent caller name words limit = .ok scope ∧
        Scope.call parent' caller' name words' limit = .ok scope' ∧ scope.Alike l scope' := by
  unfold Scope.call
  rw [hp.depth, hc.depth]
  dsimp only
  split
  · exact .inl ⟨_, rfl, rfl⟩
  · exact .inr ⟨_, _, rfl, rfl, .ofWords hw.ofPairs (.some hp)⟩

end Scope

/-! ## What does not differ -/

namespace Value

variable {v w : Value} {values values' : List Value}

theorem Alike.type (h : v.Alike l w) : v.type = w.type := by
  cases h <;> rfl

theorem Alike.isTruthy (h : v.Alike l w) : v.isTruthy = w.isTruthy := by
  cases h with
  | number h => exact congrArg (!·) (l.congruence.rescaled h).isZero
  | _ => rfl

theorem Alike.isNaN (h : v.Alike l w) : v.isNaN = w.isNaN := by
  cases h <;> rfl

theorem Alike.toDecimal? (h : v.Alike l w) : Option.Rel l.number v.toDecimal? w.toDecimal? := by
  cases h with
  | number h => exact .some h
  | string content =>
    unfold Value.toDecimal?
    dsimp only
    cases Number.parse? content with
    | none => exact .none
    | some n => exact .some (l.congruence.refl n)
  | _ => exact .none

theorem Alike.position? (h : v.Alike l w) : v.position? = w.position? := by
  have hn := h.toDecimal?
  unfold Value.position?
  generalize v.toDecimal? = n at hn ⊢
  generalize w.toDecimal? = n' at hn ⊢
  cases hn with
  | none => rfl
  | some hn =>
    have hn := l.congruence.rescaled hn
    rw [Option.bind_some, Option.bind_some, hn.isWhole, hn.negative, hn.whole]

mutual

/-- Values that are alike have the same text inside others. -/
theorem Alike.shown : ∀ {v w : Value}, v.Alike l w → v.shown = w.shown
  | .null, _, .null | .bool _, _, .bool _ | .nan, _, .nan | .string _, _, .string _ => rfl
  | .number _, _, .number h => (l.congruence.rescaled h).format
  | .list _, _, .list h =>
    congrArg (fun texts => "[" ++ ", ".intercalate texts ++ "]") (alike_shownItems h)
  | .record _, _, .fields hn hv =>
    congrArg (fun texts => "\x7b" ++ ", ".intercalate texts ++ "\x7d")
      (alike_shownFields (Fields.rel_iff.2 ⟨hn, hv⟩))
  | .function closure, .function closure', .function h => by
    have hlambda : closure.lambda = closure'.lambda := by
      cases h
      rfl
    rw [Value.shown, Value.shown, hlambda, h.unbound]

theorem alike_shownItems : ∀ {items items' : List Value},
    List.Forall₂ (Value.Alike l) items items' → shownItems items = shownItems items'
  | [], _, .nil => rfl
  | _ :: _, _, .cons h hrest => congrArg₂ (· :: ·) h.shown (alike_shownItems hrest)

theorem alike_shownFields : ∀ {fields fields' : Fields Value},
    Fields.Rel (Value.Alike l) fields fields' →
    shownFields fields = shownFields fields'
  | [], _, .nil => rfl
  | (name, _) :: _, (_, _) :: _, .cons ⟨hname, h⟩ hrest => by
    obtain rfl : name = _ := hname
    rw [shownFields, shownFields, h.shown, alike_shownFields hrest]

end

theorem Alike.text (h : v.Alike l w) : v.text = w.text := by
  cases h with
  | null | bool | nan | string => rfl
  | number h => exact (Alike.number h).shown
  | list h => exact (Alike.list h).shown
  | fields hn hv => exact (Alike.fields hn hv).shown
  | function h => exact (Alike.function h).shown

mutual

/-- Patterns are compared with values that are alike in the same way. -/
theorem Alike.tree : ∀ {v w : Value}, v.Alike l w → v.tree = w.tree
  | .null, _, .null | .bool _, _, .bool _ | .nan, _, .nan | .string _, _, .string _ => rfl
  | .number _, _, .number h => congrArg (Tree.leaf .num) (l.congruence.rescaled h).format
  | .list _, _, .list h => congrArg (Tree.node .list) (alike_itemParts h)
  | .record _, _, .fields hn hv =>
    congrArg (Tree.node .record) (alike_fieldParts (Fields.rel_iff.2 ⟨hn, hv⟩))
  | .function _, _, .function _ => rfl

theorem alike_itemParts : ∀ {items items' : List Value},
    List.Forall₂ (Value.Alike l) items items' → itemParts items = itemParts items'
  | [], _, .nil => rfl
  | _ :: _, _, .cons h hrest =>
    congrArg₂ (fun tree parts => Tree.Part.tree tree :: parts) h.tree (alike_itemParts hrest)

theorem alike_fieldParts : ∀ {fields fields' : Fields Value},
    Fields.Rel (Value.Alike l) fields fields' →
    fieldParts fields = fieldParts fields'
  | [], _, .nil => rfl
  | (name, _) :: _, (_, _) :: _, .cons ⟨hname, h⟩ hrest => by
    obtain rfl : name = _ := hname
    rw [fieldParts, fieldParts, h.tree, alike_fieldParts hrest]

end

mutual

/-- Values that are alike are equal. -/
theorem Alike.eq : ∀ {v w : Value}, v.Alike l w → v.eq w = true
  | .null, _, .null | .nan, _, .nan => rfl
  | .bool flag, _, .bool _ => beq_self_eq_true flag
  | .string content, _, .string _ => beq_self_eq_true content
  | .number _, _, .number h => beq_iff_eq.2 (l.congruence.rescaled h).units
  | .list _, _, .list h => alike_eqItems h
  | .record _, _, .fields hn hv => alike_eqFields (Fields.rel_iff.2 ⟨hn, hv⟩)
  | .function ⟨lambda, _, _, _, _⟩, .function ⟨_, _, _, _, _⟩, .function (.intro _ _ ha) =>
    Bool.and_eq_true_iff.2 ⟨beq_self_eq_true lambda, alike_eqItems ha⟩

theorem alike_eqItems : ∀ {items items' : List Value},
    List.Forall₂ (Value.Alike l) items items' → eqItems items items' = true
  | [], _, .nil => rfl
  | _ :: _, _, .cons h hrest => Bool.and_eq_true_iff.2 ⟨h.eq, alike_eqItems hrest⟩

theorem alike_eqFields : ∀ {fields fields' : Fields Value},
    Fields.Rel (Value.Alike l) fields fields' →
    eqFields fields fields' = true
  | [], _, .nil => rfl
  | (name, _) :: _, (_, _) :: _, .cons ⟨hname, h⟩ hrest => by
    obtain rfl : name = _ := hname
    rw [eqFields, beq_self_eq_true, h.eq, alike_eqFields hrest]
    rfl

end

mutual

/-- Values with the same decimals in them are the same for the outside. -/
theorem Alike.json (hl : ∀ {a b}, l.number a b → a = b) :
    ∀ {v w : Value}, v.Alike l w → v.json = w.json
  | .null, _, .null | .bool _, _, .bool _ | .nan, _, .nan | .string _, _, .string _ => rfl
  | .number _, _, .number h => congrArg numberJson (hl h)
  | .list _, _, .list h => congrArg Json.arr (alike_jsonItems hl h)
  | .record _, _, .fields hn hv => congrArg (fun fields => Json.obj (Fields.ofPairs fields))
      (alike_jsonFields hl (Fields.rel_iff.2 ⟨hn, hv⟩))
  | .function _, .function _, .function h => by
    rw [Value.json, Value.json, h.unbound]

theorem alike_jsonItems (hl : ∀ {a b}, l.number a b → a = b) : ∀ {items items' : List Value},
    List.Forall₂ (Value.Alike l) items items' → jsonItems items = jsonItems items'
  | [], _, .nil => rfl
  | _ :: _, _, .cons h hrest => congrArg₂ (· :: ·) (h.json hl) (alike_jsonItems hl hrest)

theorem alike_jsonFields (hl : ∀ {a b}, l.number a b → a = b) : ∀ {fields fields' : Fields Value},
    Fields.Rel (Value.Alike l) fields fields' → jsonFields fields = jsonFields fields'
  | [], _, .nil => rfl
  | (name, _) :: _, (_, _) :: _, .cons ⟨hname, h⟩ hrest => by
    obtain rfl : name = _ := hname
    rw [jsonFields, jsonFields, h.json hl, alike_jsonFields hl hrest]

end

end Value

/-! ## Patterns -/

namespace Tree

variable {scope scope' : Scope}

theorem alike_ofName (h : scope.Alike l scope') (parts : List Part) :
    ofName scope parts = ofName scope' parts := by
  have hvalue := h.get? ((text? (.node .ident parts)).getD "")
  unfold ofName
  dsimp only
  generalize scope.get? _ = value at hvalue ⊢
  generalize scope'.get? _ = value' at hvalue ⊢
  cases hvalue with
  | none => rfl
  | some hvalue => exact hvalue.tree

theorem groupPattern_eq {part : Part} (h : partPattern scope part = partPattern scope' part) :
    groupPattern scope part = groupPattern scope' part := by
  cases part with
  | tree tree => exact Part.tree.inj h
  | text | flag | absent => rfl

mutual

/-- Patterns only compare the values of names as trees. -/
theorem alike_asPattern (h : scope.Alike l scope') : ∀ tree : Tree,
    asPattern scope tree = asPattern scope' tree
  | .node tag parts => by
    have hparts := alike_partPatterns h parts
    unfold asPattern
    split
    · rfl
    · exact alike_ofName h _
    iterate 2
      · rename_i part heq
        cases heq
        exact groupPattern_eq (List.head_eq_of_cons_eq hparts)
    · rename_i heq
      cases heq
      exact congrArg (Tree.node tag) hparts

theorem alike_partPatterns (h : scope.Alike l scope') : ∀ parts : List Part,
    partPatterns scope parts = partPatterns scope' parts
  | [] => rfl
  | part :: rest => congrArg₂ (· :: ·) (alike_partPattern h part) (alike_partPatterns h rest)

theorem alike_partPattern (h : scope.Alike l scope') : ∀ part : Part,
    partPattern scope part = partPattern scope' part
  | .tree tree => congrArg Part.tree (alike_asPattern h tree)
  | .text _ | .flag _ | .absent => rfl

end

end Tree

/-! ## Numbers -/

section Numbers

variable {values values' : List Value}

theorem Computed.alike_expects (tag : Tag) (what : String) {found found' fallback fallback' : Value}
    (h : found.Alike l found') (hf : fallback.Alike l fallback') :
    (expects tag what found fallback).Alike l (expects tag what found' fallback') := by
  unfold expects instead
  rw [h.type]
  exact .fallback _ hf

theorem any_isNaN_alike (h : List.Forall₂ (Value.Alike l) values values') :
    values.any Value.isNaN = values'.any Value.isNaN := by
  induction h with
  | nil => rfl
  | cons hfirst _ ih => rw [List.any_cons, List.any_cons, hfirst.isNaN, ih]

/-- Values that stand for numbers stand for numbers that are related. -/
theorem numbers_alike (h : List.Forall₂ (Value.Alike l) values values') :
    (∃ found found', numbers values = .error found ∧ numbers values' = .error found' ∧
        found.Alike l found') ∨
      ∃ ns ns', numbers values = .ok ns ∧ numbers values' = .ok ns' ∧
        List.Forall₂ l.number ns ns' := by
  induction h with
  | nil => exact .inr ⟨[], [], rfl, rfl, .nil⟩
  | @cons value value' rest rest' hfirst _ ih =>
    have hn := hfirst.toDecimal?
    unfold numbers
    generalize value.toDecimal? = n at hn ⊢
    generalize value'.toDecimal? = n' at hn ⊢
    cases hn with
    | none => exact .inl ⟨_, _, rfl, rfl, hfirst⟩
    | some hn =>
      obtain ⟨found, found', hl, hr, hfound⟩ | ⟨ns, ns', hl, hr, hns⟩ := ih
      · exact .inl ⟨found, found', by rw [hl]; rfl, by rw [hr]; rfl, hfound⟩
      · exact .inr ⟨_, _, by rw [hl]; rfl, by rw [hr]; rfl, .cons hn hns⟩

theorem arithmetic_alike (tag : Tag) (h : List.Forall₂ (Value.Alike l) values values') :
    (arithmetic tag values).Alike l (arithmetic tag values') := by
  unfold arithmetic
  rw [any_isNaN_alike h]
  split
  · exact .fallback none .nan
  obtain ⟨found, found', hl, hr, hfound⟩ | ⟨ns, ns', hl, hr, hns⟩ := numbers_alike h
  · rw [hl, hr]
    exact Computed.alike_expects tag "numbers" hfound .nan
  rw [hl, hr]
  dsimp only
  cases hns with
  | nil => exact .fallback _ .nan
  | cons hfirst hrest =>
    cases hrest with
    | nil =>
      by_cases hneg : tag = .neg
      · simp only [hneg, if_true]
        exact .value (.number (l.congruence.neg hfirst))
      · simp only [hneg, if_false]
        exact .fallback _ .nan
    | cons hsecond hrest =>
      cases hrest with
      | nil =>
        have hresult := l.congruence.apply tag hfirst hsecond
        dsimp only
        generalize Number.apply tag _ _ = result at hresult ⊢
        generalize Number.apply tag _ _ = result' at hresult ⊢
        cases hresult with
        | ok h => exact .value (.number h)
        | error cause => exact .fallback _ .nan
      | cons _ hrest =>
        dsimp only [List.length_cons]
        rw [hrest.length_eq]
        exact .fallback _ .nan

theorem comparison_alike (tag : Tag) (h : List.Forall₂ (Value.Alike l) values values') :
    (comparison tag values).Alike l (comparison tag values') := by
  unfold comparison
  rw [any_isNaN_alike h]
  split
  · exact .fallback none (.bool false)
  obtain ⟨found, found', hl, hr, hfound⟩ | ⟨ns, ns', hl, hr, hns⟩ := numbers_alike h
  · rw [hl, hr]
    exact Computed.alike_expects tag "numbers" hfound (.bool false)
  rw [hl, hr]
  rcases hns with _ | ⟨hfirst, _ | ⟨hsecond, _ | ⟨_, hrest⟩⟩⟩
  · exact .fallback _ (.bool false)
  · exact .fallback _ (.bool false)
  · dsimp only
    rw [Number.compare?_rescaled tag (l.congruence.rescaled hfirst) (l.congruence.rescaled hsecond)]
    split
    · exact .value (.bool _)
    · exact .fallback _ (.bool false)
  · dsimp only [List.length_cons]
    rw [hrest.length_eq]
    exact .fallback _ (.bool false)

theorem equivalent_alike {v v' w w' : Value} (hv : v.Alike l v') (hw : w.Alike l w') :
    equivalent v w = equivalent v' w' := by
  cases hv with
  | number hn =>
    cases hw with
    | number hm => exact (l.congruence.rescaled hn).eq (l.congruence.rescaled hm)
    | _ => rfl
  | _ => cases hw <;> rfl

/-! ## Progressions -/

theorem stepCount?_rescaled {start start' stop stop' step step' : Decimal}
    (ha : start.Rescaled start') (hb : stop.Rescaled stop') (hs : step.Rescaled step') :
    stepCount? start stop step = stepCount? start' stop' step' := by
  have hcount : Option.Rel Eq (stepCount? start stop step) (stepCount? start' stop' step') := by
    refine optionRel_bind (hb.sub? ha) fun _ _ hdistance => ?_
    exact optionRel_bind (hdistance.div? hs) fun _ _ h => .some h.ceil
  generalize stepCount? start stop step = count at hcount ⊢
  generalize stepCount? start' stop' step' = count' at hcount ⊢
  cases hcount with
  | none => rfl
  | some h => exact congrArg some h

theorem progressionFrom_alike {step step' stop stop' : Decimal} (hs : l.number step step')
    (hb : l.number stop stop') {items items' : List Value} {current current' : Decimal}
    (hi : List.Forall₂ (Value.Alike l) items items') (hc : l.number current current') :
    (progressionFrom step stop items current).Alike l
      (progressionFrom step' stop' items' current') := by
  have hneg := (l.congruence.rescaled hs).negative
  have hbefore {a a' b b' : Decimal} (ha : l.number a a') (hb : l.number b b') :
      a.before (!step.negative) b = a'.before (!step'.negative) b' := by
    rw [hneg]
    exact (l.congruence.rescaled ha).before _ (l.congruence.rescaled hb)
  fun_induction progressionFrom step stop items current generalizing items' current' with
  | case1 items current ascending before =>
    rename_i hadd
    have hnext := l.congruence.add? hc hs
    rw [hadd] at hnext
    rw [progressionFrom.eq_def step' stop' items' current']
    dsimp only
    rw [if_pos ((hbefore hc hb).symm.trans before)]
    generalize current'.add? step' = next' at hnext ⊢
    cases hnext
    exact .fallback _ (.list .nil)
  | case2 items current ascending before items next hadd =>
    rename_i later ih
    have hnext := l.congruence.add? hc hs
    rw [hadd] at hnext
    rw [progressionFrom.eq_def step' stop' items' current']
    dsimp only
    rw [if_pos ((hbefore hc hb).symm.trans before)]
    generalize current'.add? step' = next' at hnext ⊢
    cases hnext with
    | some hnext =>
      dsimp only
      rw [if_pos ((hbefore hc hnext).symm.trans later)]
      exact ih (.cons (.number hc) hi) hnext
  | case3 items current ascending before next hadd =>
    rename_i later
    have hnext := l.congruence.add? hc hs
    rw [hadd] at hnext
    rw [progressionFrom.eq_def step' stop' items' current']
    dsimp only
    rw [if_pos ((hbefore hc hb).symm.trans before)]
    generalize current'.add? step' = next' at hnext ⊢
    cases hnext with
    | some hnext =>
      dsimp only
      rw [if_neg fun h => later ((hbefore hc hnext).trans h)]
      exact .endless
  | case4 items current ascending =>
    rename_i before
    rw [progressionFrom.eq_def step' stop' items' current']
    dsimp only
    rw [if_neg fun h => before ((hbefore hc hb).trans h)]
    exact .value (.list (List.rel_reverse hi))

theorem progression_alike (h : List.Forall₂ (Value.Alike l) values values') :
    (progression values).Alike l (progression values') := by
  unfold progression
  obtain ⟨found, found', hl, hr, hfound⟩ | ⟨ns, ns', hl, hr, hns⟩ := numbers_alike h
  · rw [hl, hr]
    exact Computed.alike_expects .range "numbers" hfound (.list .nil)
  rw [hl, hr]
  rcases hns with _ | ⟨ha, _ | ⟨hb, _ | ⟨hs, _ | ⟨_, _⟩⟩⟩⟩
  iterate 3 · exact .fallback _ (.list .nil)
  · dsimp only
    rw [(l.congruence.rescaled hs).isZero, stepCount?_rescaled (l.congruence.rescaled ha)
      (l.congruence.rescaled hb) (l.congruence.rescaled hs)]
    split
    · exact .fallback _ (.list .nil)
    · generalize stepCount? _ _ _ = count
      cases count with
      | none => exact .fallback _ (.list .nil)
      | some count =>
        dsimp only
        by_cases hfits : count ≤ progressionLimit
        · rw [if_pos (decide_eq_true hfits), if_pos (decide_eq_true hfits)]
          exact progressionFrom_alike hs hb .nil ha
        · rw [if_neg (mt of_decide_eq_true hfits), if_neg (mt of_decide_eq_true hfits)]
          exact .fallback _ (.list .nil)
  · exact .fallback _ (.list .nil)

end Numbers

/-! ## Lists, strings and records -/

namespace Value

variable {v w container container' key key' : Value} {values values' : List Value}

theorem Alike.hd (h : v.Alike l w) : v.hd.Alike l w.hd := by
  have hfound := h
  cases h with
  | list h =>
    cases h with
    | nil => exact .fallback _ .null
    | cons h _ => exact .value h
  | _ => exact Computed.alike_expects .hd "a list" hfound .null

theorem Alike.tl (h : v.Alike l w) : v.tl.Alike l w.tl := by
  have hfound := h
  cases h with
  | list h =>
    cases h with
    | nil => exact .fallback _ (.list .nil)
    | cons _ hrest => exact .value (.list hrest)
  | _ => exact Computed.alike_expects .tl "a list" hfound (.list .nil)

theorem Alike.nth (hc : container.Alike l container') (hk : key.Alike l key') :
    (container.nth key).Alike l (container'.nth key') := by
  have hfound := hc
  cases hc with
  | @list items items' h =>
    unfold Value.nth
    dsimp only
    rw [hk.position?]
    cases key'.position? with
    | none => exact Computed.alike_expects .nth "a position" hk .null
    | some index =>
      have hitem := forall₂_getElem? h index
      dsimp only
      generalize items[index]? = item at hitem ⊢
      generalize items'[index]? = item' at hitem ⊢
      cases hitem with
      | none => exact .fallback _ .null
      | some hitem => exact .value hitem
  | _ => exact Computed.alike_expects .nth "a list" hfound .null

theorem alike_ofNat (l : Value.Likeness) (n : Nat) : (ofNat n).Alike l (ofNat n) := by
  unfold ofNat
  split
  · exact .number (l.congruence.refl _)
  · exact .nan

theorem Alike.len (h : v.Alike l w) : v.len.Alike l w.len := by
  have hfound := h
  cases h with
  | list h =>
    unfold Value.len
    dsimp only
    rw [h.length_eq]
    exact .value (alike_ofNat l _)
  | string content => exact .value (alike_ofNat l _)
  | fields hn hv =>
    have hlength := (Fields.rel_iff.2 ⟨hn, hv⟩).length_eq
    unfold Value.len
    dsimp only
    rw [hlength]
    exact .value (alike_ofNat l _)
  | _ => exact Computed.alike_expects .len _ hfound (.number (l.congruence.refl _))

theorem Alike.lookup (hc : container.Alike l container') (tag : Tag) (hk : key.Alike l key') :
    (container.lookup tag key).Alike l (container'.lookup tag key') := by
  have hfound := hc
  cases hc with
  | list h =>
    have hexpects := Computed.alike_expects tag "a record" hfound .null
    unfold Value.lookup
    cases tag with
    | val =>
      dsimp only
      rw [hk.position?]
      cases key'.position? with
      | none => exact .value .null
      | some index => exact .value (.getD (forall₂_getElem? h index) .null)
    | _ => exact hexpects
  | fields hn hv =>
    unfold Value.lookup
    dsimp only
    rw [hk.text]
    exact .value (.getD ((Fields.rel_iff.2 ⟨hn, hv⟩).get? _) .null)
  | _ =>
    have hexpects := Computed.alike_expects tag "a record" hfound .null
    cases tag <;> exact hexpects

theorem Alike.keyAt (hc : container.Alike l container') (hk : key.Alike l key') :
    (container.keyAt key).Alike l (container'.keyAt key') := by
  have hfound := hc
  cases hc with
  | @fields fields fields' hn hv =>
    unfold Value.keyAt
    dsimp only
    rw [hk.position?]
    cases key'.position? with
    | none => exact .value .null
    | some index =>
      have hfield := forall₂_getElem? (Fields.rel_iff.2 ⟨hn, hv⟩) index
      dsimp only [Option.bind_some]
      generalize fields[index]? = field at hfield ⊢
      generalize fields'[index]? = field' at hfield ⊢
      cases hfield with
      | none => exact .value .null
      | some hfield =>
        dsimp only
        rw [hfield.1]
        exact .value (.string _)
  | _ => exact Computed.alike_expects .key "a record" hfound .null

theorem Alike.set (hc : container.Alike l container') (hk : key.Alike l key') (hv : v.Alike l w) :
    (container.set key v).Alike l (container'.set key' w) := by
  have hfound := hc
  cases hc with
  | fields hn hvalues =>
    unfold Value.set
    dsimp only
    rw [hk.text]
    exact .value (.record ((Fields.rel_iff.2 ⟨hn, hvalues⟩).set _ hv))
  | _ => exact Computed.alike_expects .set "a record" hfound (.record .nil)

theorem alike_texts (h : List.Forall₂ (Value.Alike l) values values') :
    values.map text = values'.map text := by
  induction h with
  | nil => rfl
  | cons h _ ih => exact congrArg₂ (· :: ·) h.text ih

theorem Alike.concat (h : v.Alike l w) : v.concat = w.concat := by
  have htext := congrArg Value.string h.text
  cases h with
  | list h => exact congrArg (fun texts => Value.string (String.join texts)) (alike_texts h)
  | _ => exact htext

theorem Alike.readJson (h : v.Alike l w) : v.readJson.Alike l w.readJson := by
  have hfound := h
  cases h with
  | string content =>
    unfold Value.readJson
    dsimp only
    cases Json.parse content with
    | ok json => exact .value (alike_ofJson l json)
    | error failure => exact .fallback _ .null
  | _ => exact Computed.alike_expects .json "a string" hfound .null

theorem Alike.fields? (h : v.Alike l w) :
    Fields.Rel (Value.Alike l) (v.fields?.getD []) (w.fields?.getD []) := by
  cases h with
  | fields hn hv => exact Fields.rel_iff.2 ⟨hn, hv⟩
  | _ => exact .nil

theorem alike_merge (h : List.Forall₂ (Value.Alike l) values values') :
    (merge values).Alike l (merge values') := by
  refine .record (Fields.Rel.ofPairs ?_)
  induction h with
  | nil => exact .nil
  | cons h _ ih => exact List.rel_append h.fields? ih

theorem Alike.overlay (hv : v.Alike l w) (hd : container.Alike l container') :
    (v.overlay container).Alike l (w.overlay container') := by
  have hdata := hd
  cases hd with
  | null =>
    unfold Value.overlay
    exact hv
  | fields hn hvalues =>
    have hoverrides := Fields.rel_iff.2 ⟨hn, hvalues⟩
    cases hv with
    | fields hn hv => exact .record (Fields.Rel.foldl_set hoverrides (Fields.rel_iff.2 ⟨hn, hv⟩))
    | _ => exact hdata
  | _ => cases hv <;> exact hdata

end Value

/-! ## All operations -/

theorem Surroundings.Alike.argument {s s' : Surroundings} (hs : s.Alike l s')
    {position position' : Value}
    (hp : position.Alike l position') : (s.argument position).Alike l (s'.argument position') := by
  have harguments := hs.arguments
  unfold Surroundings.argument
  generalize s.arguments = arguments at harguments ⊢
  generalize s'.arguments = arguments' at harguments ⊢
  cases harguments with
  | none => exact .fallback _ .null
  | @some arguments arguments' harguments =>
    dsimp only
    rw [hp.position?]
    cases position'.position? with
    | none => exact Computed.alike_expects .arg "a position" hp .null
    | some index =>
      have hargument := forall₂_getElem? harguments index
      dsimp only
      generalize arguments[index]? = argument at hargument ⊢
      generalize arguments'[index]? = argument' at hargument ⊢
      cases hargument with
      | none => exact .fallback _ .null
      | some hargument => exact .value hargument

/-- Operations on values that are alike come to results that are alike. -/
theorem Tag.operate_alike (tag : Tag) {s s' : Surroundings} (hs : s.Alike l s')
    {values values' : List Value} (h : List.Forall₂ (Value.Alike l) values values') :
    (tag.operate s values).Alike l (tag.operate s' values') := by
  have first := Value.alike_headD h
  have last := Value.alike_getLastD h
  unfold Tag.operate
  split
  · rcases h with _ | ⟨hfirst, _ | ⟨hsecond, hrest⟩⟩
    · exact .value .null
    · exact .value hfirst
    · exact .value (.list (.cons hfirst (.cons hsecond hrest)))
  · exact .value (.list h)
  · rw [first.text]
    have hsecond := Value.alike_headD (List.forall₂_drop 1 h)
    exact .value (.record (.cons ⟨rfl, hsecond⟩ .nil))
  · exact .value (Value.alike_merge h)
  · have hany : values.any Value.isTruthy = values'.any Value.isTruthy := by
      clear first last
      induction h with
      | nil => rfl
      | cons h _ ih => rw [List.any_cons, List.any_cons, h.isTruthy, ih]
    rw [hany]
    exact .value (.bool _)
  · rcases h with _ | ⟨hfirst, _ | ⟨hsecond, _ | ⟨_, _⟩⟩⟩
    · exact .fallback _ (.bool false)
    · exact .fallback _ (.bool false)
    · dsimp only
      rw [equivalent_alike hfirst hsecond]
      exact .value (.bool _)
    · exact .fallback _ (.bool false)
  iterate 6 · exact comparison_alike _ h
  iterate 9 · exact arithmetic_alike _ h
  · rw [first.concat]
    unfold Value.concat
    split <;> exact .value (.string _)
  · exact progression_alike h
  · exact first.hd
  · exact first.tl
  · exact first.len
  · rcases h with _ | ⟨hplace, _ | ⟨hcontainer, _ | ⟨_, _⟩⟩⟩
    · exact .fallback _ .null
    · exact .fallback _ .null
    · exact hcontainer.nth hplace
    · exact .fallback _ .null
  iterate 2
    · rcases h with _ | ⟨hplace, _ | ⟨hcontainer, _ | ⟨_, _⟩⟩⟩
      · exact .fallback _ .null
      · exact .fallback _ .null
      · exact hcontainer.lookup _ hplace
      · exact .fallback _ .null
  · rcases h with _ | ⟨hplace, _ | ⟨hcontainer, _ | ⟨_, _⟩⟩⟩
    · exact .fallback _ .null
    · exact .fallback _ .null
    · exact hcontainer.keyAt hplace
    · exact .fallback _ .null
  · rcases h with _ | ⟨hplace, _ | ⟨hvalue, _ | ⟨hcontainer, _ | ⟨_, _⟩⟩⟩⟩
    · exact .fallback _ (.record .nil)
    · exact .fallback _ (.record .nil)
    · exact .fallback _ (.record .nil)
    · exact hcontainer.set hplace hvalue
    · exact .fallback _ (.record .nil)
  · exact .value (last.overlay hs.data)
  · exact hs.argument first
  · exact first.readJson
  · exact .value (.record (.cons ⟨rfl, last⟩ .nil))
  · exact .value .null

end Juxta
