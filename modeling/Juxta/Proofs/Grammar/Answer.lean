import Juxta.Grammar.Answer
import Juxta.Proofs.Grammar.Builder

/-!
# What rules answer

* `Rule.isInner` : the rules that only wait above the end of a program;
* `SyntaxError.Stops` : the errors that stop parsing;
* `Answer.Inner` : what such a rule answers. The rules that it names are inner ones again, it leaves
  the end of the text to others, and what it refuses stops parsing;
* `Rule.keeps_answer` : inner rules keep a builder sound and answer so;
* `Rule.completes_answerProgramEnd` : the end of a program either is refused or sets the root.
-/

namespace Juxta

/-- Rules that wait above the end of a program. -/
def Rule.isInner : Rule → Bool
  | .program | .programEnd => false
  | _ => true

/-- The errors that stop parsing. Folding only fails when too many scopes are entered. -/
def SyntaxError.Stops : SyntaxError → Prop
  | .unexpected .. => True
  | .unknownName .. => False
  | .folding cause _ => cause.IsRunaway

theorem SyntaxError.Stops.isFatal {error : SyntaxError} (h : error.Stops) :
    error.isFatal = true := by
  cases error with
  | unexpected expected found location => rfl
  | unknownName name location => exact h.elim
  | folding cause location => rfl

/-- What a rule above the end of a program answers to a token. -/
def Answer.Inner (token : Token) : Answer → Prop
  | .taken _ rules => token.kind ≠ .endOfText ∧ rules.all Rule.isInner = true
  | .passed rules => rules.all Rule.isInner = true
  | .refused error => error.Stops

namespace Rule

open Build
open NodeId (UpTo AllUpTo)

variable {lo : Nat} {token : Token}

/-- A step that keeps a builder sound and answers as an inner rule does. -/
abbrev Answers (lo : Nat) (token : Token) (step : Build Answer) : Prop :=
  Keeps lo step fun _ answer => answer.Inner token

/-! ## Kinds of answers -/

theorem answers_taken {as : TokenClass} {rules : List Rule} {kind : TokenKind}
    (hk : token.kind = kind) (hend : kind ≠ .endOfText) (hr : rules.all isInner = true) :
    Answers lo token (pure (.taken as rules)) := by
  refine .pure fun _ _ => ⟨?_, hr⟩
  rw [hk]
  exact hend

theorem answers_passed {rules : List Rule} (hr : rules.all isInner = true) :
    Answers lo token (pure (.passed rules)) := .pure fun _ _ => hr

theorem answers_instead (expected : Expectation) :
    Answers lo token (pure (token.instead expected)) := .pure fun _ _ => trivial

theorem answers_failed {cause : FoldError} (h : cause.IsRunaway) :
    Answers lo token (pure (token.failed cause)) := .pure fun _ _ => h

theorem keeps_opened : Keeps lo opened fun _ rule => rule.isInner = true :=
  .bind keeps_height fun _ _ _ _ => .pure fun _ _ => rfl

/-- A token after which a sequence begins. -/
theorem answers_opened {as : TokenClass} {rest : List Rule} {kind : TokenKind}
    (hk : token.kind = kind) (hend : kind ≠ .endOfText) (hr : rest.all isInner = true) :
    Answers lo token (do return .taken as ((← opened) :: rest)) := by
  refine .bind keeps_opened fun n rule _ hrule => answers_taken hk hend ?_
  rw [List.all_cons, hrule, hr]
  rfl

/-- A token that completes a node of what waits above a height. -/
theorem answers_closed {as : TokenClass} {kind : TokenKind} (hk : token.kind = kind)
    (hend : kind ≠ .endOfText) (tag : Tag) (base : Nat) (coord : Option Coord) :
    Answers lo token (do
      pushBranch tag (← split base) coord
      return .taken as []) := by
  refine .bind (keeps_split base) fun n children _ hchildren => ?_
  exact .bind (keeps_pushBranch tag hchildren coord) fun _ _ _ _ => answers_taken hk hend rfl

/-- A token that is a node by itself. -/
theorem answers_leaf {as : TokenClass} {rules : List Rule} {kind : TokenKind}
    (hk : token.kind = kind) (hend : kind ≠ .endOfText) (hr : rules.all isInner = true)
    (tag : Tag) (text : String) (coord : Coord) :
    Answers lo token (do
      pushLeaf tag text coord
      return .taken as rules) :=
  .bind (keeps_pushLeaf tag text coord) fun _ _ _ _ => answers_taken hk hend hr

/-! ## Sequences and definitions -/

theorem keeps_closeSequence (base : Nat) : Keeps lo (closeSequence base) Whatever :=
  .bind (keeps_split base) fun _ _ _ hchildren => keeps_pushBranch .exprs hchildren none

theorem answers_sequence (base : Nat) (stage : SequenceStage) :
    Answers lo token (answerSequence base stage token) := by
  unfold answerSequence
  split
  · rename_i hdot
    split
    · exact answers_taken hdot nofun rfl
    · exact .bind (keeps_closeSequence base) fun _ _ _ _ => answers_taken hdot nofun rfl
  · split
    · exact .bind (keeps_closeSequence base) fun _ _ _ _ => answers_passed rfl
    · exact answers_passed rfl

theorem answers_expression : Answers lo token (Rule.expression.answer token) := by
  refine .pure fun n _ => ?_
  split
  · rename_i hk
    refine ⟨?_, rfl⟩
    rw [hk]
    nofun
  · exact (rfl : [Rule.conditional].all isInner = true)

theorem answers_letName : Answers lo token (answerLetName token) := by
  unfold answerLetName
  split
  · rename_i name hk
    refine .bind (keeps_addWord trivial) fun n _ _ _ => ?_
    refine .bind (keeps_enter name) fun m entered _ hentered => ?_
    split
    · exact answers_failed hentered
    · exact answers_taken hk nofun rfl
  · exact answers_instead .name

theorem answers_letParams (name : String) (params : List String) :
    Answers lo token (answerLetParams name params token) := by
  unfold answerLetParams
  split
  · rename_i hk
    exact .bind (keeps_addWord (NodeId.upTo_absent lo)) fun _ _ _ _ => answers_taken hk nofun rfl
  · rename_i hk
    exact answers_opened hk nofun rfl
  · exact answers_instead .parameterOrEqual

/-- A definition gives its name a meaning that is stored. -/
theorem keeps_define (name : String) (params : List String) {folded : NodeId}
    (hf : folded.UpTo lo) :
    Keeps lo (modify fun b =>
      let kind := if params.isEmpty then .value (b.store.unwrap folded)
        else .function params folded b.env.top
      { b with env := b.env.define b.env.top name kind }) Whatever := by
  refine keeps_modify (fun _ => rfl) (fun _ => rfl) fun b hb hlo => ?_
  refine ⟨hb.grounded, hb.nodes, hb.env.define ?_ b.env.top name, hb.errors⟩
  split
  · exact hb.grounded.upTo_unwrap (Nat.le_refl _) (hf.mono hlo)
  · exact hf.mono hlo

theorem answers_letBody (name : String) (params : List String) :
    Answers lo token (answerLetBody name params token) := by
  unfold answerLetBody
  refine .bind keeps_pop fun n body _ hbody => ?_
  refine .bind (keeps_foldNode hbody) fun m result _ hresult => ?_
  refine .bind keeps_exit fun k _ hk _ => ?_
  split
  · exact answers_failed hresult
  · rename_i folded
    have hfolded : folded.UpTo k := NodeId.UpTo.mono hresult hk
    exact .bind (keeps_define name params hfolded) fun _ _ _ _ => answers_passed rfl

/-! ## Cases and conditionals -/

theorem answers_conditional : Answers lo token (answerConditional token) := by
  unfold answerConditional
  split
  · rename_i hk
    exact .bind keeps_height fun _ _ _ _ => answers_opened hk nofun rfl
  · rename_i hk
    exact .bind keeps_height fun _ _ _ _ => answers_opened hk nofun rfl
  · exact answers_passed rfl

theorem answers_clauses (base : Nat) (start : Coord) :
    Answers lo token (answerClauses base start token) := by
  unfold answerClauses
  split
  · rename_i hk
    exact answers_taken hk nofun rfl
  · rename_i hk
    exact answers_closed hk nofun .case base _
  · exact answers_instead .ofOrEnd

theorem answers_clauseColon : Answers lo token (answerClauseColon token) := by
  unfold answerClauseColon
  split
  · rename_i hk
    exact answers_opened hk nofun rfl
  · exact answers_instead .colon

theorem answers_clauseBody : Answers lo token answerClauseBody := by
  unfold answerClauseBody
  refine .bind keeps_pop fun n body _ hbody => ?_
  refine .bind keeps_pop fun m pattern hm hpattern => ?_
  have hchildren : AllUpTo m [pattern, body] :=
    List.forall_mem_cons.2 ⟨hpattern, List.forall_mem_singleton.2 (hbody.mono hm)⟩
  exact .bind (keeps_pushBranch .clause hchildren none) fun _ _ _ _ => answers_passed rfl

theorem answers_closeIf {kind : TokenKind} (hk : token.kind = kind) (hend : kind ≠ .endOfText)
    (base : Nat) (start : Coord) : Answers lo token (closeIf base start token) := by
  unfold closeIf
  refine .bind (keeps_split base) fun n parts _ hparts => ?_
  have hslots : AllUpTo n ((parts ++ List.replicate 3 NodeId.absent).take 3) := by
    intro id hm
    rcases List.mem_append.1 (List.mem_of_mem_take hm) with hm | hm
    · exact hparts id hm
    · rw [(List.mem_replicate.1 hm).2]
      exact NodeId.upTo_absent n
  exact .bind (keeps_pushBranch .ifThen hslots _) fun _ _ _ _ => answers_taken hk hend rfl

theorem answers_ifCondition (base : Nat) (start : Coord) :
    Answers lo token (answerIfCondition base start token) := by
  unfold answerIfCondition
  split
  · rename_i hk
    exact answers_opened hk nofun rfl
  · exact answers_instead .thenWord

theorem answers_ifBranch (base : Nat) (start : Coord) :
    Answers lo token (answerIfBranch base start token) := by
  unfold answerIfBranch
  split
  · rename_i hk
    exact answers_opened hk nofun rfl
  · rename_i hk
    exact answers_closeIf hk nofun base start
  · exact answers_instead .elseOrEnd

theorem answers_elseBranch (base : Nat) (start : Coord) :
    Answers lo token (answerElseBranch base start token) := by
  unfold answerElseBranch
  split
  · rename_i hk
    exact answers_closeIf hk nofun base start
  · exact answers_instead .endWord

/-! ## Operations -/

theorem keeps_reduce (op : BinOp) : Keeps lo (reduce op) Whatever := by
  unfold reduce
  refine .bind keeps_pop fun n right _ hright => ?_
  refine .bind keeps_pop fun m left hm hleft => ?_
  refine .bind keeps_get fun k b hk _ => ?_
  have hoperands : AllUpTo k [left, right] := List.forall_mem_cons.2
    ⟨hleft.mono hk, List.forall_mem_singleton.2 (hright.mono (Nat.le_trans hm hk))⟩
  dsimp only
  split
  · exact keeps_pushConcat hoperands _
  · exact keeps_pushBranch _ hoperands _

theorem keeps_reduceAll (least : Nat) (waiting : List BinOp) :
    Keeps lo (reduceAll least waiting) Whatever := by
  induction waiting generalizing lo with
  | nil => exact .pure fun _ _ => trivial
  | cons op rest ih =>
    unfold reduceAll
    split
    · exact .pure fun _ _ => trivial
    · exact .bind (keeps_reduce op) fun _ _ _ _ => ih

theorem answers_operator (waiting : List BinOp) :
    Answers lo token (answerOperator waiting token) := by
  unfold answerOperator
  split
  · rename_i op hk
    exact .bind (keeps_reduceAll op.precedence waiting) fun _ _ _ _ => answers_taken hk nofun rfl
  · refine .bind (P := Whatever) ?_ fun _ _ _ _ => answers_passed rfl
    exact .bind (keeps_reduceAll 0 waiting) fun _ _ _ _ => .pure fun _ _ => trivial

theorem answers_unary (pattern : Bool) : Answers lo token (answerUnary pattern token) := by
  unfold answerUnary
  split
  · rename_i hk
    exact answers_taken hk nofun rfl
  · exact answers_passed rfl

theorem answers_negation (start : Coord) : Answers lo token (answerNegation start) := by
  unfold answerNegation
  refine .bind keeps_pop fun n operand _ hoperand => ?_
  refine .bind keeps_get fun m b hm _ => ?_
  have hchildren : AllUpTo m [operand] := List.forall_mem_singleton.2 (hoperand.mono hm)
  exact .bind (keeps_pushBranch .neg hchildren _) fun _ _ _ _ => answers_passed rfl

/-! ## Primaries -/

/-- An unknown name is noted and stands for itself. -/
theorem keeps_readName (name : String) (pattern : Bool) (location : Location) :
    Keeps lo (readName name pattern location) Whatever := by
  have hleaf : ∀ n (as : TokenClass), Keeps n (do
      pushLeaf .ident name location.coord
      return as) Whatever :=
    fun n as => .bind (keeps_pushLeaf .ident name location.coord) fun _ _ _ _ =>
      .pure fun _ _ => trivial
  unfold readName
  split
  · refine .bind (keeps_pushNode (List.forall_mem_nil _)) fun _ _ _ _ => ?_
    exact .pure fun _ _ => trivial
  · refine .bind keeps_get fun n b hn hb => ?_
    split
    · rename_i id _ _ hfind
      have hid : id.UpTo n := (hb.1.env.find? hfind : id.UpTo b.store.size).mono hb.2
      split
      · exact .bind (keeps_push hid) fun _ _ _ _ => .pure fun _ _ => trivial
      · exact hleaf n .parameter
    · exact hleaf n .function
    · exact .bind (keeps_report rfl) fun m _ _ _ => hleaf m .error

theorem answers_primary (pattern : Bool) : Answers lo token (answerPrimary pattern token) := by
  unfold answerPrimary
  dsimp only
  split
  case h_1 hk => exact answers_leaf hk nofun rfl .num _ _
  case h_2 hk => exact answers_leaf hk nofun rfl .str _ _
  case h_3 hk =>
    refine .bind keeps_height fun n base _ _ => ?_
    exact .bind (keeps_pushLeaf .str _ _) fun _ _ _ _ => answers_opened hk nofun rfl
  case h_4 hk | h_5 hk | h_6 hk =>
    exact .bind (keeps_pushNode (List.forall_mem_nil _)) fun _ _ _ _ =>
      answers_taken hk nofun rfl
  case h_7 hk | h_8 hk => exact .bind keeps_height fun _ _ _ _ => answers_taken hk nofun rfl
  case h_9 hk => exact answers_opened hk nofun rfl
  case h_10 hk =>
    refine .bind (keeps_enter "lambda") fun n entered _ hentered => ?_
    split
    · exact answers_failed hentered
    · exact answers_taken hk nofun rfl
  case h_11 name hk =>
    exact .bind (keeps_readName name pattern token.location) fun _ _ _ _ =>
      answers_taken hk nofun rfl
  case h_12 => exact answers_instead .expression

theorem answers_interpolation (base : Nat) (start : Coord) :
    Answers lo token (answerInterpolation base start token) := by
  unfold answerInterpolation
  split
  · rename_i hk
    exact .bind (keeps_pushLeaf .str _ _) fun _ _ _ _ => answers_opened hk nofun rfl
  · rename_i hk
    refine .bind (keeps_pushLeaf .str _ _) fun n _ _ _ => ?_
    refine .bind (keeps_split base) fun m parts _ hparts => ?_
    exact .bind (keeps_pushConcat hparts _) fun _ _ _ _ => answers_taken hk nofun rfl
  · exact answers_instead .restOfString

theorem answers_recordKey (base : Nat) (start : Coord) :
    Answers lo token (answerRecordKey base start token) := by
  unfold answerRecordKey
  split
  · rename_i hk
    exact answers_closed hk nofun .record base _
  · rename_i hk
    exact answers_leaf hk nofun rfl .str _ _
  · rename_i hk
    exact answers_leaf hk nofun rfl .str _ _
  · exact answers_instead .keyOrBrace

theorem answers_recordColon (base : Nat) (start : Coord) :
    Answers lo token (answerRecordColon base start token) := by
  unfold answerRecordColon
  split
  · rename_i hk
    exact answers_opened hk nofun rfl
  · exact answers_instead .colon

theorem answers_recordValue (base : Nat) (start : Coord) :
    Answers lo token (answerRecordValue base start token) := by
  unfold answerRecordValue
  refine .bind keeps_pop fun n value _ hvalue => ?_
  refine .bind keeps_pop fun m key hm hkey => ?_
  have hchildren : AllUpTo m [key, value] :=
    List.forall_mem_cons.2 ⟨hkey, List.forall_mem_singleton.2 (hvalue.mono hm)⟩
  refine .bind (keeps_pushBranch .binding hchildren none) fun _ _ _ _ => ?_
  split
  · rename_i hcomma
    exact answers_taken hcomma nofun rfl
  · exact answers_passed rfl

theorem answers_list (base : Nat) (pattern : Bool) (start : Coord) :
    Answers lo token (answerList base pattern start token) := by
  unfold answerList
  split
  · rename_i hk
    exact answers_closed hk nofun .list base _
  · rename_i hk
    exact answers_taken hk nofun rfl
  · refine answers_passed ?_
    cases pattern <;> rfl

theorem answers_paren (start : Coord) : Answers lo token (answerParen start token) := by
  unfold answerParen
  split
  · rename_i hk
    refine .bind keeps_pop fun n inner _ hinner => ?_
    have hchildren : AllUpTo n [inner] := List.forall_mem_singleton.2 hinner
    exact .bind (keeps_pushBranch .paren hchildren _) fun _ _ _ _ => answers_taken hk nofun rfl
  · exact answers_instead .closeParen

/-! ## Lambdas -/

theorem answers_lambdaParams (params : List String) (start : Coord) :
    Answers lo token (answerLambdaParams params start token) := by
  unfold answerLambdaParams
  split
  · rename_i hk
    exact .bind (keeps_addWord (NodeId.upTo_absent lo)) fun _ _ _ _ => answers_taken hk nofun rfl
  · rename_i hk
    exact answers_opened hk nofun rfl
  · exact answers_instead .parameterOrColon

theorem keeps_internParams (params : List String) : Keeps lo (internParams params) AllUpTo := by
  induction params generalizing lo with
  | nil => exact .pure fun _ _ => List.forall_mem_nil _
  | cons param rest ih =>
    unfold internParams
    refine .bind (keeps_intern (List.forall_mem_nil _)) fun n id _ hid => ?_
    refine .bind ih fun m ids hm hids => ?_
    exact .pure fun k hk => List.forall_mem_cons.2
      ⟨hid.mono (Nat.le_trans hm hk), hids.mono hk⟩

theorem answers_lambdaBody (params : List String) (start : Coord) :
    Answers lo token (answerLambdaBody params start token) := by
  unfold answerLambdaBody
  split
  · rename_i htoken
    refine .bind keeps_pop fun n body _ hbody => ?_
    refine .bind (keeps_foldNode hbody) fun m result _ hresult => ?_
    refine .bind keeps_exit fun k _ hk _ => ?_
    split
    · exact answers_failed hresult
    · rename_i folded
      have hfolded : folded.UpTo k := NodeId.UpTo.mono hresult hk
      refine .bind (keeps_internParams params) fun l names hl hnames => ?_
      refine .bind (keeps_intern ?_) fun j list hj hlist => ?_
      · rw [Node.children_branch]
        exact hnames
      · refine .bind (keeps_pushNode ?_) fun _ _ _ _ => answers_taken htoken nofun rfl
        rw [Node.children_branch]
        exact List.forall_mem_cons.2
          ⟨hlist, List.forall_mem_singleton.2 (hfolded.mono (Nat.le_trans hl hj))⟩
  · exact answers_instead .closeAngle

/-! ## All rules -/

/-- What a rule above the end of a program does with a token. -/
theorem keeps_answer (token : Token) {rule : Rule} (h : rule.isInner = true) :
    Answers lo token (rule.answer token) := by
  cases rule with
  | program => cases h
  | programEnd => cases h
  | sequence base stage => exact answers_sequence base stage
  | expression => exact answers_expression
  | letName => exact answers_letName
  | letParams name params => exact answers_letParams name params
  | letBody name params => exact answers_letBody name params
  | conditional => exact answers_conditional
  | clauses base start => exact answers_clauses base start
  | clauseColon => exact answers_clauseColon
  | clauseBody => exact answers_clauseBody
  | ifCondition base start => exact answers_ifCondition base start
  | ifBranch base start => exact answers_ifBranch base start
  | elseBranch base start => exact answers_elseBranch base start
  | operand waiting => exact answers_passed rfl
  | operator waiting => exact answers_operator waiting
  | unary pattern => exact answers_unary pattern
  | negation start => exact answers_negation start
  | primary pattern => exact answers_primary pattern
  | interpolation base start => exact answers_interpolation base start
  | recordKey base start => exact answers_recordKey base start
  | recordColon base start => exact answers_recordColon base start
  | recordValue base start => exact answers_recordValue base start
  | list base pattern start => exact answers_list base pattern start
  | paren start => exact answers_paren start
  | lambdaParams params start => exact answers_lambdaParams params start
  | lambdaBody params start => exact answers_lambdaBody params start

/-- A program begins with a sequence and then its end. -/
theorem keeps_answer_program (token : Token) :
    Keeps lo (Rule.program.answer token) fun _ answer =>
      ∃ rule : Rule, rule.isInner = true ∧ answer = .passed [rule, .programEnd] :=
  .bind keeps_opened fun _ rule _ hrule => .pure fun _ _ => ⟨rule, hrule, rfl⟩

/-! ## The end of a program -/

/-- A step that keeps a builder sound and either refuses the token or takes the end of the text.
Then there is a root and no rule waits any longer. -/
def Completes (lo : Nat) (token : Token) (step : Build Answer) : Prop :=
  ∀ b : Builder, b.Sound → lo ≤ b.store.size → (step.run b).2.Sound ∧
    ((∃ error, (step.run b).1 = .refused error ∧ error.Stops ∧
        (step.run b).2.root = b.root) ∨
      ∃ as root, (step.run b).1 = .taken as [] ∧ token.kind = .endOfText ∧
        (step.run b).2.root = some root ∧ (step.run b).2.store.node? root ≠ none)

theorem Completes.refused {error : SyntaxError} (h : error.Stops) :
    Completes lo token (pure (.refused error)) :=
  fun _ hb _ => ⟨hb, .inl ⟨error, rfl, h, rfl⟩⟩

theorem Completes.bind {α : Type} {step : Build α} {next : α → Build Answer}
    {P : Nat → α → Prop} (h : Keeps lo step P)
    (k : ∀ n a, lo ≤ n → P n a → Completes n token (next a)) :
    Completes lo token (step >>= next) := by
  intro b hb hlo
  obtain ⟨hmid, hle, hroot, hP⟩ := h b hb hlo
  have hnext := k (step.run b).2.store.size (step.run b).1 (Nat.le_trans hlo hle) hP
    (step.run b).2 hmid (Nat.le_refl _)
  rw [hroot] at hnext
  exact hnext

/-- Storing the root. -/
theorem completes_intern {node : Node} {coord : Option Coord} (hk : token.kind = .endOfText)
    (hc : AllUpTo lo node.children) :
    Completes lo token (do
      let root ← Build.intern node coord
      modify fun b => { b with root := some root }
      return .taken .punctuation []) := by
  intro b hb hlo
  obtain ⟨hsound, -, -, -⟩ := keeps_intern hc b hb hlo
  refine ⟨⟨hsound.grounded, hsound.nodes, hsound.env, hsound.errors⟩, .inr ?_⟩
  refine ⟨.punctuation, (b.store.intern node coord).1, rfl, hk, rfl, ?_⟩
  have hnode := b.store.node?_intern node coord
  intro hnone
  exact Option.some_ne_none node (hnode.symm.trans hnone)

/-- The end of a program only takes the end of the text. -/
theorem completes_answerProgramEnd (token : Token) :
    Completes lo token (answerProgramEnd token) := by
  unfold answerProgramEnd
  split
  · rename_i htoken
    refine .bind keeps_pop fun n sequence _ hsequence => ?_
    refine .bind (keeps_foldNode hsequence) fun m result _ hresult => ?_
    split
    · exact .refused hresult
    · rename_i folded
      refine .bind keeps_get fun k b hk _ => completes_intern htoken ?_
      rw [Node.children_branch]
      exact List.forall_mem_singleton.2 (NodeId.UpTo.mono hresult hk)
  · exact .refused trivial

end Rule

end Juxta
