import Juxta.Grammar.Answer
import Juxta.Proofs.Canonical

/-!
# Rules that leave the scopes alone

Names get their meanings from definitions and from the parameters of lambdas. All other rules leave
the scopes as they are, and only add nodes to the store.

* `Build.Frames` : steps that only add nodes; one lemma `Build.frames_…` for each;
* `Rule.scopes` : the rules that fold or change scopes, and the one with which a lambda may begin;
* `Rule.frames_answer`, `Rule.frames_primary` : what all other rules answer.
-/

namespace Juxta

/-! ## Steps -/

namespace Build

variable {α β : Type}

/-- A step that leaves the scopes as they are and only adds nodes. -/
def Frames (step : Build α) : Prop :=
  ∀ b : Builder, (step.run b).2.env = b.env ∧ b.store.Extends (step.run b).2.store

theorem frames_pure (a : α) : Frames (pure a) := fun _ => ⟨rfl, .refl _⟩

theorem Frames.bind {step : Build α} {next : α → Build β} (h : Frames step)
    (k : ∀ a, Frames (next a)) : Frames (step >>= next) := by
  intro b
  obtain ⟨henv, hstore⟩ := h b
  obtain ⟨henv', hstore'⟩ := k (step.run b).1 (step.run b).2
  exact ⟨henv'.trans henv, hstore.trans hstore'⟩

theorem frames_get : Frames get := fun _ => ⟨rfl, .refl _⟩

theorem frames_height : Frames height := fun _ => ⟨rfl, .refl _⟩

theorem frames_push (id : NodeId) : Frames (push id) := fun _ => ⟨rfl, .refl _⟩

theorem frames_pop : Frames pop := by
  intro b
  unfold pop
  rw [StateT.run_modifyGet]
  split <;> exact ⟨rfl, .refl _⟩

theorem frames_split (base : Nat) : Frames (split base) := fun _ => ⟨rfl, .refl _⟩

theorem frames_intern (node : Node) (coord : Option Coord) : Frames (intern node coord) :=
  fun b => ⟨rfl, b.store.extends_intern node coord⟩

theorem frames_pushNode (node : Node) (coord : Option Coord) : Frames (pushNode node coord) :=
  .bind (frames_intern node coord) frames_push

theorem frames_pushLeaf (tag : Tag) (text : String) (coord : Coord) :
    Frames (pushLeaf tag text coord) := frames_pushNode _ _

theorem frames_pushBranch (tag : Tag) (children : List NodeId) (coord : Option Coord) :
    Frames (pushBranch tag children coord) := .bind frames_get fun _ => frames_pushNode _ _

theorem frames_pushConcat (parts : List NodeId) (coord : Option Coord) :
    Frames (pushConcat parts coord) := .bind (frames_intern _ _) fun _ => frames_pushNode _ _

theorem frames_report (error : SyntaxError) : Frames (report error) := fun _ => ⟨rfl, .refl _⟩

end Build

/-! ## Answers -/

namespace Rule

open Build

variable {token : Token}

/-- The rules that fold what has been built or may change what a name means. -/
def scopes : Rule → Bool
  | .programEnd | .letName | .letParams _ _ | .letBody _ _ | .primary _ | .lambdaParams _ _
  | .lambdaBody _ _ => true
  | _ => false

theorem frames_opened : Frames opened := .bind frames_height fun _ => frames_pure _

/-- A token after which a sequence begins. -/
theorem frames_begins (as : TokenClass) (others : List Rule) :
    Frames (do return Answer.taken as ((← opened) :: others)) :=
  .bind frames_opened fun _ => frames_pure _

theorem frames_closeSequence (base : Nat) : Frames (closeSequence base) :=
  .bind (frames_split base) fun _ => frames_pushBranch _ _ _

theorem frames_sequence (base : Nat) (stage : SequenceStage) :
    Frames (answerSequence base stage token) := by
  unfold answerSequence
  split
  · split
    · exact frames_pure _
    · exact .bind (frames_closeSequence base) fun _ => frames_pure _
  · split
    · exact .bind (frames_closeSequence base) fun _ => frames_pure _
    · exact frames_pure _

theorem frames_conditional : Frames (answerConditional token) := by
  unfold answerConditional
  split
  · exact .bind frames_height fun _ => frames_begins _ _
  · exact .bind frames_height fun _ => frames_begins _ _
  · exact frames_pure _

theorem frames_clauses (base : Nat) (start : Coord) : Frames (answerClauses base start token) := by
  unfold answerClauses
  split
  · exact frames_pure _
  · exact .bind (frames_split base) fun _ => .bind (frames_pushBranch _ _ _) fun _ => frames_pure _
  · exact frames_pure _

theorem frames_clauseColon : Frames (answerClauseColon token) := by
  unfold answerClauseColon
  split
  · exact frames_begins _ _
  · exact frames_pure _

theorem frames_clauseBody : Frames answerClauseBody :=
  .bind frames_pop fun _ => .bind frames_pop fun _ => .bind (frames_pushBranch _ _ _) fun _ =>
    frames_pure _

theorem frames_closeIf (base : Nat) (start : Coord) : Frames (closeIf base start token) :=
  .bind (frames_split base) fun _ => .bind (frames_pushBranch _ _ _) fun _ => frames_pure _

theorem frames_ifCondition (base : Nat) (start : Coord) :
    Frames (answerIfCondition base start token) := by
  unfold answerIfCondition
  split
  · exact frames_begins _ _
  · exact frames_pure _

theorem frames_ifBranch (base : Nat) (start : Coord) :
    Frames (answerIfBranch base start token) := by
  unfold answerIfBranch
  split
  · exact frames_begins _ _
  · exact frames_closeIf base start
  · exact frames_pure _

theorem frames_elseBranch (base : Nat) (start : Coord) :
    Frames (answerElseBranch base start token) := by
  unfold answerElseBranch
  split
  · exact frames_closeIf base start
  · exact frames_pure _

theorem frames_reduce (op : BinOp) : Frames (reduce op) := by
  unfold reduce
  refine .bind frames_pop fun _ => .bind frames_pop fun _ => .bind frames_get fun _ => ?_
  split
  · exact frames_pushConcat _ _
  · exact frames_pushBranch _ _ _

theorem frames_reduceAll (least : Nat) (waiting : List BinOp) :
    Frames (reduceAll least waiting) := by
  induction waiting with
  | nil => exact frames_pure _
  | cons op rest ih =>
    unfold reduceAll
    split
    · exact frames_pure _
    · exact .bind (frames_reduce op) fun _ => ih

theorem frames_operator (waiting : List BinOp) : Frames (answerOperator waiting token) := by
  unfold answerOperator
  split
  · exact .bind (frames_reduceAll _ _) fun _ => frames_pure _
  · exact .bind (.bind (frames_reduceAll _ _) fun _ => frames_pure _) fun _ => frames_pure _

theorem frames_unary (pattern : Bool) : Frames (answerUnary pattern token) := by
  unfold answerUnary
  split <;> exact frames_pure _

theorem frames_negation (start : Coord) : Frames (answerNegation start) :=
  .bind frames_pop fun _ => .bind frames_get fun _ => .bind (frames_pushBranch _ _ _) fun _ =>
    frames_pure _

theorem frames_readName (name : String) (pattern : Bool) (location : Location) :
    Frames (readName name pattern location) := by
  unfold readName
  split
  · exact .bind (frames_pushNode _ _) fun _ => frames_pure _
  · refine .bind frames_get fun _ => ?_
    split
    · split
      · exact .bind (frames_push _) fun _ => frames_pure _
      · exact .bind (frames_pushLeaf _ _ _) fun _ => frames_pure _
    · exact .bind (frames_pushLeaf _ _ _) fun _ => frames_pure _
    · exact .bind (frames_report _) fun _ => .bind (frames_pushLeaf _ _ _) fun _ => frames_pure _

/-- A primary is no lambda unless it begins with an angle bracket. -/
theorem frames_primary (pattern : Bool) (h : token.kind ≠ .openAngle) :
    Frames (answerPrimary pattern token) := by
  unfold answerPrimary
  dsimp only
  split
  case h_10 hangle => exact absurd hangle h
  · exact .bind (frames_pushLeaf _ _ _) fun _ => frames_pure _
  · exact .bind (frames_pushLeaf _ _ _) fun _ => frames_pure _
  · exact .bind frames_height fun _ => .bind (frames_pushLeaf _ _ _) fun _ => frames_begins _ _
  · exact .bind (frames_pushNode _ _) fun _ => frames_pure _
  · exact .bind (frames_pushNode _ _) fun _ => frames_pure _
  · exact .bind (frames_pushNode _ _) fun _ => frames_pure _
  · exact .bind frames_height fun _ => frames_pure _
  · exact .bind frames_height fun _ => frames_pure _
  · exact frames_begins _ _
  · exact .bind (frames_readName _ _ _) fun _ => frames_pure _
  · exact frames_pure _

theorem frames_interpolation (base : Nat) (start : Coord) :
    Frames (answerInterpolation base start token) := by
  unfold answerInterpolation
  split
  · exact .bind (frames_pushLeaf _ _ _) fun _ => frames_begins _ _
  · exact .bind (frames_pushLeaf _ _ _) fun _ => .bind (frames_split base) fun _ =>
      .bind (frames_pushConcat _ _) fun _ => frames_pure _
  · exact frames_pure _

theorem frames_recordKey (base : Nat) (start : Coord) :
    Frames (answerRecordKey base start token) := by
  unfold answerRecordKey
  split
  · exact .bind (frames_split base) fun _ => .bind (frames_pushBranch _ _ _) fun _ => frames_pure _
  · exact .bind (frames_pushLeaf _ _ _) fun _ => frames_pure _
  · exact .bind (frames_pushLeaf _ _ _) fun _ => frames_pure _
  · exact frames_pure _

theorem frames_recordColon (base : Nat) (start : Coord) :
    Frames (answerRecordColon base start token) := by
  unfold answerRecordColon
  split
  · exact frames_begins _ _
  · exact frames_pure _

theorem frames_recordValue (base : Nat) (start : Coord) :
    Frames (answerRecordValue base start token) := by
  unfold answerRecordValue
  refine .bind frames_pop fun _ => .bind frames_pop fun _ => .bind (frames_pushBranch _ _ _)
    fun _ => ?_
  split <;> exact frames_pure _

theorem frames_list (base : Nat) (pattern : Bool) (start : Coord) :
    Frames (answerList base pattern start token) := by
  unfold answerList
  split
  · exact .bind (frames_split base) fun _ => .bind (frames_pushBranch _ _ _) fun _ => frames_pure _
  · exact frames_pure _
  · exact frames_pure _

theorem frames_paren (start : Coord) : Frames (answerParen start token) := by
  unfold answerParen
  split
  · exact .bind frames_pop fun _ => .bind (frames_pushBranch _ _ _) fun _ => frames_pure _
  · exact frames_pure _

theorem frames_internParams (params : List String) : Frames (internParams params) := by
  induction params with
  | nil => exact frames_pure _
  | cons param rest ih => exact .bind (frames_intern _ _) fun _ => .bind ih fun _ => frames_pure _

/-! ## All rules -/

/-- Rules that have to do neither with definitions nor with lambdas, and do not end the program. -/
theorem frames_answer (token : Token) {rule : Rule} (h : rule.scopes = false) :
    Frames (rule.answer token) := by
  cases rule with
  | programEnd | letName | letParams | letBody | primary | lambdaParams | lambdaBody => cases h
  | program => exact .bind frames_opened fun _ => frames_pure _
  | sequence base stage => exact frames_sequence base stage
  | expression => exact frames_pure _
  | conditional => exact frames_conditional
  | clauses base start => exact frames_clauses base start
  | clauseColon => exact frames_clauseColon
  | clauseBody => exact frames_clauseBody
  | ifCondition base start => exact frames_ifCondition base start
  | ifBranch base start => exact frames_ifBranch base start
  | elseBranch base start => exact frames_elseBranch base start
  | operand waiting => exact frames_pure _
  | operator waiting => exact frames_operator waiting
  | unary pattern => exact frames_unary pattern
  | negation start => exact frames_negation start
  | interpolation base start => exact frames_interpolation base start
  | recordKey base start => exact frames_recordKey base start
  | recordColon base start => exact frames_recordColon base start
  | recordValue base start => exact frames_recordValue base start
  | list base pattern start => exact frames_list base pattern start
  | paren start => exact frames_paren start

end Rule

end Juxta
