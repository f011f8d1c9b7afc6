import ScriptEngine.Proofs.Moving

/-!
# Expressions that are moved

An expression is read up to a token that does not continue it. If some of the tokens that
are moved stand behind it, they hold that token. If none does, it is the one at the target,
so this one must not continue the expression either.
-/
namespace ScriptEngine.Grammar

/-- How much is left of the tokens that are moved where a goal ends. Nothing has to be left behind a function, and
behind an expression where the token at the target does not continue it. -/
def Goal.Ends (m : Move) (n : Nat) : Goal → Prop
  | .declaration | .statement => 0 < n
  | .expression level => n = 0 → Stops level m.target.kind ∧ level.rank ≤ Precedence.unary.rank
  | .function _ _ _ _ => True

/-- What the first parser of goals does with tokens at the source, the second does at the target. -/
def Move.Goals (m : Move) (parse parse' : Goal → Parser Unit) : Prop :=
  ∀ goal n, goal.Ends m n → m.Carries (fun _ => True) n (parse goal) (parse' goal)

section
variable {m : Move} {parse parse' : Goal → Parser Unit} {n : Nat} {q : Unit → Prop}

variable (goals : m.Goals parse parse')
include goals

theorem carries_expression : m.Carries q (n + 1) (expression parse) (expression parse') :=
  (goals (.expression .assignment) (n + 1) nofun).any

theorem carries_argumentList {q : UInt8 → Prop} : m.Carries q n (argumentList parse) (argumentList parse') := by
  have close (count : Nat) : m.Carries (fun _ => True) n (do
      expect .closeParen "')' after arguments"
      return UInt8.ofNat count) (do
      expect .closeParen "')' after arguments"
      return UInt8.ofNat count) := carries_expect.eaten fun _ => carries_pure id
  unfold argumentList
  refine Move.Carries.any (carries_check (fun b => ?_) fun _ _ => trivial)
  dsimp only
  split
  · exact close 0
  refine (carries_repeatFrom fun count => ?_).then close
  refine (carries_expression goals).eaten fun _ => ?_
  split
  · exact carries_failed fun _ _ _ => nofun
  · exact carries_accepts.next fun _ => carries_pure id

omit goals in
/-- Behind an assignment operator there is always something to read. -/
theorem carries_acceptAssignment {β : Type} {f g : Option Assignment → Parser β}
    (h : ∀ a, m.Carries (fun _ => True) n (f a) (g a)) :
    m.Carries (fun _ => True) n (acceptAssignment >>= f) (acceptAssignment >>= g) := by
  unfold acceptAssignment
  rw [bind_assoc, bind_assoc]
  refine carries_kind (fun kind => ?_) fun _ _ => trivial
  dsimp only
  split
  · rw [bind_assoc, bind_assoc]
    exact carries_advance (h (Assignment.ofKind? kind)).any
  · exact h _

/-- The end of an expression to which something may be assigned. -/
def Move.Assigns (m : Move) (canAssign : Bool) (n : Nat) : Prop :=
  n = 0 → m.target.kind.infixLevel.rank < Precedence.unary.rank ∧ (canAssign → Stops .assignment m.target.kind)

omit goals in
theorem Move.Assigns.stops {canAssign : Bool} (ends : m.Assigns canAssign n) (assigns : canAssign) :
    (Goal.expression .assignment).Ends m n := fun zero => ⟨(ends zero).2 assigns, by decide⟩

omit goals in
/-- A token at which an expression ends is no assignment operator where it may be taken for one. -/
theorem Move.Assigns.other {canAssign : Bool} (ends : m.Assigns canAssign n) (zero : n = 0) :
    ¬(canAssign && isAssignment m.target.kind) = true := by
  intro here
  obtain ⟨assigns, operator⟩ := Bool.and_eq_true_iff.mp here
  have other := ((ends zero).2 assigns).2 le_rfl
  exact Bool.false_ne_true (other.symm.trans operator)

omit goals in
theorem Move.Assigns.ne_openParen {canAssign : Bool} (ends : m.Assigns canAssign n) (zero : n = 0) :
    m.target.kind ≠ .openParen := by
  intro here
  have weak := (ends zero).1
  rw [here] at weak
  exact absurd weak (by decide)

theorem carries_variableNamed (name : String) {canAssign : Bool} (ends : m.Assigns canAssign n) :
    m.Carries (fun _ => False) n (variableNamed parse name canAssign) (variableNamed parse' name canAssign) := by
  refine carries_peek (fun k => canAssign && isAssignment k) (fun k here => ?_) (carries_write (.load name))
    (fun k other => ⟨if_neg other, if_neg other⟩) ends.other
  have value := goals _ n (ends.stops (Bool.and_eq_true_iff.mp here).1)
  rw [if_pos here, if_pos here]
  refine (carries_write _).next fun _ => carries_acceptAssignment fun a => (carries_write _).next fun _ => ?_
  split
  · refine (carries_write _).next fun _ => value.eaten fun _ => ?_
    exact (carries_write _).next fun _ => carries_write _
  · exact value.eaten fun _ => carries_write _

theorem carries_superMember (ends : n = 0 → m.target.kind ≠ .openParen) :
    m.Carries q n (superMember parse) (superMember parse') := by
  refine (carries_write _).next fun _ => carries_expect.eaten fun _ => carries_expectMember.eaten fun name => ?_
  refine (carries_write _).next fun _ => (carries_write _).next fun _ => carries_accept ?_ ?_ ends
  · refine (carries_argumentList goals).eaten fun argc => ?_
    exact (carries_write _).next fun _ => carries_write _
  · exact (carries_write _).next fun _ => carries_write _

theorem carries_bracketLiteral : m.Carries q n (bracketLiteral parse) (bracketLiteral parse') := by
  refine carries_optional (carries_expect.eaten fun _ => carries_write _) <|
    carries_optional (carries_write _) <| (carries_expression goals).then fun _ => ?_
  have rest (isMap : Bool) : m.Carries (fun _ => True) n (do
      let count ← repeatFrom 1 fun n => do
        if !(← accept .comma) then return (n, false)
        if ← check .closeBracket then return (n, false)
        expression parse
        if isMap then
          expect .colon "':' between map key and value"
          expression parse
        return (n + 1, true)
      expect .closeBracket "']' after literal elements"
      if count ≥ 65536 then failBefore (.tooMany "elements in literal")
      let n := UInt16.ofNat count
      write (if isMap then .plain (.buildMap n) else .plain (.buildList n))) (do
      let count ← repeatFrom 1 fun n => do
        if !(← accept .comma) then return (n, false)
        if ← check .closeBracket then return (n, false)
        expression parse'
        if isMap then
          expect .colon "':' between map key and value"
          expression parse'
        return (n + 1, true)
      expect .closeBracket "']' after literal elements"
      if count ≥ 65536 then failBefore (.tooMany "elements in literal")
      let n := UInt16.ofNat count
      write (if isMap then .plain (.buildMap n) else .plain (.buildList n))) := by
    refine (carries_repeatFrom fun count => ?_).then fun count => carries_expect.eaten fun _ => ?_
    · refine carries_accept ?_ (carries_pure Bool.false_ne_true) nofun
      refine carries_check (fun b => ?_) nofun
      dsimp only
      split
      · exact carries_pure id
      refine (carries_expression goals).eaten fun _ => ?_
      split
      · exact carries_expect.eaten fun _ => (carries_expression goals).eaten fun _ => carries_pure id
      · exact carries_pure id
    · dsimp only
      split
      · exact carries_failed fun _ _ _ => nofun
      · exact carries_write _
  refine carries_optional ?_ (rest false)
  exact (carries_expression goals).then fun _ => rest true

theorem carries_dynamicLiteral : m.Carries q n (dynamicLiteral parse) (dynamicLiteral parse') := by
  refine carries_optional (carries_expect.eaten fun _ => carries_write _) <| (carries_write _).next fun _ => ?_
  refine carries_check (fun b => ?_) fun _ _ => trivial
  dsimp only
  split
  · exact carries_expect
  refine (carries_commaSeparated ?_).then fun _ => carries_expect
  refine carries_expectName.eaten fun name => (carries_write _).next fun _ => carries_expect.eaten fun _ => ?_
  exact (carries_write _).next fun _ => (carries_expression goals).eaten fun _ => carries_write _

/-- A token that begins an expression, and what belongs to it. -/
theorem carries_beginning {canAssign : Bool} (ends : m.Assigns canAssign n) :
    m.Carries q n (advance >>= fun _ => prefixRule parse canAssign) (advance >>= fun _ => prefixRule parse' canAssign) := by
  have operand (d : Directive) : m.Carries (fun _ => False) n
      (parse (.expression .unary) >>= fun _ => write d) (parse' (.expression .unary) >>= fun _ => write d) :=
    (goals (.expression .unary) n fun zero => ⟨⟨(ends zero).1, fun loose => absurd loose (by decide)⟩, le_rfl⟩).eaten fun _ => carries_write d
  refine carries_previous fun token token' same => ?_
  have kind := Token.kind_eq same
  have lexeme := Token.lexeme_eq same
  have literal := Token.literal_eq same
  rw [kind, lexeme, literal]
  split
  · exact (carries_expression goals).then fun _ => carries_expect
  · exact carries_bracketLiteral goals
  · exact carries_dynamicLiteral goals
  · exact operand _
  · exact operand _
  · exact carries_variableNamed goals _ ends
  · split
    · exact carries_write _
    · exact carries_failBefore
  · split
    · exact carries_write _
    · exact carries_failBefore
  · exact carries_write _
  · exact carries_write _
  · exact carries_write _
  · exact carries_write _
  · exact carries_superMember goals ends.ne_openParen
  · exact (goals (.function .function "anonymous" {} []) n trivial).any
  · exact carries_expectName.eaten fun name => carries_write _
  · exact carries_failBefore

theorem carries_assignedValue {old : List Directive} {a : Option Assignment} (ends : (Goal.expression .assignment).Ends m n) :
    m.Carries q n (assignedValue parse old a) (assignedValue parse' old a) := by
  unfold assignedValue
  split
  · refine Move.Carries.any ?_
    exact (carries_writes old).next fun _ => (goals _ n ends).eaten fun _ => carries_write _
  · exact (goals _ n ends).any

theorem carries_member {canAssign : Bool} (ends : m.Assigns canAssign n) :
    m.Carries q n (member parse canAssign) (member parse' canAssign) := by
  refine carries_expectMember.eaten fun name => (carries_write _).next fun _ => ?_
  have unassigned : m.Carries (fun _ => False) n (do
      if ← accept .openParen then
        let argc ← argumentList parse
        write (.invoke name argc)
      else
        write (.getProperty name)) (do
      if ← accept .openParen then
        let argc ← argumentList parse'
        write (.invoke name argc)
      else
        write (.getProperty name)) :=
    carries_accept ((carries_argumentList goals).eaten fun argc => carries_write _) (carries_write _) ends.ne_openParen
  refine carries_peek (fun k => canAssign && isAssignment k) (fun k here => ?_) unassigned
    (fun k other => ⟨if_neg other, if_neg other⟩) ends.other
  rw [if_pos here, if_pos here]
  refine (carries_write _).next fun _ => carries_acceptAssignment fun a => ?_
  exact (carries_assignedValue goals (ends.stops (Bool.and_eq_true_iff.mp here).1)).eaten fun _ => carries_write _

theorem carries_element {canAssign : Bool} (ends : m.Assigns canAssign n) :
    m.Carries q n (element parse canAssign) (element parse' canAssign) := by
  refine (carries_expression goals).then fun _ => carries_expect.eaten fun _ => ?_
  refine carries_peek (fun k => canAssign && isAssignment k) (fun k here => ?_) (carries_write (.plain .getIndex))
    (fun k other => ⟨if_neg other, if_neg other⟩) ends.other
  rw [if_pos here, if_pos here]
  refine (carries_write _).next fun _ => carries_acceptAssignment fun a => ?_
  exact (carries_assignedValue goals (ends.stops (Bool.and_eq_true_iff.mp here).1)).eaten fun _ => carries_write _

omit goals in
/-- What does not continue an expression does not continue the operand of an operator in it either. -/
theorem Goal.Ends.operand {level level' : Precedence} (ends : (Goal.expression level).Ends m n)
    (levels : 1 ≤ level.rank → level.rank ≤ level'.rank ∧ 1 < level'.rank ∧ level'.rank ≤ Precedence.unary.rank) :
    (Goal.expression level').Ends m n := by
  intro zero
  have weak := (ends zero).1.1
  obtain ⟨strong, proper, low⟩ := levels (Nat.zero_lt_of_lt weak)
  exact ⟨⟨Nat.lt_of_lt_of_le weak strong, fun loose => absurd loose (Nat.not_le_of_lt proper)⟩, low⟩

omit goals in
/-- The levels of operators with two operands. -/
theorem next_operator {kind : TokenKind} (continues : 1 ≤ kind.infixLevel.rank) (call : kind ≠ .openParen) (dot : kind ≠ .dot)
    (index : kind ≠ .openBracket) : kind.infixLevel.rank ≤ kind.infixLevel.next.rank ∧ 1 < kind.infixLevel.next.rank ∧
      kind.infixLevel.next.rank ≤ Precedence.unary.rank := by
  cases kind <;> first | contradiction | decide

theorem carries_climbRound {level : Precedence} {canAssign : Bool} (ends : (Goal.expression level).Ends m n)
    (assigns : m.Assigns canAssign n) :
    m.Carries (fun more => more = true) n (climbRound parse level canAssign) (climbRound parse' level canAssign) := by
  unfold climbRound infixRule
  simp only [bind_assoc]
  refine carries_continues (fun k => level.rank ≤ k.infixLevel.rank) (fun t t' same strong => ?_) (carries_pure Bool.false_ne_true)
    fun zero => Nat.not_le_of_lt (ends zero).1.1
  have operator {x y : Parser Unit} (h : m.Carries (fun _ => False) n x y) :
      m.Carries (fun _ => False) n (x >>= fun _ => pure true) (y >>= fun _ => pure true) := h.next fun _ => carries_pure id
  have short (d : Directive) {level' : Precedence} (strong : level.rank ≤ level'.rank) (proper : 1 < level'.rank)
      (low : level'.rank ≤ Precedence.unary.rank) : m.Carries (fun _ => False) n
        (do write d; parse (.expression level'); write .shortEnd) (do write d; parse' (.expression level'); write .shortEnd) :=
    (carries_write d).next fun _ => (goals _ n (ends.operand fun _ => ⟨strong, proper, low⟩)).eaten fun _ => carries_write _
  rw [Token.kind_eq same]
  refine operator ?_
  split
  · exact (carries_argumentList goals).eaten fun argc => carries_write _
  · exact carries_member goals assigns
  · exact carries_element goals assigns
  · rename_i kind
    rw [kind] at strong
    exact short .andThen strong (by decide) (by decide)
  · rename_i kind
    rw [kind] at strong
    exact short .orElse strong (by decide) (by decide)
  · rename_i call dot index _ _
    have operand := goals (.expression t.kind.infixLevel.next) n <| ends.operand fun proper => by
      obtain ⟨le, most⟩ := next_operator (proper.trans strong) call dot index
      exact ⟨strong.trans le, most⟩
    exact operand.eaten fun _ => carries_writes _

theorem carries_climb {level : Precedence} (ends : (Goal.expression level).Ends m n) :
    m.Carries (fun _ => True) n (climb parse level) (climb parse' level) := by
  have assigns : m.Assigns (decide (level.rank ≤ Precedence.assignment.rank)) n := fun zero => by
    obtain ⟨⟨weak, other⟩, low⟩ := ends zero
    refine ⟨Nat.lt_of_lt_of_le weak low, fun assigning => ?_⟩
    have loose := of_decide_eq_true assigning
    exact ⟨Nat.lt_of_lt_of_le weak loose, fun _ => other loose⟩
  rw [climb_eq, climb_eq]
  refine (carries_beginning goals assigns).eaten fun _ => ?_
  refine (carries_repeatWhile (carries_climbRound goals ends assigns)).next fun _ => ?_
  refine carries_peek (fun k => decide (level.rank ≤ Precedence.assignment.rank) && isAssignment k) (fun k here => ?_)
    (carries_pure id) (fun k other => ⟨if_neg other, if_neg other⟩) assigns.other
  rw [if_pos here]
  exact carries_failHere

end

end ScriptEngine.Grammar
