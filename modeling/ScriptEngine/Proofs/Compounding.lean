import ScriptEngine.Proofs.MovingPrograms

/-!
# Compound assignments

`x op= E` abbreviates `x = x op (E)`. The two are read along different ways: the operator
is part of the assignment in one, and in the other an operator of an expression whose right
operand stands in parentheses. The same directives are written on both ways, and what they
come to in the assembler is the same but for lines.

`Takes` says of a parser that it reads given tokens ahead of given others.
-/
namespace ScriptEngine

/-- The operator that is part of a compound assignment. -/
def TokenKind.operator? : TokenKind → Option TokenKind
  | .plusEqual => some .plus
  | .minusEqual => some .minus
  | .starEqual => some .star
  | .slashEqual => some .slash
  | .percentEqual => some .percent
  | _ => none

namespace Grammar

/-- Directives are written, of which the lines do not matter. -/
def Cursor.Adds (c c' : Cursor) (ds : List Directive) : Prop :=
  ∃ steps, c'.steps.toList = c.steps.toList ++ steps ∧ steps.map (·.directive.unplaced) = ds

theorem Cursor.Adds.refl {c c' : Cursor} (same : c'.steps = c.steps) : c.Adds c' [] :=
  ⟨[], by rw [same, List.append_nil], rfl⟩

theorem Cursor.Adds.trans {c c' c'' : Cursor} {ds ds' : List Directive} (h : c.Adds c' ds) (h' : c'.Adds c'' ds') :
    c.Adds c'' (ds ++ ds') := by
  obtain ⟨steps, eq, rfl⟩ := h
  obtain ⟨steps', eq', rfl⟩ := h'
  exact ⟨steps ++ steps', by rw [eq', eq, List.append_assoc], List.map_append⟩

/-- The parser reads the tokens in front and leaves those behind, gives a result and writes directives. -/
def Takes {α : Type} (x : Parser α) (a : α) (front behind : List Token) (ds : List Directive) : Prop :=
  ∀ c, c.left = front ++ behind → ∃ c', x c = .ok a c' ∧ c'.left = behind ∧ c.Adds c' ds

section Takes
variable {α β : Type} {x : Parser α} {f : α → Parser β} {a : α} {b : β} {t t' : Token}
variable {front front' behind rest : List Token} {ds ds' : List Directive}

theorem Takes.bind (h : Takes x a front (front' ++ behind) ds) (h' : Takes (f a) b front' behind ds') :
    Takes (x >>= f) b (front ++ front') behind (ds ++ ds') := by
  intro c left
  obtain ⟨c₁, run, left₁, adds⟩ := h c (by rw [left, List.append_assoc])
  obtain ⟨c₂, run', left₂, adds'⟩ := h' c₁ left₁
  exact ⟨c₂, (parser_bind run f).trans run', left₂, adds.trans adds'⟩

theorem takes_pure : Takes (pure a) a [] behind [] := fun c left => ⟨c, rfl, left, .refl rfl⟩

theorem takes_write (d : Directive) : Takes (write d) () [] behind [d.unplaced] :=
  fun _ left => ⟨_, rfl, left, [_], Array.toList_push .., rfl⟩

theorem Takes.written {f : Unit → Parser β} (d : Directive) (h : Takes (f ()) b front behind ds) :
    Takes (write d >>= f) b front behind (d.unplaced :: ds) := (takes_write d).bind h

/-- The second part reads nothing. -/
theorem Takes.last (h : Takes x a front behind ds) (h' : Takes (f a) b [] behind ds') :
    Takes (x >>= f) b front behind (ds ++ ds') := by
  have all : Takes (x >>= f) b (front ++ []) behind (ds ++ ds') := Takes.bind h h'
  rwa [List.append_nil] at all

theorem takes_previous {f : Token → Parser β} (h : Takes (f t) b front (t' :: rest) ds) :
    Takes (advance >>= fun _ => previousToken >>= f) b (t :: front) (t' :: rest) ds := by
  intro c left
  obtain ⟨u, us, eq⟩ : ∃ u us, front ++ t' :: rest = u :: us := by cases front <;> exact ⟨_, _, rfl⟩
  rw [List.cons_append, eq] at left
  obtain ⟨previous, left', steps⟩ := Cursor.advance_left left
  obtain ⟨c', run, result, added, grown, same⟩ := h c.advance (left'.trans eq.symm)
  refine ⟨c', ?_, result, added, steps ▸ grown, same⟩
  rw [← previous] at run
  exact run

theorem takes_advance {f : Unit → Parser β} (h : Takes (f ()) b front (t' :: rest) ds) :
    Takes (advance >>= f) b (t :: front) (t' :: rest) ds := takes_previous (f := fun _ => f ()) h

theorem takes_kind {f : TokenKind → Parser β} (first : front ++ behind = t :: rest) (h : Takes (f t.kind) b front behind ds) :
    Takes (currentKind >>= f) b front behind ds := by
  intro c left
  obtain ⟨c', run, result⟩ := h c left
  have here : c.current = t := (List.cons.inj (left.trans first)).1
  refine ⟨c', ?_, result⟩
  rw [← here] at run
  exact run

/-! ## Expressions -/

section Climb
variable {parse : Goal → Parser Unit} {level : Precedence}

theorem takes_climb (stops : Stops level t.kind)
    (start : Takes (advance >>= fun _ => prefixRule parse (decide (level.rank ≤ Precedence.assignment.rank))) () front (t :: rest) ds) :
    Takes (climb parse level) () front (t :: rest) ds := by
  intro c left
  obtain ⟨c', run, left', adds⟩ := start c left
  have current : c'.current = t := (List.cons.inj left').1
  exact ⟨c', climb_of_rounds run .none (current ▸ stops), left', adds⟩

/-- An operand and one operator behind it. -/
theorem takes_climb_round (stops : Stops level t.kind)
    (start : Takes (advance >>= fun _ => prefixRule parse (decide (level.rank ≤ Precedence.assignment.rank))) () front
      (t' :: front' ++ t :: rest) ds)
    (round : Takes (climbRound parse level (decide (level.rank ≤ Precedence.assignment.rank))) true (t' :: front') (t :: rest) ds') :
    Takes (climb parse level) () (front ++ t' :: front') (t :: rest) (ds ++ ds') := by
  intro c left
  obtain ⟨c₁, run, left₁, adds⟩ := start c (by rw [left, List.append_assoc])
  obtain ⟨c', run', left', adds'⟩ := round c₁ left₁
  have current : c'.current = t := (List.cons.inj left').1
  have less : c'.left.length < c₁.left.length := by
    rw [left', left₁]
    simp
  exact ⟨c', climb_of_rounds run (.snoc .none (parser_bind run' _) less) (current ▸ stops), left', adds.trans adds'⟩

/-- A name that nothing is assigned to. -/
theorem takes_name {canAssign : Bool} {x : Token} (name : x.kind = .identifier)
    (other : (canAssign && isAssignment t.kind) = false) :
    Takes (advance >>= fun _ => prefixRule parse canAssign) () [x] (t :: rest) [.load x.lexeme] := by
  refine takes_previous ?_
  rw [name]
  refine takes_kind (t := t) rfl ?_
  rw [other]
  exact takes_write _

theorem takes_acceptAssignment {f : Option Assignment → Parser β} {k : Token} {assignment : Assignment}
    (assigns : Assignment.ofKind? k.kind = some assignment) (h : Takes (f (some assignment)) b front (t :: rest) ds) :
    Takes (acceptAssignment >>= f) b (k :: front) (t :: rest) ds := by
  unfold acceptAssignment
  rw [bind_assoc]
  refine takes_kind (t := k) rfl ?_
  dsimp only
  rw [assigns, if_pos Option.isSome_some, bind_assoc]
  exact takes_advance h

theorem isAssignment_of_ofKind {k : TokenKind} {assignment : Assignment} (assigns : Assignment.ofKind? k = some assignment) :
    isAssignment k = true := by
  cases k <;> first | rfl | cases assigns

/-- A name and an assignment to it. -/
theorem takes_assignment {x k : Token} (name : x.kind = .identifier) (assigns : Assignment.ofKind? k.kind = some .plain)
    (value : Takes (expression parse) () front (t :: rest) ds) :
    Takes (advance >>= fun _ => prefixRule parse true) () (x :: k :: front) (t :: rest)
      (.resolve x.lexeme :: .checkStore x.lexeme :: (ds ++ [.store x.lexeme])) := by
  refine takes_previous ?_
  rw [name]
  refine takes_kind (t := k) rfl ?_
  rw [isAssignment_of_ofKind assigns]
  refine Takes.written (.resolve _) <| takes_acceptAssignment assigns <| Takes.written (.checkStore _) ?_
  exact value.last (takes_write _)

/-- A name and a compound assignment to it, which reads the old value first. -/
theorem takes_compound {x k : Token} {operation : Directive} (name : x.kind = .identifier)
    (assigns : Assignment.ofKind? k.kind = some (.compound operation))
    (value : Takes (expression parse) () front (t :: rest) ds) :
    Takes (advance >>= fun _ => prefixRule parse true) () (x :: k :: front) (t :: rest)
      (.resolve x.lexeme :: .checkStore x.lexeme :: .load x.lexeme :: (ds ++ [operation.unplaced, .store x.lexeme])) := by
  refine takes_previous ?_
  rw [name]
  refine takes_kind (t := k) rfl ?_
  rw [isAssignment_of_ofKind assigns]
  refine Takes.written (.resolve _) <| takes_acceptAssignment assigns <| Takes.written (.checkStore _) ?_
  exact Takes.written (.load _) <| value.last <| Takes.written _ (takes_write _)

theorem takes_expect {kind : TokenKind} {what : String} (here : t'.kind = kind) :
    Takes (expect kind what) () [t'] (t :: rest) [] := by
  intro c left
  obtain ⟨-, left', steps⟩ := Cursor.advance_left left
  exact ⟨c.advance, parser_bind (accept_hit left here) _, left', .refl steps⟩

/-- An operand in parentheses. -/
theorem takes_parentheses {canAssign : Bool} {o c : Token} (opens : o.kind = .openParen) (closes : c.kind = .closeParen)
    (h : Takes (expression parse) () front (c :: t :: rest) ds) :
    Takes (advance >>= fun _ => prefixRule parse canAssign) () (o :: (front ++ [c])) (t :: rest) ds := by
  refine takes_previous ?_
  rw [opens]
  have closed : Takes (expression parse >>= fun _ => expect .closeParen "')' after expression") () (front ++ [c]) (t :: rest)
      (ds ++ []) := Takes.bind h (takes_expect closes)
  rwa [List.append_nil] at closed

/-- An operator with two operands, and the second one. -/
theorem takes_operator {canAssign : Bool} {o : Token} {operation : Directive} (operator : binaryOperation o.kind = [operation])
    (strong : level.rank ≤ o.kind.infixLevel.rank)
    (operand : Takes (parse (.expression o.kind.infixLevel.next)) () front (t :: rest) ds) :
    Takes (climbRound parse level canAssign) true (o :: front) (t :: rest) (ds ++ [operation.unplaced]) := by
  unfold climbRound infixRule
  simp only [bind_assoc]
  refine takes_kind (t := o) rfl ?_
  rw [if_pos strong]
  refine takes_previous ?_
  have written : Takes (((binaryOperation o.kind).forM write) >>= fun _ => pure true) true [] (t :: rest) [operation.unplaced] := by
    rw [operator]
    exact Takes.written operation takes_pure
  split
  case h_6 =>
    rw [bind_assoc]
    exact operand.last written
  all_goals
    rename_i kind
    rw [kind] at operator
    cases operator

end Climb

end Takes

/-! ## Two forms of one assignment -/

/-- The grammar reads an expression up to the tokens behind it, and writes the steps. -/
def ReadsExpression (n : Nat) (c : Cursor) (behind : List Token) (steps : List Step) : Prop :=
  ∃ c', parseGoal n (.expression .assignment) c = .ok () c' ∧ c'.left = behind ∧ c'.steps.toList = c.steps.toList ++ steps

/-- Somewhere, ahead of other tokens, these are read as one expression. -/
def OneExpression (n : Nat) (tokens : List Token) : Prop :=
  ∃ c t t' rest steps, c.left = tokens ++ t :: t' :: rest ∧ ReadsExpression n c (t :: t' :: rest) steps

/-- They are wherever a token follows that ends an expression, and what is written is always the same. -/
theorem OneExpression.takes {n : Nat} {tokens : List Token} (h : OneExpression n tokens) :
    ∃ ds, ∀ m ≥ n, ∀ again t rest, again.map Token.content = tokens.map Token.content → Stops .assignment t.kind →
      Takes (parseGoal m (.expression .assignment)) () again (t :: rest) ds := by
  obtain ⟨c, u, u', rest', steps, left, c', run, left', grown⟩ := h
  refine ⟨steps.map (·.directive.unplaced), ?_⟩
  intro m le again t rest like stops d target
  let move : Move := { source := u :: u' :: rest', two := Nat.le_add_left 2 rest'.length, target := t, rest }
  have carries := carries_parseGoal move le (.expression .assignment) 0 fun _ => ⟨stops, by decide⟩
  obtain ⟨d', run', ⟨-, none, target', like'⟩, _, _, ⟨steps₀, grown₀, rfl⟩, ⟨steps', grown', rfl⟩, same⟩ :=
    carries.moves c d tokens [] () c' ⟨left, again, target, like⟩ run left' (Nat.zero_le _)
  obtain rfl := List.map_eq_nil_iff.mp like'
  obtain rfl := List.append_cancel_left (grown.symm.trans grown₀)
  rw [List.map_map, List.map_map] at same
  exact ⟨d', run', target', steps', grown', same⟩

/-- The operation of a compound assignment is the one of its operator, and the operator may stand in an expression. -/
theorem operator_spec {kind op : TokenKind} (compound : kind.operator? = some op) :
    ∃ operation, Assignment.ofKind? kind = some (.compound operation) ∧ binaryOperation op = [operation] ∧
      Precedence.assignment.rank ≤ op.infixLevel.rank ∧ Precedence.assignment.rank < op.infixLevel.next.rank ∧ isAssignment op = false := by
  cases kind <;> cases compound <;> exact ⟨_, rfl, rfl, by decide, by decide, rfl⟩

theorem takes_short {n : Nat} {x k t : Token} {E rest : List Token} {ds : List Directive} {operation : Directive}
    (name : x.kind = .identifier) (assigns : Assignment.ofKind? k.kind = some (.compound operation))
    (stops : Stops .assignment t.kind) (value : Takes (parseGoal n (.expression .assignment)) () E (t :: rest) ds) :
    Takes (parseGoal (n + 1) (.expression .assignment)) () (x :: k :: E) (t :: rest)
      (.resolve x.lexeme :: .checkStore x.lexeme :: .load x.lexeme :: (ds ++ [operation.unplaced, .store x.lexeme])) :=
  takes_climb stops (takes_compound name assigns value)

theorem takes_long {n : Nat} {x e x' o p c t : Token} {E rest : List Token} {ds : List Directive} {operation : Directive}
    (name : x.kind = .identifier) (assigns : e.kind = .equal) (name' : x'.kind = .identifier)
    (operator : binaryOperation o.kind = [operation]) (strong : Precedence.assignment.rank ≤ o.kind.infixLevel.rank)
    (proper : Precedence.assignment.rank < o.kind.infixLevel.next.rank) (other : isAssignment o.kind = false)
    (opens : p.kind = .openParen) (closes : c.kind = .closeParen)
    (stops : Stops .assignment t.kind) (value : Takes (parseGoal n (.expression .assignment)) () E (c :: t :: rest) ds) :
    Takes (parseGoal (n + 3) (.expression .assignment)) () (x :: e :: x' :: o :: p :: (E ++ [c])) (t :: rest)
      (.resolve x.lexeme :: .checkStore x.lexeme :: .load x'.lexeme :: (ds ++ [operation.unplaced, .store x.lexeme])) := by
  have tight : Stops o.kind.infixLevel.next t.kind :=
    ⟨stops.1.trans proper, fun loose => absurd loose (Nat.not_le_of_lt proper)⟩
  have operand : Takes (parseGoal (n + 1) (.expression o.kind.infixLevel.next)) () (p :: (E ++ [c])) (t :: rest) ds :=
    takes_climb tight (takes_parentheses opens closes value)
  have sum : Takes (expression (parseGoal (n + 2))) () ([x'] ++ o :: p :: (E ++ [c])) (t :: rest)
      ([.load x'.lexeme] ++ (ds ++ [operation.unplaced])) :=
    takes_climb_round stops (takes_name name' (by rw [other, Bool.and_false])) (takes_operator operator strong operand)
  have assignment : Takes (parseGoal (n + 3) (.expression .assignment)) () _ _ _ :=
    takes_climb stops (takes_assignment name (by rw [assigns]; rfl) sum)
  simpa using assignment

theorem Takes.readsExpression {n : Nat} {front behind : List Token} {ds : List Directive} {c : Cursor}
    (h : Takes (parseGoal n (.expression .assignment)) () front behind ds) (left : c.left = front ++ behind) :
    ∃ steps, ReadsExpression n c behind steps ∧ steps.map (·.directive.unplaced) = ds := by
  obtain ⟨c', run, left', steps, grown, same⟩ := h c left
  exact ⟨steps, ⟨c', run, left', grown⟩, same⟩

end Grammar

open Grammar Assembler

/-- `x op= E` and `x = x op (E)` mean the same. Let the tokens `E` be an expression, which stands in both forms, at
other places each. Wherever a token follows that ends an expression, and there is room to nest as deep, both forms are
read as expressions. From assemblies that differ in lines only, what they write comes to the same code, constants,
labels and captures, or to the same fault. -/
theorem compound_assignment_expands {x : String} {kind op : TokenKind} (compound : kind.operator? = some op)
    {n : Nat} {E E₁ E₂ : List Token} (one : OneExpression n E)
    (like₁ : E₁.map Token.content = E.map Token.content) (like₂ : E₂.map Token.content = E.map Token.content)
    {c₁ c₂ : Cursor} {close t₁ t₂ : Token} {rest₁ rest₂ : List Token} (closes : close.kind = .closeParen)
    (short : Spells [.identifier x, .fixed kind] (E₁ ++ t₁ :: rest₁) c₁.left)
    (long : Spells [.identifier x, .fixed .equal, .identifier x, .fixed op, .fixed .openParen]
      (E₂ ++ close :: t₂ :: rest₂) c₂.left)
    (stops₁ : Stops .assignment t₁.kind) (stops₂ : Stops .assignment t₂.kind) {m₁ m₂ : Nat} (room₁ : n + 1 ≤ m₁)
    (room₂ : n + 3 ≤ m₂) {a₁ a₂ : Assembler} (same : a₁.unlined = a₂.unlined) :
    ∃ steps₁ steps₂, ReadsExpression m₁ c₁ (t₁ :: rest₁) steps₁ ∧ ReadsExpression m₂ c₂ (t₂ :: rest₂) steps₂ ∧
      unlinedOutcome (performAll steps₁ a₁) = unlinedOutcome (performAll steps₂ a₂) := by
  obtain ⟨operation, assigns, operator, strong, proper, other⟩ := operator_spec compound
  obtain ⟨ds, takes⟩ := one.takes
  obtain ⟨m₁, rfl⟩ := Nat.exists_eq_add_of_le' (Nat.le_of_add_left_le room₁)
  obtain ⟨m₂, rfl⟩ := Nat.exists_eq_add_of_le' (Nat.le_of_add_left_le room₂)
  simp only [spells_cons, spells_nil] at short long
  obtain ⟨u, _, left₁, ⟨name, rfl⟩, k, _, rfl, here, rfl⟩ := short
  obtain ⟨v, _, left₂, ⟨name', same'⟩, e, _, rfl, equal, v', _, rfl, ⟨name'', same''⟩, o, _, rfl, op', p, _, rfl, opens, rfl⟩ := long
  cases (here : k.kind = kind)
  cases (op' : o.kind = op)
  have first := takes_short name assigns stops₁ (takes m₁ (Nat.le_of_add_le_add_right room₁) E₁ t₁ rest₁ like₁ stops₁)
  have second := takes_long name' equal name'' operator strong proper other opens closes stops₂
    (takes m₂ (Nat.le_of_add_le_add_right room₂) E₂ close (t₂ :: rest₂) like₂ (stops_of_none (by rw [closes]; rfl) (by rw [closes]; rfl) (by decide)))
  obtain ⟨steps₁, reads₁, wrote₁⟩ := first.readsExpression left₁
  obtain ⟨steps₂, reads₂, wrote₂⟩ := second.readsExpression (by rw [left₂]; simp)
  refine ⟨steps₁, steps₂, reads₁, reads₂, same_performAll ?_ a₁ a₂ same⟩
  rw [wrote₁, wrote₂, same', same'']

/-- The tokens of `x += y = 2;`. -/
def shortForm : List Token :=
  [⟨.identifier, "x", .none, 1, 1, 0⟩, ⟨.plusEqual, "+=", .none, 1, 3, 2⟩, ⟨.identifier, "y", .none, 1, 6, 5⟩,
    ⟨.equal, "=", .none, 1, 8, 7⟩, ⟨.number, "2", .number (.ofNat 2), 1, 10, 9⟩, ⟨.semicolon, ";", .none, 1, 11, 10⟩,
    .endOfInput 1 12 11]

/-- The tokens of `x = x + (y = 2);`, over two lines. -/
def longForm : List Token :=
  [⟨.identifier, "x", .none, 1, 1, 0⟩, ⟨.equal, "=", .none, 1, 3, 2⟩, ⟨.identifier, "x", .none, 1, 5, 4⟩,
    ⟨.plus, "+", .none, 1, 7, 6⟩, ⟨.openParen, "(", .none, 2, 1, 8⟩, ⟨.identifier, "y", .none, 2, 2, 9⟩,
    ⟨.equal, "=", .none, 2, 4, 11⟩, ⟨.number, "2", .number (.ofNat 2), 2, 6, 13⟩, ⟨.closeParen, ")", .none, 2, 7, 14⟩,
    ⟨.semicolon, ";", .none, 2, 8, 15⟩, .endOfInput 2 9 16]

/-- The value is an assignment itself, and the long form goes over two lines. -/
theorem compound_assignment_expands_nested :
    ∃ steps₁ steps₂, ReadsExpression 3 (.ofTokens shortForm) (shortForm.drop 5) steps₁ ∧
      ReadsExpression 5 (.ofTokens longForm) (longForm.drop 9) steps₂ ∧
      unlinedOutcome (performAll steps₁ (start "sums")) = unlinedOutcome (performAll steps₂ (start "sums")) := by
  have one : OneExpression 2 ((shortForm.drop 2).take 3) :=
    ⟨.ofTokens (shortForm.drop 2), _, _, [], _, rfl, _, rfl, rfl, rfl⟩
  have short : Spells [.identifier "x", .fixed .plusEqual] ((shortForm.drop 2).take 3 ++ shortForm.drop 5)
      (Cursor.ofTokens shortForm).left :=
    ⟨shortForm.take 2, by unfold Written; simp [shortForm, Shape.Of], rfl⟩
  have long : Spells [.identifier "x", .fixed .equal, .identifier "x", .fixed .plus, .fixed .openParen]
      ((longForm.drop 5).take 3 ++ longForm.drop 8) (Cursor.ofTokens longForm).left :=
    ⟨longForm.take 5, by unfold Written; simp [longForm, Shape.Of], rfl⟩
  have ends : Stops .assignment .semicolon := stops_of_none rfl rfl (by decide)
  exact compound_assignment_expands rfl one (by rfl) (by rfl) rfl short long ends ends (by decide) (by decide) rfl

end ScriptEngine
