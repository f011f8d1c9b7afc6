import ScriptEngine.Proofs.MovingExpressions

/-!
# Statements that are moved

A statement is read with some of the tokens that are moved behind it, the closing brace of
a function for one. Only a return looks for what is further ahead than the next two tokens:
for a comma that makes a tuple of the value. It looks as far as a semicolon, and the one
that ends the return is among the tokens that are moved.
-/
namespace ScriptEngine.Grammar

section
variable {m : Move} {parse parse' : Goal → Parser Unit} {n : Nat} {q : Unit → Prop}

/-! ## Functions -/

theorem carries_parameters : m.Carries q n parameters parameters := by
  have close : m.Carries (fun _ => True) n (expect .closeParen "')' after parameters")
      (expect .closeParen "')' after parameters") := carries_expect
  unfold parameters
  refine Move.Carries.any (carries_check (fun b => ?_) fun _ _ => trivial)
  dsimp only
  split
  · exact close
  refine (carries_repeatFrom fun count => ?_).then fun _ => close
  split
  · exact carries_failed fun _ _ _ => nofun
  refine carries_expectName.eaten fun name => (carries_write _).next fun _ => ?_
  exact carries_accepts.next fun _ => carries_pure id

theorem carries_resultNames : m.Carries (fun _ => False) (n + 1) resultNames resultNames := by
  refine carries_accept ?_ (carries_pure id) nofun
  refine (carries_commaSeparated ?_).then fun _ => carries_expect
  exact carries_expectName.eaten fun name => carries_write _

theorem carries_modifiers (start : Modifiers) :
    m.Carries (fun _ => False) (n + 1) (modifiers start) (modifiers start) :=
  carries_repeatFrom fun _ => carries_accept (carries_pure id)
    (carries_accept (carries_pure id) (carries_pure Bool.false_ne_true) nofun) nofun

variable (goals : m.Goals parse parse')
include goals

theorem carries_block : m.Carries q n (block parse) (block parse') := by
  refine (carries_repeatFrom fun noted => ?_).then fun _ => carries_expect
  refine carries_kind (fun leading => ?_) nofun
  split
  · exact carries_pure Bool.false_ne_true
  refine (goals .declaration (n + 1) n.succ_pos).eaten fun _ => ?_
  split
  · rename_i keyword _
    have note (t t' : Token) : m.Carries (fun _ => False) (n + 1) (write (.unreachable keyword t.line))
        (write (.unreachable keyword t'.line)) := carries_writeAlike rfl
    refine carries_check (fun last => ?_) nofun
    split
    · exact carries_pure id
    · exact carries_current (fun t t' _ => (note t t').next fun _ => carries_pure id) nofun
  · exact carries_pure id

theorem carries_function (kind : FunctionKind) (name : String) (modifiers : Modifiers) (fields : List String) :
    m.Carries q n (function parse kind name modifiers fields) (function parse' kind name modifiers fields) := by
  refine (carries_write _).next fun _ => carries_expect.eaten fun _ => carries_parameters.eaten fun _ => ?_
  refine carries_resultNames.then fun _ => ?_
  have body : m.Carries (fun _ => True) n (do
      expect .openBrace "'\x7b' before function body"
      block parse
      write .endFunction) (do
      expect .openBrace "'\x7b' before function body"
      block parse'
      write .endFunction) :=
    carries_expect.eaten fun _ => (carries_block goals).eaten fun _ => carries_write _
  dsimp only
  split
  · exact (carries_write _).next fun _ => body
  · exact body

/-! ## Simple statements -/

theorem carries_expressionStatement : m.Carries q n (expressionStatement parse) (expressionStatement parse') :=
  (carries_expression goals).then fun _ => carries_expect.eaten fun _ => carries_write _

theorem carries_valueStatement (what : String) (d : Directive) :
    m.Carries q n (valueStatement parse what d) (valueStatement parse' what d) :=
  (carries_expression goals).then fun _ => carries_expect.eaten fun _ => carries_write _

theorem carries_initializer : m.Carries (fun _ => False) (n + 1) (initializer parse) (initializer parse') :=
  carries_accept (carries_expression goals) (carries_write _) nofun

theorem carries_multiVariables : m.Carries q (n + 1) (multiVariables parse) (multiVariables parse') := by
  refine (carries_repeatFrom fun names => ?_).then fun names => ?_
  · exact carries_expectName.eaten fun name => carries_accepts.next fun _ => carries_pure id
  dsimp only
  split
  · exact carries_failed fun _ _ _ run => by cases run
  refine carries_expect.eaten fun _ => carries_expect.eaten fun _ =>
    carries_kind (fun first => ?_) fun none => absurd none n.succ_ne_zero
  refine carries_secondKind.then fun second => ?_
  split
  · exact carries_failed fun _ _ _ run => by cases run
  refine (carries_write _).next fun _ => (carries_expression goals).eaten fun _ => ?_
  refine (carries_write _).next fun _ => (carries_write _).next fun _ => (carries_write _).next fun _ => ?_
  exact carries_expect.eaten fun _ => carries_write _

theorem carries_varStatement : m.Carries q (n + 1) (varStatement parse) (varStatement parse') := by
  refine carries_accept (carries_multiVariables goals) ?_ nofun
  refine (carries_commaSeparated ?_).then fun _ => carries_expect
  refine carries_expectName.eaten fun name => (carries_write _).next fun _ => ?_
  exact (carries_initializer goals).next fun _ => carries_write _

theorem carries_throwStatement : m.Carries q (n + 1) (throwStatement parse) (throwStatement parse') := by
  refine (carries_write _).next fun _ => carries_optional ?_ ?_
  · exact (carries_write _).next fun _ => carries_write _
  · exact (carries_expression goals).then fun _ => carries_expect.eaten fun _ => carries_write _

theorem carries_registerStatement : m.Carries q n (registerStatement parse) (registerStatement parse') := by
  refine carries_expectName.eaten fun name => (carries_write _).next fun _ => ?_
  exact (carries_expression goals).then fun _ => carries_expect.eaten fun _ => carries_write _

theorem carries_values : m.Carries (fun _ => False) (n + 1)
    (repeatFrom 0 fun (count : Nat) => do
      expression parse
      return (count + 1, ← accept .comma))
    (repeatFrom 0 fun (count : Nat) => do
      expression parse'
      return (count + 1, ← accept .comma)) :=
  carries_repeatFrom fun _ => (carries_expression goals).eaten fun _ => carries_accepts.next fun _ => carries_pure id

theorem carries_returnTuple : m.Carries q n (returnTuple parse) (returnTuple parse') := by
  refine carries_advance <| (carries_values goals).then fun count => ?_
  dsimp only
  split
  · exact carries_failed fun _ _ _ run => by cases run
  · exact carries_expect.eaten fun _ => carries_expect.eaten fun _ => carries_write _

omit goals in
/-- The scan for a tuple does not look behind a semicolon. -/
theorem tupleAhead_append (depth : Nat) {before before' : List Token} {t t' : Token}
    (like : (before' ++ [t']).map Token.content = (before ++ [t]).map Token.content) (ends : t.kind = .semicolon)
    (rest rest' : List Token) : tupleAhead depth (before' ++ t' :: rest') = tupleAhead depth (before ++ t :: rest) := by
  induction before generalizing depth before' with
  | nil =>
    cases before' with
    | nil =>
      have kind : t'.kind = .semicolon := (Token.kind_eq (List.cons.inj like).1).trans ends
      simp only [List.nil_append, tupleAhead, ends, kind]
    | cons s' before' => simp at like
  | cons s before ih =>
    cases before' with
    | nil => simp at like
    | cons s' before' =>
      obtain ⟨same, like⟩ := List.cons.inj like
      simp only [List.cons_append, tupleAhead, Token.kind_eq same]
      split <;> simp only [ih _ like]

omit goals in
/-- The token that is read last is a semicolon. -/
def ReadsSemicolon {α : Type} (x : Parser α) : Prop :=
  ∀ c a c', x c = .ok a c' → 2 ≤ c'.left.length → ∃ before t, c.left = before ++ t :: c'.left ∧ t.kind = .semicolon

omit goals in
theorem readsSemicolon_expect {what : String} {d : Directive} :
    ReadsSemicolon (expect .semicolon what >>= fun _ => write d) := by
  intro c a c' run two
  obtain ⟨_, c₁, read, wrote⟩ := parser_bind_ok run
  cases wrote
  unfold expect at read
  rw [accept_bind] at read
  change (if c.current.kind = .semicolon then advance >>= fun _ => pure () else failHere (.expected what)) c = _ at read
  split at read
  · rename_i here
    cases read
    rcases c.left_advance with ⟨t, ts, eq, -, rest⟩ | ⟨single, same⟩
    · have current : c.current = t := (List.cons.inj eq).1
      exact ⟨[], t, by rw [List.nil_append, eq]; exact congrArg (t :: ·) rest.symm, current ▸ here⟩
    · change 2 ≤ c.advance.left.length at two
      rw [same, single] at two
      exact absurd two (Nat.not_succ_le_self 1)
  · cases read

omit goals in
theorem readsSemicolon_bind {α β : Type} {x : Parser α} {f : α → Parser β}
    (reads : ∀ c a c', x c = .ok a c' → c'.left <:+ c.left) (h : ∀ a, ReadsSemicolon (f a)) : ReadsSemicolon (x >>= f) := by
  intro c b c' run two
  obtain ⟨a, c₁, first, second⟩ := parser_bind_ok run
  obtain ⟨more, eq⟩ := reads c a c₁ first
  obtain ⟨before, t, eq', here⟩ := h a c₁ b c' second two
  exact ⟨more ++ before, t, by rw [← eq, eq', List.append_assoc], here⟩

omit goals in
/-- The scan for a tuple comes to the same result in both places, since the return ends at a semicolon. -/
theorem carries_tupleAhead {f g : Bool → Parser Unit} (h : ∀ b, m.Carries q n (f b) (g b)) (ends : ∀ b, ReadsSemicolon (f b)) :
    m.Carries q n (get >>= fun c => f (c.current.kind = .openParen && tupleAhead 0 (c.current :: c.ahead)))
      (get >>= fun c => g (c.current.kind = .openParen && tupleAhead 0 (c.current :: c.ahead))) where
  reads c b c' run := (h _).reads c b c' run
  moves c d moved left b c' ahead run ended more := by
    have two : 2 ≤ c'.left.length := by
      rw [ended, List.length_append]
      exact m.two.trans (Nat.le_add_left _ _)
    obtain ⟨before, t, eq, here⟩ := ends _ c b c' run two
    rw [ended, ← List.singleton_append, ← List.append_assoc, ← List.append_assoc] at eq
    obtain rfl := ahead.eq eq
    have ⟨source, moved', target, like⟩ := ahead
    rw [List.map_append] at like
    obtain ⟨us, left', rfl, like, -⟩ := List.map_eq_append_iff.mp like
    obtain ⟨before', t', rfl⟩ : ∃ before' t', us = before' ++ [t'] := by
      refine (List.eq_nil_or_concat' us).resolve_left fun none => ?_
      simp [none] at like
    have scan : tupleAhead 0 d.left = tupleAhead 0 c.left := by
      rw [source, target, List.append_assoc, List.append_assoc, List.append_assoc, List.append_assoc]
      exact tupleAhead_append 0 like here _ _
    have current : d.current.kind = c.current.kind := by
      cases before with
      | nil => exact (Token.kind_eq ahead.cons.2.1).trans (congrArg Token.kind ahead.cons.1.symm)
      | cons s before => exact (Token.kind_eq ahead.cons.2.1).trans (congrArg Token.kind ahead.cons.1.symm)
    change ∃ d', g (d.current.kind = .openParen && tupleAhead 0 d.left) d = _ ∧ _
    rw [scan, current]
    exact (h _).moves c d _ left b c' ahead run ended more

theorem carries_returnStatement : m.Carries q n (returnStatement parse) (returnStatement parse') := by
  refine (carries_write _).next fun _ => carries_optional (carries_write _) <| (carries_write _).next fun _ => ?_
  refine carries_tupleAhead (f := fun tuple => if tuple then returnTuple parse else do
    expression parse
    expect .semicolon "';' after return value"
    write (.plain (.ret 1))) (g := fun tuple => if tuple then returnTuple parse' else do
    expression parse'
    expect .semicolon "';' after return value"
    write (.plain (.ret 1))) (fun tuple => ?_) fun tuple => ?_
  · split
    · exact carries_returnTuple goals
    · exact (carries_expression goals).then fun _ => carries_expect.eaten fun _ => carries_write _
  · split
    · refine readsSemicolon_bind (fun c _ _ run => ?_) fun _ => readsSemicolon_bind (carries_values goals (n := 0)).shrinks fun count => ?_
      · cases run
        exact (reads_advance c).1
      dsimp only
      split
      · exact fun c a c' run => by cases run
      · exact readsSemicolon_bind (carries_expect : m.Carries (fun _ => False) 0 _ _).shrinks fun _ => readsSemicolon_expect
    · exact readsSemicolon_bind (carries_expression goals (q := fun _ => False) (n := 0)).shrinks fun _ => readsSemicolon_expect

/-! ## Control -/

theorem carries_condition (keyword : String) : m.Carries q n (condition parse keyword) (condition parse' keyword) :=
  carries_expect.eaten fun _ => ((carries_expression goals).then fun _ => carries_expect).any

theorem carries_substatement : m.Carries q (n + 1) (parse .statement) (parse' .statement) :=
  (goals .statement (n + 1) n.succ_pos).any

theorem carries_ifStatement : m.Carries q (n + 1) (ifStatement parse) (ifStatement parse') := by
  refine (carries_condition goals _).eaten fun _ => (carries_write _).next fun _ => ?_
  refine (carries_substatement goals).next fun _ => (carries_write _).next fun _ => ?_
  exact carries_accept ((carries_substatement goals).next fun _ => carries_write _) (carries_write _) nofun

theorem carries_whileStatement : m.Carries q (n + 1) (whileStatement parse) (whileStatement parse') := by
  refine (carries_write _).next fun _ => (carries_condition goals _).eaten fun _ => (carries_write _).next fun _ => ?_
  exact (carries_substatement goals).next fun _ => carries_write _

theorem carries_loopStatement : m.Carries q (n + 1) (loopStatement parse) (loopStatement parse') :=
  (carries_write _).next fun _ => (carries_substatement goals).eaten fun _ => carries_write _

omit goals in
theorem carries_jumpStatement (keyword : String) (jump : Directive) :
    m.Carries q n (jumpStatement keyword jump) (jumpStatement keyword jump) :=
  (carries_write _).next fun _ => carries_expect.eaten fun _ => carries_write _

omit goals in
/-- A `for` behind its clauses. -/
def forBody (parse : Goal → Parser Unit) : Parser Unit := do
  write .forBody
  parse .statement
  write .forEnd
  write .endScope

omit goals in
/-- A `for` behind its condition. -/
def forStep (parse : Goal → Parser Unit) : Parser Unit := do
  unless ← accept .closeParen do
    write .forStep
    expression parse
    write .forStepEnd
    expect .closeParen "')' after for clauses"
  forBody parse

omit goals in
/-- A `for` behind its first clause. -/
def forCondition (parse : Goal → Parser Unit) : Parser Unit := do
  write .forStart
  unless ← accept .semicolon do
    expression parse
    expect .semicolon "';' after loop condition"
    write .forCondition
  forStep parse

omit goals in
theorem forStatement_eq (parse : Goal → Parser Unit) : forStatement parse = (do
    write .beginScope
    expect .openParen "'(' after 'for'"
    if ← accept .semicolon then
      forCondition parse
    else if ← accept .varWord then
      varStatement parse
      forCondition parse
    else
      expressionStatement parse
      forCondition parse) := rfl

theorem carries_forBody : m.Carries q (n + 1) (forBody parse) (forBody parse') := by
  refine (carries_write _).next fun _ => (carries_substatement goals).eaten fun _ => ?_
  exact (carries_write _).next fun _ => carries_write _

theorem carries_forStep : m.Carries q (n + 1) (forStep parse) (forStep parse') := by
  refine carries_optional (carries_forBody goals) <| (carries_write _).next fun _ => ?_
  refine (carries_expression goals).eaten fun _ => (carries_write _).next fun _ => ?_
  exact carries_expect.eaten fun _ => carries_forBody goals

theorem carries_forCondition : m.Carries q (n + 1) (forCondition parse) (forCondition parse') := by
  refine (carries_write _).next fun _ => carries_optional (carries_forStep goals) ?_
  refine (carries_expression goals).eaten fun _ => carries_expect.eaten fun _ => ?_
  exact (carries_write _).next fun _ => carries_forStep goals

theorem carries_forStatement : m.Carries q (n + 1) (forStatement parse) (forStatement parse') := by
  rw [forStatement_eq, forStatement_eq]
  refine (carries_write _).next fun _ => carries_expect.eaten fun _ => ?_
  refine carries_accept (carries_forCondition goals) ?_ nofun
  refine carries_accept ?_ ?_ nofun
  · exact (carries_varStatement goals).eaten fun _ => carries_forCondition goals
  · exact (carries_expressionStatement goals).eaten fun _ => carries_forCondition goals

/-- The rules of the statements that begin with the same keyword. -/
theorem carries_statementRule (kind : TokenKind) :
    Option.Rel (fun x y => m.Carries (fun _ => True) (n + 1) (advance >>= fun _ => x) (advance >>= fun _ => y))
      (statementRule? parse kind) (statementRule? parse' kind) := by
  cases kind with
  | openBrace =>
    exact .some <| carries_advance <| (carries_write _).next fun _ => (carries_block goals).eaten fun _ => carries_write _
  | ifWord => exact .some (carries_advance (carries_ifStatement goals))
  | whileWord => exact .some (carries_advance (carries_whileStatement goals))
  | forWord => exact .some (carries_advance (carries_forStatement goals))
  | loopWord => exact .some (carries_advance (carries_loopStatement goals))
  | breakWord => exact .some (carries_advance (carries_jumpStatement _ _))
  | continueWord => exact .some (carries_advance (carries_jumpStatement _ _))
  | returnWord => exact .some (carries_advance (carries_returnStatement goals))
  | throwWord => exact .some (carries_advance (carries_throwStatement goals))
  | yieldWord => exact .some (carries_advance (carries_expect.eaten fun _ => carries_write _))
  | freezeWord => exact .some (carries_advance (carries_valueStatement goals _ _))
  | readonlyWord => exact .some (carries_advance (carries_valueStatement goals _ _))
  | buildWord => exact .some (carries_advance (carries_valueStatement goals _ _))
  | registerWord => exact .some (carries_advance (carries_registerStatement goals))
  | _ => exact .none

omit goals in
/-- A rule that a keyword chooses, or what is read without one. -/
theorem carries_rule {rule rule' : TokenKind → Option (Parser Unit)} {x y : Parser Unit}
    (rules : ∀ kind, Option.Rel (fun x y => m.Carries (fun _ => True) (n + 1) (advance >>= fun _ => x) (advance >>= fun _ => y))
      (rule kind) (rule' kind)) (others : m.Carries (fun _ => True) (n + 1) x y) :
    m.Carries (fun _ => True) (n + 1)
      (currentKind >>= fun kind => match rule kind with
        | some r => advance >>= fun _ => r
        | none => x)
      (currentKind >>= fun kind => match rule' kind with
        | some r => advance >>= fun _ => r
        | none => y) := by
  refine carries_kind (fun kind => ?_) nofun
  have same := rules kind
  generalize rule kind = r at same
  generalize rule' kind = r' at same
  cases same with
  | some h => exact h
  | none => exact others

theorem carries_statement : m.Carries (fun _ => True) (n + 1) (statement parse) (statement parse') :=
  carries_rule (carries_statementRule goals) (carries_expressionStatement goals)

end

end ScriptEngine.Grammar
