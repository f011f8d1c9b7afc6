import ScriptEngine.Proofs.MovingStatements

/-!
# What is read does not depend on where it stands

Types, and the declarations that may stand in a function. With them every goal of the
grammar is carried from one place to another, if it may nest as deep there.
-/
namespace ScriptEngine.Grammar

section
variable {m : Move} {parse parse' : Goal → Parser Unit} {n : Nat} {q : Unit → Prop} {b : TypeBody}

/-! ## Types -/

theorem carries_closeInitChain : m.Carries (fun _ => False) n (closeInitChain b) (closeInitChain b) := by
  unfold closeInitChain
  split
  · exact (carries_write _).next fun _ => carries_pure id
  · exact carries_pure id

theorem carries_enterStage (stage : Grammar.Stage) :
    m.Carries (fun _ => False) n (enterStage b stage) (enterStage b stage) := by
  unfold enterStage
  dsimp only
  split
  swap
  · exact carries_failed fun _ _ _ => nofun
  split
  · exact carries_failed fun _ _ _ => nofun
  have enter (b : TypeBody) : m.Carries (fun _ => False) n (do
      let mut b := b
      if stage = .var ∧ b.stage ≠ .var then
        write .beginInitChain
        b := { b with chainOpen := true }
      return { b with stage := stage }) (do
      let mut b := b
      if stage = .var ∧ b.stage ≠ .var then
        write .beginInitChain
        b := { b with chainOpen := true }
      return { b with stage := stage }) := by
    dsimp only
    split
    · exact (carries_write _).next fun _ => carries_pure id
    · exact carries_pure id
  split
  · exact carries_closeInitChain.next enter
  · exact enter b

theorem carries_elementStage (policy : StagePolicy) :
    m.Carries (fun _ => False) (n + 2) (elementStage policy) (elementStage policy) := by
  refine carries_kind (fun kind => ?_) nofun
  split
  case h_8 =>
    refine carries_secondKind.next fun second => ?_
    split <;> exact carries_pure id
  case h_9 => exact carries_failHere
  all_goals exact carries_pure id

/-- The number that a token of this content is, with a sign. -/
def signed? (sign : Int) : TokenKind × String × Literal → Option Number
  | (.number, _, .number n) => some (Number.mul (.ofInt sign) n)
  | _ => none

theorem signed?_content (sign : Int) (t : Token) : signed? sign t.content =
    match t.kind, t.literal with
    | .number, .number n => some (Number.mul (.ofInt sign) n)
    | _, _ => none := by
  unfold signed? Token.content
  split
  · rename_i eq
    obtain ⟨kind, rest⟩ := Prod.mk.inj eq
    rw [kind, (Prod.mk.inj rest).2]
  · rename_i other
    split
    · rename_i kind literal
      exact (other t.lexeme _ (by rw [kind, literal])).elim
    · rfl

theorem leadingNumber_eq (c : Cursor) : leadingNumber? c = .ok (if c.current.kind = .minus then
    (c.ahead.head?.map Token.content).bind (signed? (-1)) else signed? 1 c.current.content) c := by
  have value : leadingNumber? c = (if c.current.kind = .minus then pure _ else pure _ : Parser (Option Number)) c := rfl
  rw [value]
  split
  · simp only [Option.bind_map, Function.comp_def, signed?_content]
    rfl
  · rw [signed?_content]
    rfl

theorem carries_leadingNumber : m.Carries (fun _ => False) (n + 2) leadingNumber? leadingNumber? := by
  refine carries_looks fun c d a c' here second run => ?_
  rw [leadingNumber_eq] at run ⊢
  cases run
  exact ⟨rfl, by rw [Token.kind_eq here, here, second]⟩

variable (goals : m.Goals parse parse')
include goals

theorem carries_goalFunction (kind : FunctionKind) (name : String) (modifiers : Modifiers) (fields : List String) :
    m.Carries q n (parse (.function kind name modifiers fields)) (parse' (.function kind name modifiers fields)) :=
  (goals (.function kind name modifiers fields) n trivial).any

theorem carries_staticElement : m.Carries q (n + 1) (staticElement parse) (staticElement parse') := by
  refine carries_advance <| carries_accept ?_ ?_ nofun
  · refine (carries_commaSeparated ?_).then fun _ => carries_expect
    refine carries_expectName.eaten fun name => (carries_write _).next fun _ => ?_
    exact (carries_initializer goals).next fun _ => carries_write _
  · refine (carries_modifiers _).next fun m => carries_expectName.eaten fun name => (carries_write _).next fun _ => ?_
    exact (carries_goalFunction goals _ _ _ _).eaten fun _ => carries_write _

omit goals in
theorem carries_typeList (what after : String) (use : Directive) :
    m.Carries q n (typeList what after use) (typeList what after use) := by
  refine carries_advance <| (carries_commaSeparated ?_).then fun _ => carries_expect
  exact carries_expectName.eaten fun name => (carries_write _).next fun _ => carries_write _

theorem carries_enumValueElement {q : TypeBody → Prop} :
    m.Carries q (n + 1) (enumValueElement parse b) (enumValueElement parse' b) := by
  have entry (name : String) (b' : TypeBody) : m.Carries (fun _ => False) (n + 1) (do
      write (.enumValue name)
      unless ← accept .comma do
        let _ ← accept .semicolon
      return b') (do
      write (.enumValue name)
      unless ← accept .comma do
        let _ ← accept .semicolon
      return b') := by
    refine (carries_write _).next fun _ => carries_accept (carries_pure id) ?_ nofun
    exact carries_accepts.next fun _ => carries_pure id
  refine carries_expectName.eaten fun name => (carries_write _).next fun _ => carries_accept ?_ ?_ nofun
  · refine carries_leadingNumber.then fun given => ?_
    dsimp only
    split
    · exact (carries_expression goals).eaten fun _ => entry name _
    · exact (carries_expression goals).eaten fun _ => entry name _
  · exact (carries_write _).next fun _ => entry name _

theorem carries_varElement {q : TypeBody → Prop} : m.Carries q n (varElement parse b) (varElement parse' b) := by
  refine carries_advance <| (carries_repeatFrom fun b => ?_).then fun b => carries_expect.eaten fun _ => carries_pure id
  refine carries_expectName.eaten fun name => ?_
  dsimp only
  split
  · exact carries_failed fun _ _ _ => nofun
  refine (carries_write _).next fun _ => (carries_write _).next fun _ => (carries_initializer goals).next fun _ => ?_
  exact (carries_write _).next fun _ => carries_accepts.next fun _ => carries_pure id

theorem carries_initElement {q : TypeBody → Prop} : m.Carries q n (initElement parse b) (initElement parse' b) := by
  refine carries_advance ?_
  dsimp only
  split
  · exact carries_failed fun _ _ _ => nofun
  refine (carries_write _).next fun _ => (carries_goalFunction goals _ _ _ _).eaten fun _ => ?_
  exact (carries_write _).next fun _ => carries_pure id

theorem carries_methodElement : m.Carries q n (methodElement parse) (methodElement parse') := by
  refine (carries_modifiers _).then fun m => carries_expectName.eaten fun name => (carries_write _).next fun _ => ?_
  exact (carries_goalFunction goals _ _ _ _).eaten fun _ => carries_write _

theorem carries_typeElement {q : TypeBody → Prop} :
    m.Carries q (n + 1) (typeElement parse b) (typeElement parse' b) := by
  refine (carries_elementStage _).then fun stage => (carries_enterStage stage).next fun b => ?_
  cases stage with
  | static => exact (carries_staticElement goals).eaten fun _ => carries_pure id
  | mixin => exact (carries_typeList _ _ _).eaten fun _ => carries_pure id
  | signs => exact (carries_typeList _ _ _).eaten fun _ => carries_pure id
  | enumValue => exact carries_enumValueElement goals
  | var => exact carries_varElement goals
  | init => exact carries_initElement goals
  | begin => exact (carries_methodElement goals).eaten fun _ => carries_pure id
  | method => exact (carries_methodElement goals).eaten fun _ => carries_pure id

omit goals in
theorem carries_supertype (name : String) (kind : TypeKind) :
    m.Carries (fun _ => False) (n + 1) (supertype name kind) (supertype name kind) := by
  refine carries_accept ?_ (carries_pure id) nofun
  rw [if_pos rfl]
  dsimp only
  split
  · exact carries_failed fun _ _ _ => nofun
  refine carries_expectName.eaten fun parent => ?_
  split
  · exact carries_failed fun _ _ _ => nofun
  · exact carries_write _

theorem carries_typeDeclaration (policy : StagePolicy) :
    m.Carries q n (typeDeclaration parse policy) (typeDeclaration parse' policy) := by
  refine carries_expectName.eaten fun name => (carries_write _).next fun _ => (carries_supertype _ _).then fun _ => ?_
  refine (carries_write _).next fun _ => carries_expect.eaten fun _ => (carries_repeatFrom fun b => ?_).then fun b => ?_
  · refine carries_kind (fun kind => ?_) nofun
    split
    · exact carries_pure Bool.false_ne_true
    · exact (carries_typeElement goals).eaten fun _ => carries_pure id
  · exact carries_expect.eaten fun _ => carries_closeInitChain.next fun _ => carries_write _

/-! ## Declarations -/

theorem carries_functionDeclaration :
    m.Carries q n (advance >>= fun _ => functionDeclaration parse) (advance >>= fun _ => functionDeclaration parse') := by
  refine carries_previous fun first first' same => ?_
  have named (m' : Modifiers) : m.Carries (fun _ => True) n (do
      let name ← expectName "function name"
      write (.declareFunction name)
      parse (.function .function name m' [])
      write (.define name)) (do
      let name ← expectName "function name"
      write (.declareFunction name)
      parse' (.function .function name m' [])
      write (.define name)) :=
    carries_expectName.eaten fun name => (carries_write _).next fun _ =>
      (carries_goalFunction goals _ _ _ _).eaten fun _ => carries_write _
  rw [Token.kind_eq same]
  dsimp only
  split
  · exact (carries_modifiers _).then fun m' => carries_expect.eaten fun _ => (named m').any
  · exact (named _).any

theorem carries_testDeclaration : m.Carries q n (testDeclaration parse) (testDeclaration parse') := by
  refine carries_expectName.eaten fun name => (carries_write _).next fun _ => carries_expect.eaten fun _ => ?_
  exact (carries_block goals).eaten fun _ => carries_write _

theorem carries_caseDeclaration : m.Carries q n (caseDeclaration parse) (caseDeclaration parse') := by
  have body (name : String) (hasRows : Bool) : m.Carries (fun _ => True) n (do
      expect .openBrace "'\x7b' before test case body"
      block parse
      write (.endCase name hasRows)) (do
      expect .openBrace "'\x7b' before test case body"
      block parse'
      write (.endCase name hasRows)) :=
    carries_expect.eaten fun _ => (carries_block goals).eaten fun _ => carries_write _
  refine (carries_write _).next fun _ => carries_expectName.eaten fun name => (carries_write _).next fun _ => ?_
  refine carries_optional ?_ (body name false)
  refine carries_parameters.eaten fun _ => carries_optional ?_ (body name false)
  refine (carries_write _).next fun _ => (carries_expression goals).then fun _ => carries_expect.eaten fun _ => ?_
  exact (carries_write _).next fun _ => (body name true).any

theorem carries_declarationRule (kind : TokenKind) :
    Option.Rel (fun x y => m.Carries (fun _ => True) (n + 1) (advance >>= fun _ => x) (advance >>= fun _ => y))
      (declarationRule? parse kind) (declarationRule? parse' kind) := by
  cases kind with
  | varWord => exact .some (carries_advance (carries_varStatement goals))
  | funWord => exact .some (carries_functionDeclaration goals)
  | localWord => exact .some (carries_functionDeclaration goals)
  | pureWord => exact .some (carries_functionDeclaration goals)
  | classWord => exact .some (carries_advance (carries_typeDeclaration goals _))
  | dataWord => exact .some (carries_advance (carries_typeDeclaration goals _))
  | systemWord => exact .some (carries_advance (carries_typeDeclaration goals _))
  | enumWord => exact .some (carries_advance (carries_typeDeclaration goals _))
  | testWord => exact .some (carries_advance (carries_testDeclaration goals))
  | testcaseWord => exact .some (carries_advance (carries_caseDeclaration goals))
  | _ => exact .none

theorem carries_declaration : m.Carries (fun _ => True) (n + 1) (declaration parse) (declaration parse') :=
  carries_rule (carries_declarationRule goals) (carries_statement goals)

end

/-! ## All goals -/

/-- Where nesting is bounded by more, the same tokens are read in the same way. -/
theorem carries_parseGoal (m : Move) {bound bound' : Nat} (le : bound ≤ bound') :
    m.Goals (parseGoal bound) (parseGoal bound') := by
  induction bound generalizing bound' with
  | zero => exact fun goal n _ => carries_failHere
  | succ bound ih =>
    obtain ⟨bound', rfl⟩ := Nat.exists_eq_succ_of_ne_zero (Nat.ne_of_gt (Nat.lt_of_lt_of_le bound.succ_pos le))
    have goals := ih (Nat.le_of_succ_le_succ le)
    intro goal n ends
    cases goal with
    | declaration =>
      obtain ⟨n, rfl⟩ := Nat.exists_eq_succ_of_ne_zero ends.ne'
      exact carries_declaration goals
    | statement =>
      obtain ⟨n, rfl⟩ := Nat.exists_eq_succ_of_ne_zero ends.ne'
      exact carries_statement goals
    | expression level => exact carries_climb goals ends
    | function kind name modifiers fields => exact carries_function goals kind name modifiers fields

end ScriptEngine.Grammar
