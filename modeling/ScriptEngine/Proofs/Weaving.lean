import ScriptEngine.Proofs.Climbing

/-!
# What the grammar writes

The directives of a program are nested: a function, a type, a test or the right operand
of a short circuit is opened, something is written within it and it is closed again.
`Woven` generates the lists of directives that come of this. Those of an expression or of
a function change nothing that is in scope where they stand, those of a statement only
what belongs to the function around it, and this is their `Reach`.

Whatever a rule of the grammar writes is woven (`weaves_parseGoal`), so what directives
do is proved by induction on the weaving and without a look at the rules.
-/
namespace ScriptEngine

open Grammar

/-- How far directives reach that are carried out together. -/
inductive Reach where
  /-- They make a value, or use values up. -/
  | value
  /-- They may also declare variables and open and close control structures. -/
  | body
  deriving DecidableEq, Repr

/-- Directives of expressions that stand by themselves. -/
def Directive.isValue : Directive → Bool
  | .plain _ _ | .number _ | .string _ | .reserve _ | .resolve _ | .checkStore _ | .load _ | .store _ | .receiver
  | .this | .checkSuper | .getSuper _ | .superInvoke _ _ | .getProperty _ | .invoke _ _ | .checkImpure _
  | .setProperty _ | .setIndex | .storeField _ | .inject _ | .register _ | .staticMember _ | .enumValue _ => true
  | _ => false

/-- Directives of statements. What they open they leave open within their function. -/
def Directive.isLocal : Directive → Bool
  | .beginScope | .endScope | .declare _ | .define _ | .defineMany _ | .declareFunction _ | .parameter _
  | .resultName _ | .storeMatching _ | .returnCheck | .returnValueCheck | .implicitReturn | .leaveLoops | .branch
  | .branchElse | .branchEnd | .whileStart | .whileBody | .whileEnd | .forStart | .forCondition | .forStep
  | .forStepEnd | .forBody | .forEnd | .loopStart | .loopEnd | .loopCheck _ | .breakLoop | .continueLoop | .method _
  | .caseCheck | .unreachable _ _ => true
  | _ => false

def Directive.fits (d : Directive) : Reach → Bool
  | .value => d.isValue
  | .body => d.isValue || d.isLocal

/-- Directives that close what they open, but for the control structures and scopes of the function they stand in. -/
inductive Woven : Reach → List Directive → Prop
  | nil (r : Reach) : Woven r []
  | append {r : Reach} {ds es : List Directive} (first : Woven r ds) (second : Woven r es) : Woven r (ds ++ es)
  | loosen {ds : List Directive} (inner : Woven .value ds) : Woven .body ds
  | single {r : Reach} {d : Directive} (fits : d.fits r = true) : Woven r [d]
  | short {d : Directive} {ds : List Directive} (opens : d = .andThen ∨ d = .orElse) (inner : Woven .value ds) :
      Woven .value (d :: (ds ++ [.shortEnd]))
  | function {kind : FunctionKind} {name : String} {m : Modifiers} {ds : List Directive} (inner : Woven .body ds) :
      Woven .value (.beginFunction kind name m :: (ds ++ [.endFunction]))
  | chain {fields : List String} {ds : List Directive} (inner : Woven .body ds) :
      Woven .body (.beginInitChain :: (ds ++ [.endInitChain fields]))
  | type {kind : TypeKind} {name : String} {parent : List String} {ds : List Directive} (inner : Woven .body ds) :
      Woven .body (.beginType kind name :: (parent.map (.inheritFrom · name) ++ ds ++ [.endType]))
  | test {name : String} {ds : List Directive} (inner : Woven .body ds) :
      Woven .body (.beginTest name :: (ds ++ [.endTest name]))
  | case {name : String} {ds : List Directive} (inner : Woven .body ds) :
      Woven .body (.beginCase name :: (ds ++ [.endCase name false]))
  /-- The arguments of a case belong to the function around it. -/
  | rows {name : String} {ds es fs : List Directive} (before : Woven .body ds) (arguments : Woven .value es)
      (after : Woven .body fs) :
      Woven .body (.beginCase name :: (ds ++ .stepOut :: (es ++ .stepIn :: (fs ++ [.endCase name true]))))

theorem Woven.cons {r : Reach} {d : Directive} {ds : List Directive} (fits : d.fits r = true) (rest : Woven r ds) :
    Woven r (d :: ds) := .append (.single fits) rest

/-! ## What parsers write -/

/-- If the parser succeeds, its result and what it writes are as `Q` says. -/
def Writing {α : Type} (x : Parser α) (Q : α → List Directive → Prop) : Prop :=
  ∀ c a c', x c = .ok a c' → ∃ ds, c.Writes c' ds ∧ Q a ds

/-- What the parser writes is woven. -/
abbrev Weaves {α : Type} (x : Parser α) (r : Reach) : Prop := Writing x fun _ => Woven r

abbrev Silent {α : Type} (x : Parser α) : Prop := Writing x fun _ ds => ds = []

/-- What the parser writes is woven, but for its last part. -/
abbrev Trails {α : Type} (x : Parser α) (r : Reach) (tail : List Directive) : Prop :=
  Writing x fun _ ds => ∃ es, Woven r es ∧ ds = es ++ tail

section Rules
variable {α β σ : Type} {r : Reach} {tail : List Directive}

theorem writing_mono {x : Parser α} {P Q : α → List Directive → Prop} (h : Writing x P)
    (imp : ∀ a ds, P a ds → Q a ds) : Writing x Q := fun c a c' run =>
  (h c a c' run).imp fun _ h => ⟨h.1, imp _ _ h.2⟩

theorem writing_pure {a : α} {Q : α → List Directive → Prop} (h : Q a []) : Writing (pure a) Q := by
  rintro c _ _ ⟨⟩
  exact ⟨[], .refl rfl, h⟩

theorem writing_bind {x : Parser α} {f : α → Parser β} {P : α → List Directive → Prop}
    {Q : β → List Directive → Prop} (first : Writing x P)
    (then_ : ∀ a ds, P a ds → Writing (f a) fun b es => Q b (ds ++ es)) : Writing (x >>= f) Q := by
  intro c b c' run
  change EStateM.bind x f c = _ at run
  unfold EStateM.bind at run
  cases hx : x c with
  | error e d =>
    rw [hx] at run
    cases run
  | ok a d =>
    rw [hx] at run
    obtain ⟨ds, writes, h⟩ := first c a d hx
    obtain ⟨es, writes', h'⟩ := then_ a ds h d b c' run
    exact ⟨ds ++ es, writes.trans writes', h'⟩

theorem writing_write {d : Directive} {Q : Unit → List Directive → Prop} (h : Q () [d]) : Writing (write d) Q := by
  rintro c _ _ ⟨⟩
  exact ⟨[d], ⟨[_], Array.toList_push .., rfl⟩, h⟩

/-- A directive, and the rest. -/
theorem writing_written {d : Directive} {f : Unit → Parser β} {Q : β → List Directive → Prop}
    (rest : Writing (f ()) fun b es => Q b (d :: es)) : Writing (write d >>= f) Q :=
  writing_bind (P := fun _ ds => ds = [d]) (writing_write rfl) fun _ _ h => h ▸ rest

theorem Silent.then {x : Parser α} {f : α → Parser β} {Q : β → List Directive → Prop} (first : Silent x)
    (rest : ∀ a, Writing (f a) Q) : Writing (x >>= f) Q := writing_bind first fun a _ h => h ▸ rest a

theorem Silent.bind {x : Parser α} {f : α → Parser β} (first : Silent x) (rest : ∀ a, Weaves (f a) r) :
    Weaves (x >>= f) r := first.then rest

theorem Silent.weaves {x : Parser α} (h : Silent x) : Weaves x r := writing_mono h fun _ _ eq => eq ▸ .nil r

theorem writing_fail {x : Parser α} {Q : α → List Directive → Prop} (h : ∀ c a c', x c ≠ .ok a c') : Writing x Q :=
  fun c a c' run => absurd run (h c a c')

/-- What holds ahead of every round holds behind the last one. -/
theorem writing_repeatFrom {round : σ → Parser (σ × Bool)} {s : σ} (I : σ → List Directive → Prop) (start : I s [])
    (each : ∀ s ds, I s ds → Writing (round s) fun r es => I r.1 (ds ++ es)) : Writing (repeatFrom s round) I := by
  have loop (left : List Token) (s : σ) (ds : List Directive) (h : I s ds) :
      Writing (rounds round left s) fun s' es => I s' (ds ++ es) := by
    induction left generalizing s ds with
    | nil => exact writing_fail fun _ _ _ => nofun
    | cons t left ih =>
      refine writing_bind (each s ds h) fun r es h => ?_
      obtain ⟨s', more⟩ := r
      cases more with
      | true => exact writing_mono (ih s' _ h) fun _ _ h => by rwa [← List.append_assoc]
      | false => exact writing_pure (by rwa [List.append_nil])
  refine writing_bind (P := fun _ ds => ds = []) ?_ fun _ _ h => h ▸ loop _ s [] start
  rintro c _ _ ⟨⟩
  exact ⟨[], .refl rfl, rfl⟩

namespace Weaves

theorem loosen {x : Parser α} (h : Weaves x .value) : Weaves x .body := writing_mono h fun _ _ => .loosen

theorem pure (a : α) : Weaves (Pure.pure a : Parser α) r := writing_pure (.nil r)

theorem bind {x : Parser α} {f : α → Parser β} (first : Weaves x r) (then_ : ∀ a, Weaves (f a) r) :
    Weaves (x >>= f) r :=
  writing_bind first fun a _ h => writing_mono (then_ a) fun _ _ h' => h.append h'

theorem ite {c : Prop} [Decidable c] {x y : Parser α} (hx : Weaves x r) (hy : Weaves y r) :
    Weaves (if c then x else y) r := by
  split
  · exact hx
  · exact hy

theorem fail {x : Parser α} (h : ∀ c a c', x c ≠ .ok a c') : Weaves x r := writing_fail h

theorem forM {f : α → Parser Unit} (xs : List α) (each : ∀ x ∈ xs, Weaves (f x) r) : Weaves (xs.forM f) r := by
  induction xs with
  | nil => exact .pure ()
  | cons x xs ih => exact (each x (.head _)).bind fun _ => ih fun y hy => each y (.tail _ hy)

end Weaves

/-- Something woven, and the rest. -/
theorem Weaves.then {x : Parser α} {f : α → Parser β} (first : Weaves x r) (then_ : ∀ a, Trails (f a) r tail) :
    Trails (x >>= f) r tail :=
  writing_bind first fun a ds h => writing_mono (then_ a) fun _ _ ⟨es, h', eq⟩ =>
    ⟨ds ++ es, h.append h', by rw [eq, List.append_assoc]⟩

theorem trails_write (d : Directive) : Trails (write d) r [d] := writing_write ⟨[], .nil r, rfl⟩

theorem weaves_write {d : Directive} (fits : d.fits r = true) : Weaves (write d) r := writing_write (.single fits)

/-- A directive that opens something, and what ends with the one that closes it. -/
theorem weaves_bracket {r' : Reach} {opening closing : Directive} {f : Unit → Parser β}
    (inner : Trails (f ()) r' [closing]) (closes : ∀ es, Woven r' es → Woven r (opening :: (es ++ [closing]))) :
    Weaves (write opening >>= f) r :=
  writing_written (writing_mono inner fun _ _ ⟨es, h, eq⟩ => eq ▸ closes es h)

theorem weaves_value {d : Directive} (value : d.isValue = true) : Weaves (write d) r := by
  refine weaves_write ?_
  cases r with
  | value => exact value
  | body => exact Bool.or_eq_true_iff.mpr (.inl value)

/-! ### Parsers that write nothing -/

theorem silent_fail {x : Parser α} (h : ∀ c a c', x c ≠ .ok a c') : Silent x := writing_fail h

theorem silent_failHere (fault : CompileFault) : Silent (failHere fault : Parser α) := silent_fail fun _ _ _ => nofun

theorem silent_failBefore (fault : CompileFault) : Silent (failBefore fault : Parser α) :=
  silent_fail fun _ _ _ => nofun

theorem silent_advance : Silent advance := by
  rintro c _ _ ⟨⟩
  refine ⟨[], .refl ?_, rfl⟩
  unfold Cursor.advance
  split <;> rfl

theorem silent_get : Silent (get : Parser Cursor) := by
  rintro c _ _ ⟨⟩
  exact ⟨[], .refl rfl, rfl⟩

theorem silent_currentKind : Silent currentKind := silent_get.then fun _ => writing_pure rfl

theorem silent_secondKind : Silent secondKind := silent_get.then fun _ => writing_pure rfl

theorem silent_previousToken : Silent previousToken := silent_get.then fun _ => writing_pure rfl

theorem silent_check (kind : TokenKind) : Silent (check kind) := silent_currentKind.then fun _ => writing_pure rfl

theorem silent_accept (kind : TokenKind) : Silent (accept kind) := by
  refine (silent_check kind).then fun _ => ?_
  split
  · exact silent_advance.then fun _ => writing_pure rfl
  · exact writing_pure rfl

theorem silent_expect (kind : TokenKind) (what : String) : Silent (expect kind what) := by
  refine (silent_accept kind).then fun _ => ?_
  split
  · exact writing_pure rfl
  · exact silent_failHere _

theorem silent_expectName (what : String) : Silent (expectName what) :=
  (silent_expect _ _).then fun _ => silent_previousToken.then fun _ => writing_pure rfl

theorem silent_expectMember (what : String) : Silent (expectMember what) := by
  refine (silent_accept _).then fun _ => ?_
  split
  · exact silent_previousToken.then fun _ => writing_pure rfl
  · exact silent_expectName what

/-- The operation of an assignment is an instruction. -/
theorem weaves_acceptAssignment {f : Option Assignment → Parser β}
    (then_ : ∀ a, (∀ operation, a = some (.compound operation) → operation.isValue = true) → Weaves (f a) r) :
    Weaves (acceptAssignment >>= f) r := by
  have value (kind : TokenKind) (operation : Directive) (h : Assignment.ofKind? kind = some (.compound operation)) :
      operation.isValue = true := by
    cases kind <;> cases h <;> rfl
  have read : Writing acceptAssignment fun a ds =>
      ds = [] ∧ ∀ operation, a = some (.compound operation) → operation.isValue = true := by
    refine silent_currentKind.then fun kind => ?_
    dsimp only
    split
    · exact silent_advance.then fun _ => writing_pure ⟨rfl, value kind⟩
    · exact writing_pure ⟨rfl, value kind⟩
  exact writing_bind read fun a _ h => h.1 ▸ then_ a h.2

theorem weaves_repeatFrom {round : σ → Parser (σ × Bool)} (s : σ) (each : ∀ s, Weaves (round s) r) :
    Weaves (repeatFrom s round) r :=
  writing_repeatFrom (fun _ => Woven r) (.nil r) fun s _ h => writing_mono (each s) fun _ _ h' => h.append h'

theorem weaves_repeatWhile {round : Parser Bool} (each : Weaves round r) : Weaves (repeatWhile round) r :=
  weaves_repeatFrom () fun _ => each.bind fun _ => .pure _

theorem weaves_commaSeparated {item : Parser Unit} (each : Weaves item r) : Weaves (commaSeparated item) r :=
  weaves_repeatWhile (each.bind fun _ => (silent_accept _).weaves)

end Rules

/-! ## Expressions -/

/-- Expressions and functions stand by themselves. -/
def Grammar.Goal.reach : Goal → Reach
  | .expression _ | .function _ _ _ _ => .value
  | .declaration | .statement => .body

section Expressions
variable {parse : Goal → Parser Unit} (goals : ∀ goal, Weaves (parse goal) goal.reach)
include goals

theorem weaves_argumentList : Weaves (argumentList parse) .value := by
  have items : Weaves (repeatFrom 0 fun (n : Nat) => do
      expression parse
      if n ≥ 255 then failBefore .tooManyArguments
      return (n + 1, ← accept .comma)) .value :=
    weaves_repeatFrom 0 fun n => (goals _).bind fun _ =>
      .ite ((silent_failBefore _).bind fun _ => (silent_accept _).bind fun _ => .pure _)
        ((silent_accept _).bind fun _ => .pure _)
  have close (count : Nat) : Weaves (do
      expect .closeParen "')' after arguments"
      return UInt8.ofNat count) .value := (silent_expect _ _).bind fun _ => .pure _
  exact (silent_check _).bind fun _ => .ite (close 0) (items.bind close)

theorem weaves_variableNamed (name : String) (canAssign : Bool) : Weaves (variableNamed parse name canAssign) .value := by
  refine silent_currentKind.bind fun kind => .ite ?_ (weaves_write rfl)
  refine (weaves_write rfl).bind fun _ => weaves_acceptAssignment fun a value => (weaves_write rfl).bind fun _ => ?_
  split
  · exact (weaves_write rfl).bind fun _ => (goals _).bind fun _ => (weaves_value (value _ rfl)).bind fun _ =>
      weaves_write rfl
  · exact (goals _).bind fun _ => weaves_write rfl

theorem weaves_superMember : Weaves (superMember parse) .value :=
  (weaves_write rfl).bind fun _ => (silent_expect _ _).bind fun _ => (silent_expectMember _).bind fun _ =>
    (weaves_write rfl).bind fun _ => (weaves_write rfl).bind fun _ => (silent_accept _).bind fun _ =>
      .ite ((weaves_argumentList goals).bind fun _ => (weaves_write rfl).bind fun _ => weaves_write rfl)
        ((weaves_write rfl).bind fun _ => weaves_write rfl)

theorem weaves_bracketLiteral : Weaves (bracketLiteral parse) .value := by
  refine (silent_accept _).bind fun _ => .ite ((silent_expect _ _).bind fun _ => weaves_write rfl) <|
    (silent_accept _).bind fun _ => .ite (weaves_write rfl) <| (goals _).bind fun _ =>
      (silent_accept _).bind fun isMap => ?_
  have rest : Weaves (do
      let count ← repeatFrom 1 fun n => do
        if !(← accept .comma) then return (n, false)
        if ← check .closeBracket then return (n, false)
        expression parse
        if isMap then
          expect .colon "':' between map key and value"
          expression parse
        return (n + 1, true)
      expect .closeBracket "']' after literal elements"
      if count ≥ 65536 then failBefore (.tooMany "elements in literal")
      let n := UInt16.ofNat count
      write (if isMap then .plain (.buildMap n) else .plain (.buildList n))) .value := by
    refine (weaves_repeatFrom 1 fun n => ?_).bind fun count => (silent_expect _ _).bind fun _ => ?_
    · refine (silent_accept _).bind fun _ => .ite (.pure _) <| (silent_check _).bind fun _ => .ite (.pure _) <|
        (goals _).bind fun _ => .ite ((silent_expect _ _).bind fun _ => (goals _).bind fun _ => .pure _) (.pure _)
    · have last : Weaves (write (if isMap then .plain (.buildMap (UInt16.ofNat count))
          else .plain (.buildList (UInt16.ofNat count)))) .value := weaves_write (by cases isMap <;> rfl)
      exact .ite ((silent_failBefore _).bind fun _ => last) last
  exact .ite ((goals _).bind fun _ => rest) rest

theorem weaves_dynamicLiteral : Weaves (dynamicLiteral parse) .value := by
  refine (silent_accept _).bind fun _ => .ite ((silent_expect _ _).bind fun _ => weaves_write rfl) <|
    (weaves_write rfl).bind fun _ => (silent_check _).bind fun _ => .ite (silent_expect _ _).weaves ?_
  exact (weaves_commaSeparated ((silent_expectName _).bind fun _ => (weaves_write rfl).bind fun _ =>
    (silent_expect _ _).bind fun _ => (weaves_write rfl).bind fun _ => (goals _).bind fun _ =>
      weaves_write rfl)).bind fun _ => (silent_expect _ _).weaves

theorem weaves_prefixRule (canAssign : Bool) : Weaves (prefixRule parse canAssign) .value := by
  refine silent_previousToken.bind fun token => ?_
  split
  · exact (goals _).bind fun _ => (silent_expect _ _).weaves
  · exact weaves_bracketLiteral goals
  · exact weaves_dynamicLiteral goals
  · exact (goals _).bind fun _ => weaves_write rfl
  · exact (goals _).bind fun _ => weaves_write rfl
  · exact weaves_variableNamed goals _ _
  · split
    · exact weaves_write rfl
    · exact (silent_failBefore _).weaves
  · split
    · exact weaves_write rfl
    · exact (silent_failBefore _).weaves
  · exact weaves_write rfl
  · exact weaves_write rfl
  · exact weaves_write rfl
  · exact weaves_write rfl
  · exact weaves_superMember goals
  · exact goals _
  · exact (silent_expectName _).bind fun _ => weaves_write rfl
  · exact (silent_failBefore _).weaves

theorem weaves_assigned {old : List Directive} (value : ∀ d ∈ old, d.isValue = true) {rest : Parser Unit}
    (after : Weaves rest .value) : Weaves (do
      let assignment ← acceptAssignment
      assignedValue parse old assignment
      rest) .value := by
  refine weaves_acceptAssignment fun a operation => Weaves.bind (x := assignedValue parse old a) ?_ fun _ => after
  unfold assignedValue
  split
  · exact (Weaves.forM _ fun d hd => weaves_value (value d hd)).bind fun _ => (goals _).bind fun _ =>
      weaves_value (operation _ rfl)
  · exact goals _

theorem weaves_member (canAssign : Bool) : Weaves (member parse canAssign) .value :=
  (silent_expectMember _).bind fun _ => (weaves_write rfl).bind fun _ => silent_currentKind.bind fun _ =>
    .ite ((weaves_write rfl).bind fun _ =>
        weaves_assigned goals (by simp [Directive.isValue]) (weaves_write rfl)) <|
      (silent_accept _).bind fun _ =>
        .ite ((weaves_argumentList goals).bind fun _ => weaves_write rfl) (weaves_write rfl)

theorem weaves_element (canAssign : Bool) : Weaves (element parse canAssign) .value :=
  (goals _).bind fun _ => (silent_expect _ _).bind fun _ => silent_currentKind.bind fun _ =>
    .ite ((weaves_write rfl).bind fun _ =>
        weaves_assigned goals (by simp [Directive.isValue]) (weaves_write rfl)) (weaves_write rfl)

omit goals in
theorem isValue_binaryOperation (kind : TokenKind) : ∀ d ∈ binaryOperation kind, d.isValue = true := by
  unfold binaryOperation
  split <;> simp [Directive.isValue]

theorem weaves_infixRule (canAssign : Bool) : Weaves (infixRule parse canAssign) .value := by
  refine silent_previousToken.bind fun token => ?_
  dsimp only
  split
  · exact (weaves_argumentList goals).bind fun _ => weaves_write rfl
  · exact weaves_member goals _
  · exact weaves_element goals _
  · exact weaves_bracket (Weaves.then (goals (.expression .and)) fun _ => trails_write _) fun _ => .short (.inl rfl)
  · exact weaves_bracket (Weaves.then (goals (.expression .or)) fun _ => trails_write _) fun _ => .short (.inr rfl)
  · exact (goals _).bind fun _ => .forM _ fun d hd => weaves_value (isValue_binaryOperation _ d hd)

theorem weaves_climb (level : Precedence) : Weaves (climb parse level) .value :=
  silent_advance.bind fun _ => (weaves_prefixRule goals _).bind fun _ =>
    (weaves_repeatWhile (silent_currentKind.bind fun _ => .ite (silent_advance.bind fun _ =>
      (weaves_infixRule goals _).bind fun _ => .pure _) (.pure _))).bind fun _ =>
        silent_currentKind.bind fun _ => .ite (silent_failHere _).weaves (.pure _)

end Expressions

/-! ## Statements and functions -/

theorem weaves_parameters : Weaves parameters .body := by
  have close : Weaves (expect .closeParen "')' after parameters") .body := (silent_expect _ _).weaves
  have item (count : Nat) : Weaves (do
      let name ← expectName "parameter name"
      write (.parameter name)
      return (count + 1, ← accept .comma)) .body :=
    (silent_expectName _).bind fun _ => (weaves_write rfl).bind fun _ => (silent_accept _).bind fun _ => .pure _
  have items : Weaves (repeatFrom 0 fun (count : Nat) => do
      if count ≥ 255 then failHere .tooManyParameters
      let name ← expectName "parameter name"
      write (.parameter name)
      return (count + 1, ← accept .comma)) .body :=
    weaves_repeatFrom 0 fun n => .ite ((silent_failHere _).bind fun _ => item n) (item n)
  exact (silent_check _).bind fun _ => .ite close (items.bind fun _ => close)

theorem weaves_resultNames : Weaves resultNames .body :=
  (silent_accept _).bind fun _ => .ite ((weaves_commaSeparated ((silent_expectName _).bind fun _ =>
    weaves_write rfl)).bind fun _ => (silent_expect _ _).weaves) (.pure _)

theorem weaves_modifiers (m : Modifiers) : Weaves (modifiers m) .body :=
  weaves_repeatFrom m fun _ => (silent_accept _).bind fun _ => .ite (.pure _) <|
    (silent_accept _).bind fun _ => .ite (.pure _) (.pure _)

section Statements
variable {parse : Goal → Parser Unit} (goals : ∀ goal, Weaves (parse goal) goal.reach)
include goals

/-- Whatever a goal writes may stand in a body. -/
theorem weaves_goal (goal : Goal) : Weaves (parse goal) .body := by
  cases goal with
  | declaration | statement => exact goals _
  | expression | function => exact (goals _).loosen

theorem weaves_block : Weaves (block parse) .body := by
  refine (weaves_repeatFrom false fun noted => ?_).bind fun _ => (silent_expect _ _).weaves
  refine silent_currentKind.bind fun leading => .ite (.pure _) ((weaves_goal goals _).bind fun _ => ?_)
  split
  · refine (silent_check _).bind fun _ => .ite (.pure _) (silent_get.bind fun _ => ?_)
    exact (weaves_write rfl).bind fun _ => .pure _
  · exact .pure _

theorem weaves_function (kind : FunctionKind) (name : String) (m : Modifiers) (fields : List String) :
    Weaves (function parse kind name m fields) .value := by
  have body : Trails (do
      expect .openBrace "'\x7b' before function body"
      block parse
      write .endFunction) .body [.endFunction] :=
    (silent_expect _ _).then fun _ => (weaves_block goals).then fun _ => trails_write _
  have inner : Trails (do
      expect .openParen "'(' after function name"
      parameters
      resultNames
      if kind = .init then write (.storeMatching fields)
      expect .openBrace "'\x7b' before function body"
      block parse
      write .endFunction) .body [.endFunction] := by
    refine (silent_expect _ _).then fun _ => weaves_parameters.then fun _ => weaves_resultNames.then fun _ => ?_
    dsimp only
    split
    · exact (weaves_write rfl).then fun _ => body
    · exact body
  exact weaves_bracket inner fun _ => .function

theorem weaves_valueStatement {what : String} {d : Directive} (value : d.isValue = true) :
    Weaves (valueStatement parse what d) .body :=
  (weaves_goal goals _).bind fun _ => (silent_expect _ _).bind fun _ => weaves_value value

theorem weaves_expressionStatement : Weaves (expressionStatement parse) .body :=
  (weaves_goal goals _).bind fun _ => (silent_expect _ _).bind fun _ => weaves_write rfl

theorem weaves_initializer : Weaves (initializer parse) .body :=
  (silent_accept _).bind fun _ => .ite (weaves_goal goals _) (weaves_write rfl)

theorem weaves_multiVariables : Weaves (multiVariables parse) .body := by
  refine (weaves_repeatFrom [] fun names => (silent_expectName _).bind fun _ => (silent_accept _).bind
    fun _ => .pure _).bind fun names => ?_
  have body : Weaves (do
      write (.plain .multiVarStart)
      expression parse
      write (.plain .multiVarEnd)
      write (.plain (.pushByte (UInt8.ofNat names.length)))
      write (.plain (.validate .multiReturnMatches))
      expect .semicolon "';' after multi-var declaration"
      write (.defineMany names)) .body :=
    (weaves_write rfl).bind fun _ => (weaves_goal goals _).bind fun _ => (weaves_write rfl).bind fun _ =>
      (weaves_write rfl).bind fun _ => (weaves_write rfl).bind fun _ => (silent_expect _ _).bind fun _ =>
        weaves_write rfl
  have rest : Weaves (do
      expect .closeParen "')' after variable names"
      expect .equal "'=' after multi-var names"
      if isSingleLiteral (← currentKind) && (← secondKind) = .semicolon && names.length ≠ 1 then
        failHere (.literalForMany names.length)
      write (.plain .multiVarStart)
      expression parse
      write (.plain .multiVarEnd)
      write (.plain (.pushByte (UInt8.ofNat names.length)))
      write (.plain (.validate .multiReturnMatches))
      expect .semicolon "';' after multi-var declaration"
      write (.defineMany names)) .body :=
    (silent_expect _ _).bind fun _ => (silent_expect _ _).bind fun _ => silent_currentKind.bind fun _ =>
      silent_secondKind.bind fun _ => .ite ((silent_failHere _).bind fun _ => body) body
  exact .ite ((silent_failBefore _).bind fun _ => rest) rest

theorem weaves_varStatement : Weaves (varStatement parse) .body :=
  (silent_accept _).bind fun _ => .ite (weaves_multiVariables goals) <|
    (weaves_commaSeparated ((silent_expectName _).bind fun _ => (weaves_write rfl).bind fun _ =>
      (weaves_initializer goals).bind fun _ => weaves_write rfl)).bind fun _ => (silent_expect _ _).weaves

theorem weaves_throwStatement : Weaves (throwStatement parse) .body :=
  (weaves_write rfl).bind fun _ => (silent_accept _).bind fun _ =>
    .ite ((weaves_write rfl).bind fun _ => weaves_write rfl)
      ((weaves_goal goals _).bind fun _ => (silent_expect _ _).bind fun _ => weaves_write rfl)

theorem weaves_registerStatement : Weaves (registerStatement parse) .body :=
  (silent_expectName _).bind fun _ => (weaves_write rfl).bind fun _ => (weaves_goal goals _).bind fun _ =>
    (silent_expect _ _).bind fun _ => weaves_write rfl

theorem weaves_returnTuple : Weaves (returnTuple parse) .body := by
  refine silent_advance.bind fun _ => (weaves_repeatFrom 0 fun _ => (weaves_goal goals _).bind fun _ =>
    (silent_accept _).bind fun _ => .pure _).bind fun count => ?_
  have close : Weaves (do
      expect .closeParen "')' after return values"
      expect .semicolon "';' after return values"
      write (.plain (.ret (UInt8.ofNat count)))) .body :=
    (silent_expect _ _).bind fun _ => (silent_expect _ _).bind fun _ => weaves_write rfl
  exact .ite ((silent_failBefore _).bind fun _ => close) close

theorem weaves_returnStatement : Weaves (returnStatement parse) .body :=
  (weaves_write rfl).bind fun _ => (silent_accept _).bind fun _ => .ite (weaves_write rfl) <|
    (weaves_write rfl).bind fun _ => silent_get.bind fun _ => .ite (weaves_returnTuple goals) <|
      (weaves_goal goals _).bind fun _ => (silent_expect _ _).bind fun _ => weaves_write rfl

theorem weaves_condition (keyword : String) : Weaves (condition parse keyword) .body :=
  (silent_expect _ _).bind fun _ => (weaves_goal goals _).bind fun _ => (silent_expect _ _).weaves

theorem weaves_ifStatement : Weaves (ifStatement parse) .body :=
  (weaves_condition goals _).bind fun _ => (weaves_write rfl).bind fun _ => (weaves_goal goals _).bind fun _ =>
    (weaves_write rfl).bind fun _ => (silent_accept _).bind fun _ =>
      .ite ((weaves_goal goals _).bind fun _ => weaves_write rfl) (weaves_write rfl)

theorem weaves_whileStatement : Weaves (whileStatement parse) .body :=
  (weaves_write rfl).bind fun _ => (weaves_condition goals _).bind fun _ => (weaves_write rfl).bind fun _ =>
    (weaves_goal goals _).bind fun _ => weaves_write rfl

theorem weaves_forStatement : Weaves (forStatement parse) .body := by
  have body : Weaves (do
      write .forBody
      parse .statement
      write .forEnd
      write .endScope) .body :=
    (weaves_write rfl).bind fun _ => (weaves_goal goals _).bind fun _ => (weaves_write rfl).bind fun _ => weaves_write rfl
  have step : Weaves (do
      unless ← accept .closeParen do
        write .forStep
        expression parse
        write .forStepEnd
        expect .closeParen "')' after for clauses"
      write .forBody
      parse .statement
      write .forEnd
      write .endScope) .body :=
    (silent_accept _).bind fun _ => .ite body ((weaves_write rfl).bind fun _ => (weaves_goal goals _).bind fun _ =>
      (weaves_write rfl).bind fun _ => (silent_expect _ _).bind fun _ => body)
  have test : Weaves (do
      write .forStart
      unless ← accept .semicolon do
        expression parse
        expect .semicolon "';' after loop condition"
        write .forCondition
      unless ← accept .closeParen do
        write .forStep
        expression parse
        write .forStepEnd
        expect .closeParen "')' after for clauses"
      write .forBody
      parse .statement
      write .forEnd
      write .endScope) .body :=
    (weaves_write rfl).bind fun _ => (silent_accept _).bind fun _ => .ite step ((weaves_goal goals _).bind fun _ =>
      (silent_expect _ _).bind fun _ => (weaves_write rfl).bind fun _ => step)
  refine (weaves_write rfl).bind fun _ => (silent_expect _ _).bind fun _ => (silent_accept _).bind fun _ => ?_
  exact .ite test ((silent_accept _).bind fun _ => .ite ((weaves_varStatement goals).bind fun _ => test)
    ((weaves_expressionStatement goals).bind fun _ => test))

theorem weaves_statement : Weaves (statement parse) .body := by
  refine silent_currentKind.bind fun kind => ?_
  have jump (keyword : String) {d : Directive} (fits : d.fits .body = true) : Weaves (jumpStatement keyword d) .body :=
    (weaves_write rfl).bind fun _ => (silent_expect _ _).bind fun _ => weaves_write fits
  split
  · rename_i rule found
    refine silent_advance.bind fun _ => ?_
    unfold statementRule? at found
    split at found <;> cases found
    · exact (weaves_write rfl).bind fun _ => (weaves_block goals).bind fun _ => weaves_write rfl
    · exact weaves_ifStatement goals
    · exact weaves_whileStatement goals
    · exact weaves_forStatement goals
    · exact (weaves_write rfl).bind fun _ => (weaves_goal goals _).bind fun _ => weaves_write rfl
    · exact jump _ rfl
    · exact jump _ rfl
    · exact weaves_returnStatement goals
    · exact weaves_throwStatement goals
    · exact (silent_expect _ _).bind fun _ => weaves_write rfl
    · exact weaves_valueStatement goals rfl
    · exact weaves_valueStatement goals rfl
    · exact weaves_valueStatement goals rfl
    · exact weaves_registerStatement goals
  · exact weaves_expressionStatement goals

end Statements

/-! ## Type declarations -/

/-- Between the elements of a type body an init chain may be open. -/
structure InChain (b : TypeBody) (ds : List Directive) : Prop where
  stage : b.chainOpen = true ↔ b.stage = .var
  inside : b.chainOpen = true → ∃ es fs, Woven .body es ∧ Woven .body fs ∧ ds = es ++ .beginInitChain :: fs
  outside : b.chainOpen = false → Woven .body ds

section Types
variable {ds es : List Directive} {b b' : TypeBody}

theorem InChain.append (h : InChain b ds) (more : Woven .body es) (stage : b'.stage = b.stage)
    (chain : b'.chainOpen = b.chainOpen) : InChain b' (ds ++ es) := by
  refine ⟨by rw [stage, chain]; exact h.stage, fun inside => ?_, fun outside => ?_⟩
  · obtain ⟨before, after, hb, ha, rfl⟩ := h.inside (chain ▸ inside)
    exact ⟨before, after ++ es, hb, ha.append more, by rw [List.append_assoc, List.cons_append]⟩
  · exact (h.outside (chain ▸ outside)).append more

theorem writing_closeInitChain (h : InChain b ds) :
    Writing (closeInitChain b) fun b' es => b' = { b with chainOpen := false } ∧ Woven .body (ds ++ es) := by
  unfold closeInitChain
  split
  · rename_i chain
    obtain ⟨before, after, hb, ha, rfl⟩ := h.inside chain
    refine writing_written (writing_pure ⟨rfl, ?_⟩)
    rw [List.append_assoc]
    exact hb.append (.chain ha)
  · rename_i chain
    have closed : b.chainOpen = false := by simpa using chain
    refine writing_pure ⟨by rw [← closed], ?_⟩
    rw [List.append_nil]
    exact h.outside closed

theorem writing_enterStage {stage : Grammar.Stage} (h : InChain b ds) :
    Writing (enterStage b stage) fun b' es => InChain b' (ds ++ es) := by
  have failing {fault : CompileFault} {f : PUnit → Parser TypeBody} {Q : TypeBody → List Directive → Prop} :
      Writing (failHere fault >>= f) Q :=
    writing_bind (P := fun _ _ => False) (writing_fail fun _ _ _ => nofun) fun _ _ => False.elim
  unfold enterStage
  dsimp only
  split
  swap
  · exact failing
  split
  · exact failing
  split
  · rename_i leaving
    refine writing_bind (writing_closeInitChain h) fun b' es h' => ?_
    obtain ⟨rfl, woven⟩ := h'
    rw [if_neg (by simp [leaving.2])]
    exact writing_pure ⟨by simp [leaving.2], nofun, fun _ => by simpa using woven⟩
  split
  · rename_i entering
    have closed : b.chainOpen = false := by simpa [entering.2] using h.stage
    exact writing_written (writing_pure ⟨by simp [entering.1], fun _ => ⟨ds, [], h.outside closed, .nil _, rfl⟩, nofun⟩)
  · refine writing_pure ?_
    rw [List.append_nil]
    refine ⟨?_, h.inside, h.outside⟩
    rw [h.stage]
    by_cases hv : stage = .var <;> simp_all

/-- What the parser writes is woven, and of its result `Q` holds. -/
abbrev WeavesTo {α : Type} (x : Parser α) (Q : α → Prop) : Prop := Writing x fun a ds => Woven .body ds ∧ Q a

theorem weavesTo_pure {α : Type} {a : α} {Q : α → Prop} (h : Q a) : WeavesTo (pure a) Q := writing_pure ⟨.nil _, h⟩

theorem Weaves.weavesTo {α β : Type} {x : Parser α} {f : α → Parser β} {Q : β → Prop} (first : Weaves x .body)
    (then_ : ∀ a, WeavesTo (f a) Q) : WeavesTo (x >>= f) Q :=
  writing_bind first fun a _ h => writing_mono (then_ a) fun _ _ h' => ⟨h.append h'.1, h'.2⟩

/-- The elements of a body know of no init chain. -/
def Unmoved (b b' : TypeBody) : Prop := b'.stage = b.stage ∧ b'.chainOpen = b.chainOpen

theorem InChain.weavesTo {x : Parser TypeBody} (h : InChain b ds) (inner : WeavesTo x (Unmoved b)) :
    Writing x fun b' es => InChain b' (ds ++ es) :=
  writing_mono inner fun _ _ h' => h.append h'.1 h'.2.1 h'.2.2

variable {parse : Goal → Parser Unit} (goals : ∀ goal, Weaves (parse goal) goal.reach)
include goals

theorem weaves_staticElement : Weaves (staticElement parse) .body := by
  refine silent_advance.bind fun _ => (silent_accept _).bind fun _ => .ite ?_ ?_
  · exact (weaves_commaSeparated ((silent_expectName _).bind fun _ => (weaves_write rfl).bind fun _ =>
      (weaves_initializer goals).bind fun _ => weaves_write rfl)).bind fun _ => (silent_expect _ _).weaves
  · exact (weaves_modifiers _).bind fun _ => (silent_expectName _).bind fun _ => (weaves_write rfl).bind fun _ =>
      (weaves_goal goals _).bind fun _ => weaves_write rfl

omit goals in
theorem weaves_typeList {what after : String} {use : Directive} (fits : use.fits .body = true) :
    Weaves (typeList what after use) .body :=
  silent_advance.bind fun _ => (weaves_commaSeparated ((silent_expectName _).bind fun _ =>
    (weaves_write rfl).bind fun _ => weaves_write fits)).bind fun _ => (silent_expect _ _).weaves

theorem weavesTo_enumValueElement : WeavesTo (enumValueElement parse b) (Unmoved b) := by
  have entry (name : String) (b' : TypeBody) (same : Unmoved b b') : WeavesTo (do
      write (.enumValue name)
      unless ← accept .comma do
        let _ ← accept .semicolon
      return b') (Unmoved b) := by
    refine (weaves_write rfl).weavesTo fun _ => (silent_accept _).then fun _ => ?_
    dsimp only
    split
    · exact weavesTo_pure same
    · exact (silent_accept _).then fun _ => weavesTo_pure same
  refine (silent_expectName _).then fun name => (weaves_write rfl).weavesTo fun _ => (silent_accept _).then
    fun given => ?_
  dsimp only
  split
  · have number : Weaves leadingNumber? .body := silent_get.bind fun _ => .ite (.pure _) (.pure _)
    refine number.weavesTo fun n => ?_
    split
    · exact (weaves_goal goals _).weavesTo fun _ => entry name _ ⟨rfl, rfl⟩
    · exact (weaves_goal goals _).weavesTo fun _ => entry name _ ⟨rfl, rfl⟩
  · exact (weaves_write rfl).weavesTo fun _ => entry name _ ⟨rfl, rfl⟩

theorem weavesTo_varElement : WeavesTo (varElement parse b) (Unmoved b) := by
  have round (b' : TypeBody) (same : Unmoved b b') : WeavesTo (do
      let name ← expectName "field name"
      if b'.fields.contains name then failBefore (.duplicateField name b'.name)
      write (.reserve name)
      write .receiver
      initializer parse
      write (.storeField name)
      return ({ b' with fields := b'.fields ++ [name] }, ← accept .comma)) fun r => Unmoved b r.1 := by
    have field (name : String) : WeavesTo (do
        write (.reserve name)
        write .receiver
        initializer parse
        write (.storeField name)
        return ({ b' with fields := b'.fields ++ [name] }, ← accept .comma)) fun r => Unmoved b r.1 :=
      (weaves_write rfl).weavesTo fun _ => (weaves_write rfl).weavesTo fun _ => (weaves_initializer goals).weavesTo fun _ =>
        (weaves_write rfl).weavesTo fun _ => (silent_accept _).then fun _ => weavesTo_pure same
    refine (silent_expectName _).then fun name => ?_
    dsimp only
    split
    · exact (silent_failBefore _).then fun _ => field name
    · exact field name
  refine silent_advance.then fun _ => writing_bind (writing_repeatFrom
    (fun b' ds => Woven .body ds ∧ Unmoved b b') ⟨.nil _, rfl, rfl⟩ fun b' ds h =>
      writing_mono (round b' h.2) fun _ _ h' => ⟨h.1.append h'.1, h'.2⟩) fun b' ds h => ?_
  exact writing_mono ((silent_expect _ _).then fun _ => weavesTo_pure h.2) fun _ _ h' => ⟨h.1.append h'.1, h'.2⟩

theorem weavesTo_initElement : WeavesTo (initElement parse b) (Unmoved b) := by
  have init : WeavesTo (do
      write (.reserve "init")
      parse (.function .init "init" {} b.fields)
      write (.method "init")
      return { b with hasInit := true }) (Unmoved b) :=
    (weaves_write rfl).weavesTo fun _ => (weaves_goal goals _).weavesTo fun _ => (weaves_write rfl).weavesTo fun _ =>
      weavesTo_pure ⟨rfl, rfl⟩
  refine silent_advance.then fun _ => ?_
  dsimp only
  split
  · exact (silent_failBefore _).then fun _ => init
  · exact init

theorem weaves_methodElement : Weaves (methodElement parse) .body :=
  (weaves_modifiers _).bind fun _ => (silent_expectName _).bind fun _ => (weaves_write rfl).bind fun _ =>
    (weaves_goal goals _).bind fun _ => weaves_write rfl

omit goals in
theorem silent_elementStage (policy : StagePolicy) : Silent (elementStage policy) := by
  refine silent_currentKind.then fun kind => ?_
  split <;> first | exact writing_pure rfl | exact silent_failHere _ | skip
  refine silent_secondKind.then fun _ => ?_
  split <;> exact writing_pure rfl

theorem writing_typeElement (h : InChain b ds) :
    Writing (typeElement parse b) fun b' es => InChain b' (ds ++ es) := by
  refine (silent_elementStage _).then fun stage => writing_bind (writing_enterStage h) fun b' es h' => ?_
  simp only [← List.append_assoc]
  refine h'.weavesTo ?_
  cases stage with
  | static => exact (weaves_staticElement goals).weavesTo fun _ => weavesTo_pure ⟨rfl, rfl⟩
  | mixin => exact (weaves_typeList rfl).weavesTo fun _ => weavesTo_pure ⟨rfl, rfl⟩
  | signs => exact (weaves_typeList rfl).weavesTo fun _ => weavesTo_pure ⟨rfl, rfl⟩
  | enumValue => exact weavesTo_enumValueElement goals
  | var => exact weavesTo_varElement goals
  | init => exact weavesTo_initElement goals
  | begin | method => exact (weaves_methodElement goals).weavesTo fun _ => weavesTo_pure ⟨rfl, rfl⟩

theorem weaves_typeDeclaration (policy : StagePolicy) : Weaves (typeDeclaration parse policy) .body := by
  have super (name : String) (kind : TypeKind) : Writing (supertype name kind) fun _ ds =>
      ∃ parents : List String, ds = parents.map (.inheritFrom · name) := by
    refine (silent_accept _).then fun _ => ?_
    split
    swap
    · exact writing_pure ⟨[], rfl⟩
    split
    · exact writing_bind (P := fun _ _ => False) (writing_fail fun _ _ _ => nofun) fun _ _ => False.elim
    refine (silent_expectName _).then fun parent => ?_
    dsimp only
    split
    · exact writing_bind (P := fun _ _ => False) (writing_fail fun _ _ _ => nofun) fun _ _ => False.elim
    · exact writing_write ⟨[parent], rfl⟩
  refine (silent_expectName _).bind fun name => writing_written (writing_bind (super _ _) fun _ ps h => ?_)
  obtain ⟨parents, rfl⟩ := h
  have rest : Trails (do
      write (.load name)
      expect .openBrace "'\x7b' before type body"
      let b ← repeatFrom { name := name, policy := policy : TypeBody } fun b => do
        let kind ← currentKind
        if kind = .closeBrace ∨ kind = .eof then return (b, false)
        return (← typeElement parse b, true)
      expect .closeBrace "'\x7d' after type body"
      let _ ← closeInitChain b
      write .endType) .body [.endType] := by
    refine (weaves_write rfl).then fun _ => (silent_expect _ _).then fun _ =>
      writing_bind (writing_repeatFrom InChain ⟨by simp, nofun, fun _ => .nil _⟩ fun b ds h => ?_) fun b ds h => ?_
    · refine silent_currentKind.then fun kind => ?_
      split
      · exact writing_pure (by rwa [List.append_nil])
      · exact writing_bind (writing_typeElement goals h) fun _ _ h => writing_pure (by rwa [List.append_nil])
    · refine (silent_expect _ _).then fun _ => writing_bind (writing_closeInitChain h) fun _ es h =>
        writing_write ⟨_, h.2, ?_⟩
      rw [List.append_assoc]
  refine writing_mono rest fun _ _ ⟨es, woven, eq⟩ => ?_
  rw [eq, ← List.append_assoc]
  exact .type woven

end Types

/-! ## Programs -/

section Programs
variable {parse : Goal → Parser Unit} (goals : ∀ goal, Weaves (parse goal) goal.reach)
include goals

theorem weaves_functionDeclaration : Weaves (functionDeclaration parse) .body := by
  have named (m : Modifiers) : Weaves (do
      let name ← expectName "function name"
      write (.declareFunction name)
      parse (.function .function name m [])
      write (.define name)) .body :=
    (silent_expectName _).bind fun _ => (weaves_write rfl).bind fun _ => (weaves_goal goals _).bind fun _ =>
      weaves_write rfl
  refine silent_previousToken.bind fun token => ?_
  exact .ite ((weaves_modifiers _).bind fun m => (silent_expect _ _).bind fun _ => named m) (named _)

theorem weaves_testDeclaration : Weaves (testDeclaration parse) .body :=
  (silent_expectName _).then fun _ => weaves_bracket ((silent_expect _ _).then fun _ =>
    (weaves_block goals).then fun _ => trails_write _) fun _ => .test

/-- The rows of a test case are read while it is set aside. -/
theorem weaves_caseDeclaration : Weaves (caseDeclaration parse) .body := by
  refine (weaves_write rfl).bind fun _ => (silent_expectName _).bind fun name => writing_written ?_
  have body (hasRows : Bool) : Trails (do
      expect .openBrace "'\x7b' before test case body"
      block parse
      write (.endCase name hasRows)) .body [.endCase name hasRows] :=
    (silent_expect _ _).then fun _ => (weaves_block goals).then fun _ => trails_write _
  refine (silent_accept _).then fun _ => ?_
  dsimp only
  split
  swap
  · exact writing_mono (body false) fun _ _ ⟨_, woven, eq⟩ => eq ▸ .case woven
  refine writing_bind weaves_parameters fun _ ds before => (silent_accept _).then fun _ => ?_
  split
  swap
  · refine writing_mono (body false) fun _ _ ⟨_, woven, eq⟩ => ?_
    rw [eq, ← List.append_assoc]
    exact .case (before.append woven)
  refine writing_written (writing_bind (goals (.expression .assignment)) fun _ es arguments =>
    (silent_expect _ _).then fun _ => writing_written ?_)
  exact writing_mono (body true) fun _ _ ⟨_, after, eq⟩ => eq ▸ .rows before arguments after

theorem weaves_declaration : Weaves (declaration parse) .body := by
  refine silent_currentKind.bind fun kind => ?_
  split
  · rename_i rule found
    refine silent_advance.bind fun _ => ?_
    unfold declarationRule? at found
    split at found <;> cases found <;> first
      | exact weaves_varStatement goals
      | exact weaves_functionDeclaration goals
      | exact weaves_typeDeclaration goals _
      | exact weaves_testDeclaration goals
      | exact weaves_caseDeclaration goals
  · exact weaves_statement goals

end Programs

theorem weaves_parseGoal (n : Nat) (goal : Goal) : Weaves (parseGoal n goal) goal.reach := by
  induction n generalizing goal with
  | zero => exact (silent_failHere _).weaves
  | succ n ih =>
    cases goal with
    | declaration => exact weaves_declaration ih
    | statement => exact weaves_statement ih
    | expression level => exact weaves_climb ih level
    | function kind name m fields => exact weaves_function ih kind name m fields

/-- A program ends with the directive that ends the script. -/
theorem trails_program (bound : Nat) : Trails (program bound) .body [.endScript] := by
  refine Weaves.then (weaves_repeatWhile ((silent_check _).bind fun _ => .ite (.pure _) ?_)) fun _ => trails_write _
  have declared : Weaves (parseGoal bound .declaration) .body := weaves_parseGoal bound .declaration
  exact declared.bind fun _ => .pure _

end ScriptEngine
