import ScriptEngine.Proofs.ReadingStatements

/-!
# Programs are balanced

Type declarations and tests complete the goals of the grammar. By induction on
the bound on nesting every goal does to the outline what `Reads` says, so the
directives of a token stream that is accepted lead from the start of a script to
its end, and those of a stream that is not lead somewhere.
-/
namespace ScriptEngine

open Grammar Outline

section Types
variable {parse : Goal → Parser Unit} {X : Outline}

/-- The outline while the init chain of a type is open. -/
def inChain (X : Outline) (started : Bool) : Outline :=
  ⟨{ Level.ofKind .initChain with started := started }, (X.pushes 1).here :: X.outer, X.aside,
    false⟩

/-- Between the elements of a type body. -/
def InBody (X : Outline) (b : TypeBody) (M : Outline) : Prop :=
  (b.chainOpen = true ↔ b.stage = .var) ∧
    if b.chainOpen then ∃ started, M = inChain X started else M = X.pushes 1

theorem leads_closeInitChain (plain : X.Plain) {b : TypeBody} {M : Outline} (h : InBody X b M) :
    Leads (closeInitChain b) M
      fun b' M' => b' = { b with chainOpen := false } ∧ M' = X.pushes 1 := by
  unfold closeInitChain
  obtain ⟨-, h⟩ := h
  split
  · rename_i chain
    rw [if_pos chain] at h
    obtain ⟨started, rfl⟩ := h
    have within := (plain.pushes 1).2
    obtain ⟨X, outer, aside, _⟩ := X
    cases plain.1
    have close : Move (.endInitChain b.fields) (inChain ⟨X, outer, aside, false⟩ started)
        (pushes ⟨X, outer, aside, false⟩ 1) :=
      .endInitChain ⟨rfl, rfl, rfl⟩ rfl rfl nofun rfl within rfl
    exact leads_seq (leads_write close) fun _ => leads_pure ⟨rfl, rfl⟩
  · rename_i chain
    rw [if_neg chain] at h
    refine leads_pure ⟨?_, h⟩
    have closed : b.chainOpen = false := by simpa using chain
    rw [← closed]

theorem leads_enterStage (plain : X.Plain) {b : TypeBody} {stage : Grammar.Stage} {M : Outline}
    (h : InBody X b M) :
    Leads (enterStage b stage) M fun b' M' => b'.stage = stage ∧ InBody X b' M' := by
  unfold enterStage
  dsimp only
  split
  swap
  · exact leads_bind leads_failHere fun _ _ h => h
  split
  · exact leads_bind leads_failHere fun _ _ h => h
  split
  · rename_i leaving
    refine leads_bind (leads_closeInitChain plain h) fun b' M' h' => ?_
    obtain ⟨rfl, rfl⟩ := h'
    rw [if_neg (by simp [leaving.2])]
    exact leads_pure ⟨rfl, by simp [leaving.2], by simp⟩
  rename_i staying
  split
  · rename_i entering
    have closed : b.chainOpen = false := by simpa [entering.2] using h.1
    obtain ⟨-, hM⟩ := h
    rw [closed, if_neg (by simp)] at hM
    subst hM
    obtain ⟨X, outer, aside, _⟩ := X
    cases plain.1
    refine leads_seq (leads_write .beginInitChain) fun _ => leads_pure ⟨rfl, ?_, ?_⟩
    · simp [entering.1]
    · exact ⟨false, rfl⟩
  · rename_i same
    refine leads_pure ⟨rfl, ?_, h.2⟩
    rw [h.1]
    by_cases hv : stage = .var <;> simp_all

/-! ## Elements -/

variable (reads : Reads parse) (plain : X.Plain)
include reads plain

theorem leads_elementFunction {kind : FunctionKind} {name : String} {m : Modifiers}
    {fields : List String} (named : kind ≠ .script ∧ kind ≠ .initChain) :
    Leads (parse (.function kind name m fields)) (X.pushes 1) fun _ M => M = X.pushes 2 := by
  have pending : (X.pushes 1).here.pending.isFunction = false := plain.2.1
  refine leads_mono (reads.function kind name m fields _ named plain.1 (plain.pushes 1).2.2 (by simp [pending])) ?_
  rintro _ _ rfl
  have receive : (X.pushes 1).here.receive = (X.pushes 1).here.pushes 1 := by
    unfold Level.receive
    split
    · rename_i h
      simp [h, Pending.isFunction] at pending
    · rfl
  rw [receive]
  simp [Outline.pushes]

theorem leads_staticElement :
    Leads (staticElement parse) (X.pushes 1) fun _ M => M = X.pushes 1 := by
  unfold staticElement
  refine leads_seq leads_advance fun _ => ?_
  refine leads_seq leads_accept fun b => ?_
  split
  · refine leads_bind (leads_commaSeparated (· = X.pushes 1) rfl ?_)
      fun _ M h => h ▸ leads_expect
    rintro M rfl
    refine leads_seq leads_expectName fun name => ?_
    refine leads_seq (leads_quietly 1 rfl plain) fun _ => ?_
    refine leads_seq (M := X.pushes 2) ?_ fun _ => leads_effect 0 rfl rfl plain
    exact leads_mono (leads_initializer reads (plain.pushes 1)) fun _ _ h => by simpa using h
  · refine leads_seq leads_modifiers fun m => ?_
    refine leads_seq leads_expectName fun name => ?_
    refine leads_seq (leads_quietly 1 rfl plain) fun _ => ?_
    refine leads_seq (leads_elementFunction reads plain (by decide)) fun _ => ?_
    exact leads_effect 0 rfl rfl plain

omit reads in
theorem leads_typeList {what after : String} {use : Directive} (effect : use.effect = some (2, 1))
    (free : use.isFree) :
    Leads (typeList what after use) (X.pushes 1) fun _ M => M = X.pushes 1 := by
  unfold typeList
  refine leads_seq leads_advance fun _ => ?_
  refine leads_bind (leads_commaSeparated (· = X.pushes 1) rfl ?_) fun _ M h => h ▸ leads_expect
  rintro M rfl
  refine leads_seq leads_expectName fun name => ?_
  refine leads_seq (leads_value 1 rfl rfl plain)
    fun _ => ?_
  exact leads_effect 0 effect free plain

theorem leads_enumValueElement {b : TypeBody} :
    Leads (enumValueElement parse b) (X.pushes 1) fun b' M =>
      b'.chainOpen = b.chainOpen ∧ b'.stage = b.stage ∧ M = X.pushes 1 := by
  -- the entry, with or without a value of its own
  have entry (name : String) (b' : TypeBody) (same : b'.chainOpen = b.chainOpen ∧ b'.stage = b.stage) :
      Leads (do
        write (.enumValue name)
        unless ← accept .comma do
          let _ ← accept .semicolon
        return b' : Parser TypeBody) (X.pushes 2)
        fun b' M => b'.chainOpen = b.chainOpen ∧ b'.stage = b.stage ∧ M = X.pushes 1 := by
    refine leads_seq (leads_effect 0 rfl rfl plain) fun _ => ?_
    refine leads_seq leads_accept fun more => ?_
    dsimp only
    split
    · exact leads_pure ⟨same.1, same.2, rfl⟩
    · exact leads_seq leads_accept fun _ => leads_pure ⟨same.1, same.2, rfl⟩
  unfold enumValueElement
  refine leads_seq leads_expectName fun name => ?_
  refine leads_seq (leads_quietly 1 rfl plain) fun _ => ?_
  refine leads_seq leads_accept fun given => ?_
  dsimp only
  split
  · have number : Leads leadingNumber? (X.pushes 1) fun _ M => M = X.pushes 1 := by
      refine leads_seq leads_get fun c => ?_
      dsimp only
      split <;> exact leads_pure rfl
    refine leads_seq number fun n => ?_
    split
    · exact leads_seq (leads_operand reads 1 plain) fun _ => entry name _ ⟨rfl, rfl⟩
    · exact leads_seq (leads_operand reads 1 plain) fun _ => entry name _ ⟨rfl, rfl⟩
  · exact leads_seq (leads_value 1 rfl rfl plain) fun _ => entry name _ ⟨rfl, rfl⟩

omit plain in
/-- Fields with their defaults are code of the init chain. -/
theorem leads_varElement {b : TypeBody} {started : Bool} :
    Leads (varElement parse b) (inChain X started) fun b' M =>
      b'.chainOpen = b.chainOpen ∧ b'.stage = b.stage ∧ ∃ started, M = inChain X started := by
  let I (b' : TypeBody) (M : Outline) : Prop :=
    b'.chainOpen = b.chainOpen ∧ b'.stage = b.stage ∧ ∃ started, M = inChain X started
  unfold varElement
  refine leads_seq leads_advance fun _ => ?_
  refine leads_bind (leads_repeatFrom I I ⟨rfl, rfl, started, rfl⟩ ?_)
    fun b' M h => leads_bind leads_expect fun _ _ e => leads_pure (e ▸ h)
  rintro b' M ⟨chain, stage, started, rfl⟩
  have plain (started : Bool) : (inChain X started).Plain :=
    ⟨rfl, rfl, Level.usual_empty rfl nofun⟩
  refine leads_seq leads_expectName fun name => ?_
  dsimp only
  split
  · exact leads_bind leads_failBefore fun _ _ h => h
  refine leads_seq (leads_quiet rfl (plain started)) fun _ => ?_
  refine leads_seq (M := (inChain X true).pushes 1) ?_ fun _ => ?_
  · refine leads_level (.simple (τ := []) rfl rfl rfl (by simp) (plain true).2 ?_ ?_ ?_) rfl
    · exact fun n h e => nomatch e
    · exact fun h e => nomatch e
    · exact fun _ => rfl
  refine leads_seq (M := (inChain X true).pushes 2) ?_ fun _ => ?_
  · exact leads_mono (leads_initializer reads ((plain true).pushes 1)) fun _ _ h => by simpa using h
  refine leads_seq (leads_effect 0 rfl rfl (plain true)) fun _ => ?_
  refine leads_seq leads_accept fun more => leads_pure ?_
  have after : I { b' with fields := b'.fields ++ [name] } ((inChain X true).pushes 0) :=
    ⟨chain, stage, true, rfl⟩
  split <;> exact after

theorem leads_initElement {b : TypeBody} :
    Leads (initElement parse b) (X.pushes 1) fun b' M =>
      b'.chainOpen = b.chainOpen ∧ b'.stage = b.stage ∧ M = X.pushes 1 := by
  unfold initElement
  refine leads_seq leads_advance fun _ => ?_
  dsimp only
  split
  · exact leads_bind leads_failBefore fun _ _ h => h
  refine leads_seq (leads_quietly 1 rfl plain) fun _ => ?_
  refine leads_seq (leads_elementFunction reads plain (by decide)) fun _ => ?_
  exact leads_seq (leads_effect 0 rfl rfl plain) fun _ => leads_pure ⟨rfl, rfl, rfl⟩

theorem leads_methodElement :
    Leads (methodElement parse) (X.pushes 1) fun _ M => M = X.pushes 1 := by
  unfold methodElement
  refine leads_seq leads_modifiers fun m => ?_
  refine leads_seq leads_expectName fun name => ?_
  refine leads_seq (leads_quietly 1 rfl plain) fun _ => ?_
  refine leads_seq (leads_elementFunction reads plain (by decide)) fun _ => ?_
  exact leads_effect 0 rfl rfl plain

omit reads plain in
theorem leads_elementStage {policy : StagePolicy} {M : Outline} :
    Leads (elementStage policy) M fun _ M' => M' = M := by
  refine leads_seq leads_currentKind fun kind => ?_
  split <;> first | exact leads_pure rfl | exact leads_failHere | skip
  refine leads_seq leads_secondKind fun second => ?_
  split <;> exact leads_pure rfl

theorem leads_typeElement {b : TypeBody} {M : Outline} (h : InBody X b M) :
    Leads (typeElement parse b) M fun b' M' => InBody X b' M' := by
  unfold typeElement
  refine leads_seq leads_elementStage fun stage => ?_
  refine leads_bind (leads_enterStage plain h) fun b M h => ?_
  obtain ⟨hstage, h⟩ := h
  by_cases hv : stage = .var
  · subst hv
    have chain : b.chainOpen = true := h.1.mpr hstage
    obtain ⟨started, rfl⟩ : ∃ started, M = inChain X started := by simpa [chain] using h.2
    refine leads_mono (leads_varElement reads) fun b' M' h' => ?_
    obtain ⟨hc, hs, hM⟩ := h'
    exact ⟨by simp [hc, chain, hs, hstage], by rwa [if_pos (hc.trans chain)]⟩
  · have closed : b.chainOpen = false := by
      have := h.1
      simp_all
    obtain rfl : M = X.pushes 1 := by simpa [closed] using h.2
    have same : InBody X b (X.pushes 1) := h
    have kept {b' : TypeBody} {M' : Outline}
        (h' : b'.chainOpen = b.chainOpen ∧ b'.stage = b.stage ∧ M' = X.pushes 1) :
        InBody X b' M' := by
      obtain ⟨hc, hs, rfl⟩ := h'
      exact ⟨by rw [hc, hs]; exact h.1, by rw [hc, closed]; rfl⟩
    cases stage with
    | static => exact leads_seq (leads_staticElement reads plain) fun _ => leads_pure same
    | mixin =>
      exact leads_seq (leads_typeList plain rfl rfl) fun _ => leads_pure same
    | signs =>
      exact leads_seq (leads_typeList plain rfl rfl) fun _ => leads_pure same
    | enumValue => exact leads_mono (leads_enumValueElement reads plain) fun _ _ h' => kept h'
    | var => exact (hv rfl).elim
    | init => exact leads_mono (leads_initElement reads plain) fun _ _ h' => kept h'
    | begin => exact leads_seq (leads_methodElement reads plain) fun _ => leads_pure same
    | method => exact leads_seq (leads_methodElement reads plain) fun _ => leads_pure same

/-- The elements of a type, up to its end. -/
theorem leads_typeBody {name : String} {policy : StagePolicy} {Q : Unit → Outline → Prop}
    (close : Leads (write .endType) (X.pushes 1) Q) :
    Leads (do
      let b ← repeatFrom { name := name, policy := policy : TypeBody } fun b => do
        let kind ← currentKind
        if kind = .closeBrace ∨ kind = .eof then return (b, false)
        return (← typeElement parse b, true)
      expect .closeBrace "'\x7d' after type body"
      let _ ← closeInitChain b
      write .endType) (X.pushes 1) Q := by
  refine leads_bind (leads_repeatFrom (InBody X) (InBody X) ?_ ?_) fun b M h => ?_
  · exact ⟨by simp, by simp⟩
  · intro b M h
    refine leads_seq leads_currentKind fun kind => ?_
    split
    · exact leads_pure h
    · exact leads_bind (leads_typeElement reads plain h) fun b' M' h' => leads_pure h'
  · refine leads_seq leads_expect fun _ => ?_
    refine leads_bind (leads_closeInitChain plain h) fun b' M' h' => ?_
    rw [h'.2]
    exact close

end Types

section Goals
variable {parse : Goal → Parser Unit} {O : Outline}

/-- The type of a declaration is a variable, and so is its supertype within the body. -/
theorem leads_typeDeclaration (reads : Reads parse) (ready : O.ready = false)
    (calm : O.here.Calm) (declaring : O.here.Declaring) {policy : StagePolicy} :
    Leads (typeDeclaration parse policy) O fun _ M => Declared O M := by
  obtain ⟨⟨kind, role, vars, fixed, temps, region, pending, opens, started⟩, outer, aside, _⟩ := O
  obtain ⟨rfl, rfl, rfl⟩ := calm
  cases ready
  unfold typeDeclaration
  refine leads_seq leads_expectName fun name => ?_
  let before : Outline := ⟨⟨kind, role, vars, fixed, [], .none, .none, opens, started⟩, outer, aside,
    false⟩
  -- the outline in the body, with the variables there are
  let within (vars : List String) (inherits : Bool) : Outline := ⟨⟨kind, role, vars, fixed, [],
    .none, .none, .typeBody inherits :: opens, true⟩, outer, aside, false⟩
  have body (vars' : List String) (h : Declared before
      ⟨⟨kind, role, vars', fixed, [], .none, .none, opens, true⟩, outer, aside, false⟩) :
      Leads (do
        supertype name policy.kind
        write (.load name)
        expect .openBrace "'\x7b' before type body"
        let b ← repeatFrom { name := name, policy := policy : TypeBody } fun b => do
          let kind ← currentKind
          if kind = .closeBrace ∨ kind = .eof then return (b, false)
          return (← typeElement parse b, true)
        expect .closeBrace "'\x7d' after type body"
        let _ ← closeInitChain b
        write .endType) (within vars' false) fun _ M => Declared before M := by
    have super : Leads (supertype name policy.kind) (within vars' false) fun _ M =>
        M = within vars' false ∨ M = within ("super" :: vars') true := by
      refine leads_seq leads_accept fun b => ?_
      split
      · dsimp only
        split
        · exact leads_bind leads_failBefore fun _ _ h => h
        refine leads_seq leads_expectName fun parent => ?_
        split
        · exact leads_bind leads_failBefore fun _ _ h => h
        refine leads_mono (leads_level (.inheritFrom ⟨rfl, rfl, rfl⟩ rfl) rfl) ?_
        rintro _ _ rfl
        exact .inr rfl
      · exact leads_pure (.inl rfl)
    refine leads_bind super fun _ M hM => ?_
    rcases hM with rfl | rfl
    · refine leads_seq (leads_first rfl rfl ⟨rfl, rfl, Level.usual_empty rfl nofun⟩) fun _ => ?_
      refine leads_seq leads_expect fun _ => ?_
      refine leads_typeBody reads (Outline.Level.Calm.plain ⟨rfl, rfl, rfl⟩ rfl) ?_
      refine leads_mono (leads_level (.endType (e := .value) rfl rfl rfl rfl rfl) rfl) ?_
      rintro _ _ rfl
      exact h
    · refine leads_seq (leads_first rfl rfl ⟨rfl, rfl, Level.usual_empty rfl nofun⟩) fun _ => ?_
      refine leads_seq leads_expect fun _ => ?_
      refine leads_typeBody reads (Outline.Level.Calm.plain ⟨rfl, rfl, rfl⟩ rfl) ?_
      refine leads_mono (leads_level (.endSubtype (e := .value) rfl rfl rfl rfl rfl rfl) rfl) ?_
      rintro _ _ rfl
      exact h
  by_cases inScope : before.here.inScope
  · refine leads_seq (leads_level (.beginType ⟨rfl, rfl, rfl⟩ declaring inScope) rfl) fun _ => ?_
    exact body (name :: vars) ⟨[name], true, rfl, by simp [inScope]⟩
  · have global : before.here.inScope = false := by simpa using inScope
    refine leads_seq (leads_level (.beginGlobalType ⟨rfl, rfl, rfl⟩ global) rfl) fun _ => ?_
    exact body vars ⟨[], true, rfl, fun _ => rfl⟩

theorem leads_functionDeclaration (reads : Reads parse) (ready : O.ready = false)
    (calm : O.here.Calm) (declaring : O.here.Declaring) :
    Leads (functionDeclaration parse) O fun _ M => Declared O M := by
  -- the declaration behind its modifiers
  have declaration (m : Modifiers) : Leads (do
      let name ← expectName "function name"
      write (.declareFunction name)
      parse (.function .function name m [])
      write (.define name)) O fun _ M => Declared O M := by
    obtain ⟨⟨kind, role, vars, fixed, temps, region, pending, opens, started⟩, outer, aside, _⟩ := O
    obtain ⟨rfl, rfl, rfl⟩ := calm
    cases ready
    refine leads_seq leads_expectName fun name => ?_
    by_cases inScope : Level.inScope ⟨kind, role, vars, fixed, [], .none, .none, opens, started⟩
    · refine leads_seq (leads_level (.declareFunction ⟨rfl, rfl, rfl⟩ declaring inScope) rfl)
        fun _ => ?_
      refine leads_seq (reads.function _ _ _ _ _ (by decide) rfl
        (Level.usual_empty rfl nofun) fun _ => ⟨rfl, rfl, declaring, inScope⟩) fun _ => ?_
      refine leads_mono (leads_level (.defined ⟨rfl, rfl, rfl⟩ rfl declaring inScope) rfl) ?_
      rintro _ _ rfl
      exact ⟨[name], true, rfl, by simp [inScope]⟩
    · have global : Level.inScope ⟨kind, role, vars, fixed, [], .none, .none, opens, started⟩ =
          false := by simpa using inScope
      refine leads_seq (leads_level (.declareGlobalFunction ⟨rfl, rfl, rfl⟩ global) rfl)
        fun _ => ?_
      refine leads_seq (reads.function _ _ _ _ _ (by decide) rfl (Level.usual_empty rfl nofun) (by simp [Level.touch,
        Pending.isFunction])) fun _ => ?_
      refine leads_mono (leads_level (.defineGlobal (e := .value) rfl rfl rfl rfl global) rfl) ?_
      rintro _ _ rfl
      exact ⟨[], true, rfl, fun _ => rfl⟩
  unfold functionDeclaration
  refine leads_seq leads_previousToken fun token => ?_
  dsimp only
  split
  · refine leads_seq leads_modifiers fun m => ?_
    exact leads_seq leads_expect fun _ => declaration m
  · exact declaration _

theorem leads_testDeclaration (reads : Reads parse) (ready : O.ready = false)
    (calm : O.here.Calm) : Leads (testDeclaration parse) O fun _ M => Declared O M := by
  obtain ⟨E, outer, aside, _⟩ := O
  cases ready
  unfold testDeclaration
  refine leads_seq leads_expectName fun name => ?_
  refine leads_seq (leads_write .beginTest) fun _ => ?_
  refine leads_seq leads_expect fun _ => ?_
  refine leads_bind (leads_block reads rfl ⟨rfl, rfl, rfl⟩ (.inl rfl)) fun _ M h => ?_
  obtain ⟨new, started, rfl, -⟩ := h
  refine leads_mono (leads_write (.endTest ⟨rfl, rfl, rfl⟩ rfl rfl nofun ?_)) ?_
  · exact ((calm.plain rfl).pushes 0).2
  · rintro _ _ rfl
    exact declared_touch _

/-- The rows of a test case are computed in the test set. -/
theorem leads_caseDeclaration (reads : Reads parse) (ready : O.ready = false)
    (calm : O.here.Calm) : Leads (caseDeclaration parse) O fun _ M => Declared O M := by
  obtain ⟨⟨kind, role, vars, fixed, temps, region, pending, opens, started⟩, outer, aside, _⟩ := O
  obtain ⟨rfl, rfl, rfl⟩ := calm
  cases ready
  let E (values : List Held) (started : Bool) : Level :=
    ⟨kind, role, vars, fixed, values, .none, .none, opens, started⟩
  -- the body, with the rows on the stack or without
  have body (name : String) (hasRows started' s : Bool) (vars' : List String) (fixed' : Nat) :
      Leads (do
        expect .openBrace "'\x7b' before test case body"
        block parse
        write (.endCase name hasRows))
        ⟨{ Level.ofKind .function .case with vars := vars', fixed := fixed', started := started' },
          E (if hasRows then [.value] else []) s :: outer, aside, false⟩
        fun _ M => Declared ⟨E [] started, outer, aside, false⟩ M := by
    refine leads_seq leads_expect fun _ => ?_
    refine leads_bind (leads_block reads rfl ⟨rfl, rfl, rfl⟩ (.inl rfl)) fun _ M h => ?_
    obtain ⟨new, s', rfl, -⟩ := h
    have values : ∀ e ∈ if hasRows then [Held.value] else [], e.isValue := by
      cases hasRows <;> simp [Held.isValue]
    refine leads_mono (leads_write (.endCase ⟨rfl, rfl, rfl⟩ rfl rfl (by rintro ⟨⟩) ⟨rfl, values, by rintro s ⟨⟩⟩
      (List.append_nil _).symm ?_ values)) ?_
    · cases hasRows <;> rfl
    · rintro _ _ rfl
      exact declared_touch _
  unfold caseDeclaration
  refine leads_seq (leads_write .caseCheck) fun _ => ?_
  refine leads_seq leads_expectName fun name => ?_
  refine leads_seq (leads_write .beginCase) fun _ => ?_
  refine leads_seq leads_accept fun b => ?_
  dsimp only
  split
  · refine leads_bind (leads_parameters rfl ⟨rfl, rfl, rfl⟩ rfl rfl (by rintro ⟨⟩)) fun _ M h => ?_
    obtain ⟨⟨new, started', rfl⟩, fresh⟩ := h
    refine leads_seq leads_accept fun rows => ?_
    split
    · refine leads_seq (leads_write (.stepOut rfl fresh)) fun _ => ?_
      refine leads_seq (leads_expression reads ⟨rfl, rfl, Level.usual_empty rfl (by rintro s ⟨⟩)⟩) fun _ => ?_
      refine leads_seq leads_expect fun _ => ?_
      refine leads_seq (leads_write .stepIn) fun _ => ?_
      exact body name true _ true _ _
    · exact body name false _ _ _ _
  · exact body name false _ _ _ _

theorem leads_declaration (reads : Reads parse) (ready : O.ready = false)
    (calm : O.here.Calm) (declaring : O.here.Declaring) :
    Leads (declaration parse) O fun _ M => Declared O M := by
  refine leads_seq leads_currentKind fun kind => ?_
  split
  · rename_i rule hrule
    refine leads_seq leads_advance fun _ => ?_
    unfold declarationRule? at hrule
    split at hrule <;> cases hrule <;> first
      | exact leads_varStatement reads ready calm declaring
      | exact leads_functionDeclaration reads ready calm declaring
      | exact leads_typeDeclaration reads ready calm declaring
      | exact leads_testDeclaration reads ready calm
      | exact leads_caseDeclaration reads ready calm
  · refine leads_mono (leads_statement reads ready calm) ?_
    rintro _ _ rfl
    exact declared_touch O

/-- Every goal does to the outline what it should. -/
theorem reads_parseGoal (n : Nat) : Reads (parseGoal n) := by
  induction n with
  | zero =>
    exact ⟨fun _ _ _ _ => leads_failHere, fun _ _ _ => leads_failHere,
      fun _ _ _ _ => leads_failHere, fun _ _ _ _ _ _ _ _ _ => leads_failHere⟩
  | succ n ih =>
    exact ⟨fun _ _ h plain => leads_climb ih plain h,
      fun _ ready calm => leads_statement ih ready calm,
      fun _ ready calm declaring => leads_declaration ih ready calm declaring,
      fun _ _ _ _ _ named ready usual pending => leads_function ih named ready usual pending⟩

end Goals

section Programs
variable {tokens : List Token}

theorem at_ofTokens : At initial (.ofTokens tokens) := by
  unfold Cursor.ofTokens
  dsimp only
  split <;> exact (rfl : initial = initial)

/-- A token stream that is accepted is a balanced program. -/
theorem moves_ofTokens (accepted : (Program.ofTokens tokens).fault = none) :
    ∃ ds O, (Program.ofTokens tokens).steps.toList.map (·.directive) = ds ++ [.endScript] ∧
      Moves ds initial O ∧ Complete O := by
  have declarations : Leads (repeatWhile do
      if ← check .eof then return false
      parseGoal (4 * tokens.length + 8) .declaration
      return true) initial fun _ M => Declared initial M := by
    refine leads_repeatWhile (Declared initial) (.refl _) fun M h => ?_
    refine leads_seq leads_check fun last => ?_
    split
    · exact leads_pure h
    refine leads_bind ((reads_parseGoal _).declaration M (h.ready rfl)
      (h.calm ⟨rfl, rfl, rfl⟩) (h.declaring (.inl rfl))) fun _ N h' => leads_pure (h.trans h')
  unfold Program.ofTokens at accepted ⊢
  split at accepted
  swap
  · cases accepted
  rename_i c hc
  change EStateM.bind _ _ _ = _ at hc
  unfold EStateM.bind at hc
  split at hc
  swap
  · cases hc
  rename_i d hd
  obtain ⟨O, ⟨new, started, rfl, none⟩, hO⟩ := declarations _ at_ofTokens _ _ hd
  cases hc
  refine ⟨_, _, ?_, hO, rfl, ⟨rfl, rfl, rfl⟩, rfl, ?_, rfl, rfl, rfl⟩
  · simp
  · simp [none rfl, initial, Level.ofKind, FunctionKind.slotName, FunctionKind.hasReceiver]

end Programs

end ScriptEngine
