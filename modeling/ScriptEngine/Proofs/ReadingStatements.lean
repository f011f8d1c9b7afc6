import ScriptEngine.Proofs.ReadingExpressions

/-!
# Statements leave nothing

A statement leaves the outline as it was and a block only adds the variables that
it declares. A function adds a level and takes it away again; its closure becomes
a value, or the variable that was declared for it.
-/
namespace ScriptEngine

open Grammar Outline

section Declarations
variable {O M N : Outline}

theorem Declared.refl (O : Outline) : Declared O O := ⟨[], O.here.started, rfl, fun _ => rfl⟩

theorem Declared.trans (h : Declared O M) (k : Declared M N) : Declared O N := by
  obtain ⟨new, s, rfl, hn⟩ := h
  obtain ⟨new', s', rfl, hn'⟩ := k
  refine ⟨new' ++ new, s', by simp, fun global => ?_⟩
  rw [hn global, hn' global]
  rfl

theorem declared_touch (O : Outline) : Declared O (O.pushes 0) :=
  ⟨[], true, rfl, fun _ => rfl⟩

theorem Declared.ready (h : Declared O M) (ready : O.ready = false) : M.ready = false := by
  obtain ⟨_, _, rfl, -⟩ := h
  exact ready

theorem Declared.calm (h : Declared O M) (calm : O.here.Calm) : M.here.Calm := by
  obtain ⟨_, _, rfl, -⟩ := h
  exact calm

theorem Declared.declaring (h : Declared O M) (declaring : O.here.Declaring) :
    M.here.Declaring := by
  obtain ⟨new, _, rfl, -⟩ := h
  rcases declaring with opens | ⟨base, os, opens, below⟩
  · exact .inl opens
  · refine .inr ⟨base, os, opens, ?_⟩
    simp only [List.length_append]
    omega

theorem Outline.Level.Calm.plain {O : Outline} (calm : O.here.Calm) (ready : O.ready = false) :
    O.Plain := by
  refine ⟨ready, ?_, calm.usual⟩
  rw [calm.2.1]
  rfl

end Declarations

section Statements
variable {parse : Goal → Parser Unit} {O : Outline}

/-- A block of a function or of a scope. -/
theorem leads_block (reads : Reads parse) (ready : O.ready = false) (calm : O.here.Calm)
    (declaring : O.here.Declaring) : Leads (block parse) O fun _ M => Declared O M := by
  unfold block
  refine leads_bind (leads_repeatFrom (fun _ => Declared O) (fun _ => Declared O) (.refl O) ?_)
    fun _ M h => leads_mono leads_expect fun _ _ e => e ▸ h
  intro noted M h
  refine leads_seq leads_currentKind fun leading => ?_
  split
  · exact leads_pure h
  refine leads_bind (reads.declaration M (h.ready ready) (h.calm calm) (h.declaring declaring))
    fun _ N h' => ?_
  have hN := h.trans h'
  split
  · refine leads_seq leads_check fun last => ?_
    split
    · exact leads_pure hN
    refine leads_seq leads_get fun c => ?_
    refine leads_seq (leads_quiet rfl ((hN.calm calm).plain (hN.ready ready))) fun _ => ?_
    exact leads_pure (hN.trans (declared_touch N))
  · exact leads_pure hN

theorem leads_scope (reads : Reads parse) (ready : O.ready = false) (calm : O.here.Calm) :
    Leads (do write .beginScope; block parse; write .endScope) O
      fun _ M => M = O.pushes 0 := by
  refine leads_seq (leads_level (.beginScope calm) ready) fun _ => ?_
  refine leads_bind (leads_block reads ready calm (.inr ⟨_, _, rfl, le_rfl⟩)) fun _ M h => ?_
  obtain ⟨new, started, rfl, -⟩ := h
  exact leads_level (.endScope calm rfl rfl) ready

theorem leads_expressionStatement (reads : Reads parse) (plain : O.Plain) :
    Leads (expressionStatement parse) O fun _ M => M = O.pushes 0 := by
  refine leads_seq (leads_expression reads plain) fun _ => ?_
  refine leads_seq leads_expect fun _ => ?_
  exact leads_effect 0 rfl rfl plain

theorem leads_valueStatement (reads : Reads parse) (plain : O.Plain) {what : String}
    {d : Directive} (effect : d.effect = some (1, 0)) (free : d.isFree) :
    Leads (valueStatement parse what d) O fun _ M => M = O.pushes 0 := by
  refine leads_seq (leads_expression reads plain) fun _ => ?_
  refine leads_seq leads_expect fun _ => ?_
  exact leads_effect 0 effect free plain

theorem leads_initializer (reads : Reads parse) (plain : O.Plain) :
    Leads (initializer parse) O fun _ M => M = O.pushes 1 := by
  refine leads_seq leads_accept fun b => ?_
  split
  · exact leads_expression reads plain
  · exact leads_first rfl rfl plain

theorem leads_throwStatement (reads : Reads parse) (plain : O.Plain) :
    Leads (throwStatement parse) O fun _ M => M = O.pushes 0 := by
  unfold throwStatement
  refine leads_seq (leads_quiet rfl plain) fun _ => ?_
  refine leads_seq leads_accept fun b => ?_
  dsimp only
  split
  · refine leads_seq (leads_value 0 rfl rfl plain) fun _ => ?_
    exact leads_effect 0 rfl rfl plain
  · refine leads_seq (leads_operand reads 0 plain) fun _ => ?_
    refine leads_seq leads_expect fun _ => ?_
    exact leads_effect 0 rfl rfl plain

theorem leads_registerStatement (reads : Reads parse) (plain : O.Plain) :
    Leads (registerStatement parse) O fun _ M => M = O.pushes 0 := by
  refine leads_seq leads_expectName fun name => ?_
  refine leads_seq (leads_quiet rfl plain) fun _ => ?_
  refine leads_seq (leads_operand reads 0 plain) fun _ => ?_
  refine leads_seq leads_expect fun _ => ?_
  exact leads_effect 0 rfl rfl plain

/-- A return leaves with all temporaries that there are. -/
theorem leads_return {n : Nat} (calm : O.here.Calm) (ready : O.ready = false) (low : 1 ≤ n)
    (high : n ≤ 255) :
    Leads (write (.plain (.ret (UInt8.ofNat n)))) (O.pushes n)
      fun _ M => M = O.pushes 0 := by
  have count : (UInt8.ofNat n).toNat = n := by
    rw [UInt8.toNat_ofNat', Nat.mod_eq_of_lt (by omega)]
  refine leads_level (L := O.here.pushes 0) ?_ ready
  refine .simple (τ := List.replicate n .value) (show _ = some (n, 0) from ?_) rfl (by simp)
    (by simp +contextual [Held.isValue]) ((calm.plain ready).pushes n).2 ?_ (fun h e => nomatch e)
    (fun e => nomatch e)
  · simp [Directive.effect, Instruction.effect, count]
  · intro m h e
    cases e
    exact ⟨by omega, calm.2.2⟩

theorem leads_returnTuple (reads : Reads parse) (ready : O.ready = false)
    (calm : O.here.Calm) :
    Leads (returnTuple parse) (O.pushes 0) fun _ M => M = O.pushes 0 := by
  unfold returnTuple
  refine leads_seq leads_advance fun _ => ?_
  refine leads_bind (leads_repeatFrom (fun n M => M = O.pushes n)
    (fun n M => 1 ≤ n ∧ M = O.pushes n) rfl ?_) fun n M h => ?_
  · rintro n M rfl
    refine leads_seq (leads_operand reads n (calm.plain ready)) fun _ => ?_
    refine leads_seq leads_accept fun more => leads_pure ?_
    split
    · rfl
    · exact ⟨by omega, rfl⟩
  · obtain ⟨low, rfl⟩ := h
    dsimp only
    split
    · exact leads_bind leads_failBefore fun _ _ h => h
    refine leads_seq leads_expect fun _ => ?_
    refine leads_seq leads_expect fun _ => ?_
    exact leads_return calm ready low (by omega)

theorem leads_returnStatement (reads : Reads parse) (ready : O.ready = false)
    (calm : O.here.Calm) :
    Leads (returnStatement parse) O fun _ M => M = O.pushes 0 := by
  have plain := calm.plain ready
  unfold returnStatement
  refine leads_seq (leads_quiet rfl plain) fun _ => ?_
  refine leads_seq leads_accept fun b => ?_
  split
  · exact leads_level (.implicitReturn calm) ready
  refine leads_seq (leads_quietly 0 rfl plain) fun _ => ?_
  refine leads_seq leads_get fun c => ?_
  split
  · exact leads_returnTuple reads ready calm
  · refine leads_seq (leads_operand reads 0 plain) fun _ => ?_
    refine leads_seq leads_expect fun _ => ?_
    exact leads_return calm ready (n := 1) (by decide) (by decide)

/-! ## Variables -/

theorem leads_variable (reads : Reads parse) (ready : O.ready = false) (calm : O.here.Calm)
    (declaring : O.here.Declaring) {name : String} :
    Leads (do write (.declare name); initializer parse; write (.define name)) O
      fun _ M => Declared O M := by
  by_cases inScope : O.here.inScope
  · refine leads_seq (leads_level (.declare calm declaring inScope) ready) fun _ => ?_
    refine leads_seq (leads_initializer reads ⟨ready, rfl, calm.usual.temps, calm.usual.region⟩) fun _ => ?_
    refine leads_mono (leads_level (.define (e := .value) ?_ rfl rfl calm.2.2 declaring inScope)
      ready) ?_
    · simp [Outline.pushes, Level.pushes, Level.touch, calm.1]
    · rintro _ _ rfl
      refine ⟨[name], true, ?_, by simp [inScope]⟩
      simp [Outline.pushes, Level.pushes, Level.setTemps, Level.touch, calm.1, calm.2.1]
  · have global : O.here.inScope = false := by simpa using inScope
    refine leads_seq (leads_level (.declareGlobal calm global) ready) fun _ => ?_
    refine leads_seq (leads_initializer reads ((calm.plain ready).pushes 0)) fun _ => ?_
    refine leads_mono (leads_level (.defineGlobal (e := .value) ?_ rfl calm.2.1 calm.2.2 global)
      ready) ?_
    · simp [Outline.pushes, Level.pushes, Level.touch, calm.1]
    · rintro _ _ rfl
      refine ⟨[], true, ?_, fun _ => rfl⟩
      simp [Outline.pushes, Level.pushes, Level.setTemps, Level.touch, calm.1]

theorem leads_defineMany (ready : O.ready = false) (calm : O.here.Calm)
    (declaring : O.here.Declaring) (names : List String) :
    Leads (write (.defineMany names)) (O.pushes names.length) fun _ M => Declared O M := by
  have temps : (O.pushes names.length).here.temps = List.replicate names.length .value := by
    simp [Outline.pushes, Level.pushes, calm.1]
  by_cases inScope : O.here.inScope
  · refine leads_mono (leads_level (.defineMany temps calm.2.1 calm.2.2 declaring inScope) ready) ?_
    rintro _ _ rfl
    refine ⟨names.reverse, true, ?_, by simp [inScope]⟩
    simp [Outline.pushes, Level.pushes, Level.setTemps, calm.1]
  · have global : O.here.inScope = false := by simpa using inScope
    refine leads_mono (leads_level (.defineManyGlobal temps calm.2.1 calm.2.2 global) ready) ?_
    rintro _ _ rfl
    refine ⟨[], true, ?_, fun _ => rfl⟩
    simp [Outline.pushes, Level.pushes, Level.setTemps, calm.1]

/-- A region leaves as many values as there are names. -/
theorem leads_multiVariables (reads : Reads parse) (ready : O.ready = false)
    (calm : O.here.Calm) (declaring : O.here.Declaring) :
    Leads (multiVariables parse) O fun _ M => Declared O M := by
  unfold multiVariables
  refine leads_bind (leads_repeatFrom (fun (_ : List String) M => M = O) (fun _ M => M = O) rfl ?_)
    fun names M h => ?_
  · rintro names M rfl
    refine leads_seq leads_expectName fun name => ?_
    refine leads_seq leads_accept fun more => leads_pure ?_
    split <;> rfl
  subst h
  dsimp only
  split
  · exact leads_bind leads_failBefore fun _ _ h => h
  rename_i few
  refine leads_seq leads_expect fun _ => ?_
  refine leads_seq leads_expect fun _ => ?_
  refine leads_seq leads_currentKind fun kind => ?_
  refine leads_seq leads_secondKind fun second => ?_
  split
  · exact leads_bind leads_failHere fun _ _ h => h
  obtain ⟨⟨kind, role, vars, fixed, temps, region, pending, opens, started⟩, outer, aside, _⟩ := M
  obtain ⟨rfl, rfl, rfl⟩ := calm
  cases ready
  refine leads_seq (leads_level (.start rfl rfl rfl) rfl) fun _ => ?_
  refine leads_seq (leads_expression reads ⟨rfl, rfl, Level.usual_empty rfl (by rintro s ⟨⟩)⟩) fun _ => ?_
  refine leads_seq (leads_level (.finish (e := .value) rfl rfl rfl rfl) rfl) fun _ => ?_
  refine leads_seq (leads_level (.byte (e := .value) rfl rfl rfl) rfl) fun _ => ?_
  refine leads_seq (leads_level (.validate (e := .value) rfl rfl rfl rfl) rfl) fun _ => ?_
  refine leads_seq leads_expect fun _ => ?_
  have count : (UInt8.ofNat names.length).toNat = names.length := by
    rw [UInt8.toNat_ofNat', Nat.mod_eq_of_lt (by omega)]
  have define := leads_defineMany (O := ⟨⟨kind, role, vars, fixed, [], .none, .none, opens, started⟩,
    outer, aside, false⟩) rfl ⟨rfl, rfl, rfl⟩ declaring names
  simp only [count]
  simpa [Outline.pushes, Level.pushes, Level.setTemps, Level.touch] using define

theorem leads_varStatement (reads : Reads parse) (ready : O.ready = false)
    (calm : O.here.Calm) (declaring : O.here.Declaring) :
    Leads (varStatement parse) O fun _ M => Declared O M := by
  unfold varStatement
  refine leads_seq leads_accept fun b => ?_
  split
  · exact leads_multiVariables reads ready calm declaring
  refine leads_bind (leads_commaSeparated (Declared O) (.refl O) fun M h => ?_)
    fun _ M h => leads_mono leads_expect fun _ _ e => e ▸ h
  refine leads_seq leads_expectName fun name => ?_
  exact leads_mono (leads_variable reads (h.ready ready) (h.calm calm) (h.declaring declaring))
    fun _ _ h' => h.trans h'

/-! ## Control -/

theorem leads_condition (reads : Reads parse) (plain : O.Plain) {keyword : String} :
    Leads (condition parse keyword) O fun _ M => M = O.pushes 1 := by
  unfold condition
  refine leads_seq leads_expect fun _ => ?_
  exact leads_bind (leads_expression reads plain) fun _ _ h => h ▸ leads_expect

theorem leads_ifStatement (reads : Reads parse) (ready : O.ready = false)
    (calm : O.here.Calm) : Leads (ifStatement parse) O fun _ M => M = O.pushes 0 := by
  obtain ⟨⟨kind, role, vars, fixed, temps, region, pending, opens, started⟩, outer, aside, _⟩ := O
  obtain ⟨rfl, rfl, rfl⟩ := calm
  cases ready
  unfold ifStatement
  refine leads_seq (leads_condition reads (Outline.Level.Calm.plain ⟨rfl, rfl, rfl⟩ rfl)) fun _ => ?_
  refine leads_seq (leads_level (.branch (e := .value) rfl rfl rfl rfl) rfl) fun _ => ?_
  refine leads_seq (reads.statement _ rfl ⟨rfl, rfl, rfl⟩) fun _ => ?_
  refine leads_seq (leads_level (.branchElse ⟨rfl, rfl, rfl⟩ rfl) rfl) fun _ => ?_
  refine leads_seq leads_accept fun b => ?_
  split
  · refine leads_seq (reads.statement _ rfl ⟨rfl, rfl, rfl⟩) fun _ => ?_
    exact leads_level (.branchEnd ⟨rfl, rfl, rfl⟩ rfl) rfl
  · exact leads_level (.branchEnd ⟨rfl, rfl, rfl⟩ rfl) rfl

theorem leads_whileStatement (reads : Reads parse) (ready : O.ready = false)
    (calm : O.here.Calm) : Leads (whileStatement parse) O fun _ M => M = O.pushes 0 := by
  obtain ⟨⟨kind, role, vars, fixed, temps, region, pending, opens, started⟩, outer, aside, _⟩ := O
  obtain ⟨rfl, rfl, rfl⟩ := calm
  cases ready
  unfold whileStatement
  refine leads_seq (leads_level (.whileStart ⟨rfl, rfl, rfl⟩) rfl) fun _ => ?_
  refine leads_seq (leads_condition reads (Outline.Level.Calm.plain ⟨rfl, rfl, rfl⟩ rfl)) fun _ => ?_
  refine leads_seq (leads_level (.whileBody (e := .value) rfl rfl rfl rfl rfl) rfl) fun _ => ?_
  refine leads_seq (reads.statement _ rfl ⟨rfl, rfl, rfl⟩) fun _ => ?_
  exact leads_level (.whileEnd ⟨rfl, rfl, rfl⟩ rfl) rfl

theorem leads_loopStatement (reads : Reads parse) (ready : O.ready = false)
    (calm : O.here.Calm) : Leads (loopStatement parse) O fun _ M => M = O.pushes 0 := by
  unfold loopStatement
  refine leads_seq (leads_level (.loopStart calm) ready) fun _ => ?_
  refine leads_seq (reads.statement _ ready calm) fun _ => ?_
  exact leads_level (.loopEnd calm rfl) ready

theorem leads_jumpStatement (ready : O.ready = false) (calm : O.here.Calm) {keyword : String}
    {jump : Directive} (move : ∀ L, L.Calm → LevelMove jump L L.touch) :
    Leads (jumpStatement keyword jump) O fun _ M => M = O.pushes 0 := by
  unfold jumpStatement
  refine leads_seq (leads_quiet rfl (calm.plain ready)) fun _ => ?_
  refine leads_seq leads_expect fun _ => ?_
  exact leads_level (move _ calm) ready

/-- The head of a `for` declares variables in a scope of its own. -/
theorem leads_forHead (reads : Reads parse) (ready : O.ready = false) (calm : O.here.Calm)
    (declaring : O.here.Declaring) {β : Type} {rest : Parser β} {Q : β → Outline → Prop}
    (h : ∀ M, Declared O M → Leads rest M Q) :
    Leads (do
      if ← accept .semicolon then pure ()
      else if ← accept .varWord then varStatement parse
      else expressionStatement parse
      rest) O Q := by
  refine leads_seq leads_accept fun b => ?_
  dsimp only
  split
  · exact h _ (.refl O)
  refine leads_seq leads_accept fun b => ?_
  split
  · exact leads_bind (leads_varStatement reads ready calm declaring) fun _ M hM => h M hM
  · refine leads_bind (leads_expressionStatement reads (calm.plain ready)) fun _ M hM => ?_
    subst hM
    exact h _ (declared_touch O)

theorem leads_forStatement (reads : Reads parse) (ready : O.ready = false)
    (calm : O.here.Calm) : Leads (forStatement parse) O fun _ M => M = O.pushes 0 := by
  obtain ⟨⟨kind, role, vars, fixed, temps, region, pending, opens, started⟩, outer, aside, _⟩ := O
  obtain ⟨rfl, rfl, rfl⟩ := calm
  cases ready
  unfold forStatement
  refine leads_seq (leads_level (.beginScope ⟨rfl, rfl, rfl⟩) rfl) fun _ => ?_
  refine leads_seq leads_expect fun _ => ?_
  refine leads_forHead reads rfl ⟨rfl, rfl, rfl⟩ (.inr ⟨_, _, rfl, le_rfl⟩) fun M h => ?_
  obtain ⟨new, started', rfl, -⟩ := h
  refine leads_seq (leads_level (.forStart ⟨rfl, rfl, rfl⟩) rfl) fun _ => ?_
  -- the outline at each stage of the head
  let at' (phase : Phase) : Outline := ⟨⟨kind, role, new ++ vars, fixed, [], .none, .none,
    .loop phase :: .scope vars.length :: opens, true⟩, outer, aside, false⟩
  have body (phase : Phase) (h : phase = .forTest ∨ phase = .forTested ∨ phase = .forStepped) :
      Leads (do write .forBody; parse .statement; write .forEnd; write .endScope) (at' phase)
        fun _ M => M = ⟨⟨kind, role, vars, fixed, [], .none, .none, opens, true⟩, outer, aside, false⟩ := by
    refine leads_seq (leads_level (.forBody ⟨rfl, rfl, rfl⟩ rfl h) rfl) fun _ => ?_
    refine leads_seq (reads.statement _ rfl ⟨rfl, rfl, rfl⟩) fun _ => ?_
    refine leads_seq (leads_level (.forEnd ⟨rfl, rfl, rfl⟩ rfl) rfl) fun _ => ?_
    exact leads_level (.endScope ⟨rfl, rfl, rfl⟩ rfl rfl) rfl
  have step (phase : Phase) (h : phase = .forTest ∨ phase = .forTested) :
      Leads (do
        unless ← accept .closeParen do
          write .forStep
          expression parse
          write .forStepEnd
          expect .closeParen "')' after for clauses"
        write .forBody
        parse .statement
        write .forEnd
        write .endScope) (at' phase)
        fun _ M => M = ⟨⟨kind, role, vars, fixed, [], .none, .none, opens, true⟩, outer, aside, false⟩ := by
    refine leads_seq leads_accept fun b => ?_
    dsimp only
    split
    · exact body phase (h.imp_right .inl)
    refine leads_seq (leads_level (.forStep ⟨rfl, rfl, rfl⟩ rfl h) rfl) fun _ => ?_
    refine leads_seq (leads_expression reads ⟨rfl, rfl, Level.usual_empty rfl nofun⟩) fun _ => ?_
    refine leads_seq (leads_level (.forStepEnd (e := .value) rfl rfl rfl rfl rfl) rfl) fun _ => ?_
    exact leads_seq leads_expect fun _ => body .forStepped (.inr (.inr rfl))
  refine leads_seq leads_accept fun b => ?_
  dsimp only
  split
  · exact step .forTest (.inl rfl)
  refine leads_seq (leads_expression reads ⟨rfl, rfl, Level.usual_empty rfl nofun⟩) fun _ => ?_
  refine leads_seq leads_expect fun _ => ?_
  refine leads_seq (leads_level (.forCondition (e := .value) rfl rfl rfl rfl rfl) rfl) fun _ => ?_
  exact step .forTested (.inr rfl)

theorem leads_statement (reads : Reads parse) (ready : O.ready = false)
    (calm : O.here.Calm) : Leads (statement parse) O fun _ M => M = O.pushes 0 := by
  have plain := calm.plain ready
  refine leads_seq leads_currentKind fun kind => ?_
  split
  · rename_i rule hrule
    refine leads_seq leads_advance fun _ => ?_
    unfold statementRule? at hrule
    split at hrule <;> cases hrule
    · exact leads_scope reads ready calm
    · exact leads_ifStatement reads ready calm
    · exact leads_whileStatement reads ready calm
    · exact leads_forStatement reads ready calm
    · exact leads_loopStatement reads ready calm
    · exact leads_jumpStatement ready calm (fun _ => .breakLoop)
    · exact leads_jumpStatement ready calm (fun _ => .continueLoop)
    · exact leads_returnStatement reads ready calm
    · exact leads_throwStatement reads plain
    · refine leads_seq leads_expect fun _ => ?_
      refine leads_level (.simple (τ := []) rfl rfl rfl (by simp) plain.2 ?_ ?_ ?_) ready
      · exact fun n h e => nomatch e
      · exact fun _ _ => calm.2.2
      · exact fun e => nomatch e
    · exact leads_valueStatement reads plain rfl rfl
    · exact leads_valueStatement reads plain rfl rfl
    · exact leads_valueStatement reads plain rfl rfl
    · exact leads_registerStatement reads plain
  · exact leads_expressionStatement reads plain

/-! ## Functions -/

/-- What the head of a function adds to its level. -/
def HeadRead (O O' : Outline) : Prop :=
  ∃ new started, O' = { O with here := { O.here with
    vars := new ++ O.here.vars, fixed := O.here.fixed + new.length, started } }

theorem HeadRead.refl (O : Outline) : HeadRead O O := ⟨[], O.here.started, rfl⟩

theorem HeadRead.trans {O M N : Outline} (h : HeadRead O M) (k : HeadRead M N) : HeadRead O N := by
  obtain ⟨new, s, rfl⟩ := h
  obtain ⟨new', s', rfl⟩ := k
  exact ⟨new' ++ new, s', by simp [Nat.add_comm, Nat.add_assoc]⟩

theorem leads_parameters (ready : O.ready = false) (calm : O.here.Calm) (opens : O.here.opens = [])
    (fresh : O.here.started = false) (inner : O.here.kind ≠ .script) :
    Leads parameters O fun _ M => HeadRead O M ∧ M.here.started = false := by
  unfold parameters
  refine leads_seq leads_check fun b => ?_
  dsimp only
  split
  · exact leads_mono leads_expect fun _ _ e => by subst e; exact ⟨.refl _, fresh⟩
  refine leads_bind (leads_repeatFrom (fun _ M => HeadRead O M ∧ M.here.started = false)
    (fun _ M => HeadRead O M ∧ M.here.started = false) ⟨.refl O, fresh⟩ ?_)
    fun _ M h => leads_mono leads_expect fun _ _ e => e ▸ h
  rintro count M ⟨⟨new, started, rfl⟩, fresh⟩
  split
  · exact leads_bind leads_failHere fun _ _ h => h
  refine leads_seq leads_expectName fun name => ?_
  refine leads_seq (leads_level (.parameter calm opens fresh inner) ready) fun _ => ?_
  refine leads_seq leads_accept fun more => leads_pure ?_
  have step : HeadRead O { O with here := { O.here with
      vars := name :: (new ++ O.here.vars), fixed := O.here.fixed + new.length + 1, started } } :=
    ⟨name :: new, started, by simp [Nat.add_assoc]⟩
  split <;> exact ⟨step, fresh⟩

theorem leads_resultNames (ready : O.ready = false) (calm : O.here.Calm)
    (opens : O.here.opens = []) (fixed : O.here.vars.length = O.here.fixed)
    (inner : O.here.kind ≠ .script) :
    Leads resultNames O fun _ M => HeadRead O M := by
  unfold resultNames
  refine leads_seq leads_accept fun b => ?_
  split
  · refine leads_bind (leads_commaSeparated (HeadRead O) (.refl O) ?_)
      fun _ M h => leads_mono leads_expect fun _ _ e => e ▸ h
    rintro M ⟨new, started, rfl⟩
    refine leads_seq leads_expectName fun name => ?_
    refine leads_mono (leads_level (.resultName calm opens (by simp; omega) inner) ready) ?_
    rintro _ _ rfl
    exact ⟨name :: new, true, by simp [Level.touch, Nat.add_assoc]⟩
  · exact leads_pure (.refl O)

theorem leads_modifiers {m : Modifiers} : Leads (modifiers m) O fun _ M => M = O := by
  refine leads_repeatFrom (fun _ M => M = O) (fun _ M => M = O) rfl ?_
  rintro m M rfl
  refine leads_seq leads_accept fun b => ?_
  split
  · exact leads_pure rfl
  refine leads_seq leads_accept fun b => ?_
  split <;> exact leads_pure rfl

theorem leads_function (reads : Reads parse) {kind : FunctionKind} {name : String}
    {m : Modifiers} {fields : List String} (named : kind ≠ .script ∧ kind ≠ .initChain)
    (ready : O.ready = false) (usual : O.here.Usual)
    (pending : O.here.pending.isFunction →
      O.here.temps = [] ∧ O.here.region = .none ∧ O.here.Declaring ∧ O.here.inScope) :
    Leads (function parse kind name m fields) O
      fun _ M => M = { O with here := O.here.receive } := by
  obtain ⟨E, outer, aside, _⟩ := O
  cases ready
  unfold function
  refine leads_seq (leads_write (.beginFunction named)) fun _ => ?_
  refine leads_seq leads_expect fun _ => ?_
  refine leads_bind (leads_parameters rfl ⟨rfl, rfl, rfl⟩ rfl rfl named.1) fun _ M h => ?_
  obtain ⟨⟨new, started, rfl⟩, -⟩ := h
  refine leads_bind (leads_resultNames rfl ⟨rfl, rfl, rfl⟩ rfl ?_ named.1) fun _ M h => ?_
  · simp [Level.ofKind, Nat.add_comm]
  obtain ⟨new', started', rfl⟩ := h
  -- the body may follow a store of the parameters
  have body (vars : List String) (fixed : Nat) (started : Bool) :
      Leads (do
        expect .openBrace "'\x7b' before function body"
        block parse
        write .endFunction)
        ⟨{ Level.ofKind kind with vars := vars, fixed := fixed, started := started }, E.touch :: outer,
          aside, false⟩
        fun _ M => M = ⟨E.receive, outer, aside, false⟩ := by
    refine leads_seq leads_expect fun _ => ?_
    refine leads_bind (leads_block reads rfl ⟨rfl, rfl, rfl⟩ (.inl rfl)) fun _ M h => ?_
    obtain ⟨new, started, rfl, -⟩ := h
    exact leads_write (.endFunction ⟨rfl, rfl, rfl⟩ rfl rfl named.1 pending ⟨usual.temps, usual.region⟩)
  dsimp only
  split
  · rename_i init
    refine leads_seq (leads_level (.storeMatching ⟨rfl, rfl, rfl⟩ init) rfl) fun _ => ?_
    exact body _ _ _
  · exact body _ _ _

end Statements

end ScriptEngine
