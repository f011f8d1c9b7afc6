import ScriptEngine.Proofs.FittingDirectives

/-!
# Statements fit

Between statements nothing need be known of values, so each directive is a few instructions
behind which the trace is forgotten. The labels of branches and loops wait for no trace.
-/
namespace ScriptEngine

open Assembler Piece Trace

section Stands
variable {G : Ground} {ws : List (UInt16 × Trace)} {cs : List Control} {s : Nat} {t : Trace} {a : Assembler}

/-! ## Scopes and declarations -/

theorem stands_pushLocal (h : Stands G ws cs s t a) (name : String) : Safely (pushLocal name) a fun _ => Stands G ws cs s t := by
  refine safely_bind (safely_getBody ?_)
  split_ifs
  · exact safely_bind (safely_throw rfl)
  · exact stands_modifyBody h rfl rfl rfl

theorem stands_declareLocal (h : Stands G ws cs s t a) (name : String) :
    Safely (declareLocal name) a fun _ => Stands G ws cs s t := by
  refine safely_bind (safely_getBody ?_)
  split_ifs
  · exact safely_pure h
  · exact safely_bind (safely_throw rfl)
  · exact stands_pushLocal h name

theorem stands_complete (h : Stands G ws cs s t a) : Safely complete a fun _ => Stands G ws cs s t := by
  refine stands_modifyBody h ?_ ?_ ?_
  all_goals
    split_ifs
    · rfl
    · split <;> rfl

theorem stands_declare (h : Stands G ws cs s t a) (name : String) : Safely (declare name) a fun _ => Stands G ws cs s t := by
  refine safely_bind (safely_getBody ?_)
  split_ifs
  · exact stands_declareLocal h name
  · exact safely_then (stands_nameConstant h name) fun _ _ h => safely_pure h

/-- Outside of all scopes there is only the script, which is not pure. -/
theorem Stands.impure (h : Stands G ws cs s t a) (outside : ¬ a.body.depth > 0) : G.site.modifiers.isPure → False := by
  intro pure
  obtain ⟨want, traced, -⟩ := h.here
  have := traced.deep pure
  omega

theorem stands_define (h : Stands G ws cs s t a) (name : String) : Safely (define name) a fun _ a' => ∃ u, Stands G ws cs s u a' := by
  refine safely_bind (safely_getBody ?_)
  split_ifs with inside
  · exact safely_mono (stands_complete h) fun _ _ h => ⟨t, h⟩
  · exact safely_then (stands_nameConstant h name) fun n _ h' =>
      safely_mono (stands_calm h' rfl fun pure => (h.impure inside pure).elim) fun _ _ h => ⟨[], h⟩

theorem stands_defineMany (h : Stands G ws cs s t a) (names : List String) :
    Safely (defineMany names) a fun _ a' => ∃ u, Stands G ws cs s u a' := by
  refine safely_bind (safely_getBody ?_)
  split_ifs with inside
  · refine safely_forM ⟨t, h⟩ ?_
    rintro name a ⟨u, h⟩
    exact safely_then (stands_declareLocal h name) fun _ _ h => safely_mono (stands_complete h) fun _ _ h => ⟨u, h⟩
  · refine safely_then (safely_mapM h fun name a h => stands_nameConstant h name) fun indices a' h' => ?_
    refine safely_forM (I := fun a => ∃ u, Stands G ws cs s u a) ⟨t, h'⟩ ?_
    rintro n a ⟨u, h'⟩
    exact safely_mono (stands_calm h' rfl fun pure => (h.impure inside pure).elim) fun _ _ h => ⟨[], h⟩

theorem stands_emitDrops (h : Stands G ws cs s t a) (depth : Nat) :
    Safely (emitDrops depth) a fun _ a' => ∃ u, Stands G ws cs s u a' := by
  refine safely_bind (safely_getBody (safely_forM ⟨t, h⟩ ?_))
  rintro l a ⟨u, h⟩
  refine safely_mono (stands_calm h ?_ fun _ => ?_) fun _ _ h => ⟨[], h⟩
  · unfold dropInstruction
    split <;> rfl
  · unfold dropInstruction
    split <;> rfl

theorem stands_beginScope (h : Stands G ws cs s t a) : Safely beginScope a fun _ => Stands G ws cs (s + 1) t := by
  obtain ⟨want, traced, rest⟩ := h.here
  exact safely_modify ⟨h.around.same rfl rfl rfl rfl, want, ⟨traced.kind_eq, traced.modifiers_eq, traced.thread,
    traced.control, fun pure => Nat.succ_lt_succ (traced.deep pure), traced.fills⟩, rest⟩

theorem stands_endScope (h : Stands G ws cs (s + 1) t a) : Safely endScope a fun _ a' => ∃ u, Stands G ws cs s u a' := by
  have up {a : Assembler} (h : Stands G ws cs (s + 1) t a) :
      Stands G ws cs s t { a with body := { a.body with depth := a.body.depth - 1 } } := by
    obtain ⟨want, traced, rest⟩ := h.here
    refine ⟨h.around.same rfl rfl rfl rfl, want, ⟨traced.kind_eq, traced.modifiers_eq, traced.thread,
      traced.control, fun pure => ?_, traced.fills⟩, rest⟩
    have := traced.deep pure
    dsimp only
    omega
  refine safely_bind (safely_modify (safely_bind (safely_getBody ?_)))
  refine safely_then (stands_emitDrops (up h) _) ?_
  rintro _ a' ⟨u, h⟩
  exact safely_mono (stands_modifyBody h rfl rfl rfl) fun _ _ h => ⟨u, h⟩

/-! ## The heads of functions -/

/-- The index of a name, put where the chunk keeps such names. -/
theorem stands_listed (h : Stands G ws cs s t a) (name : String) {f : UInt16 → Chunk → Chunk}
    (code : ∀ n c, (f n c).code = c.code) (labels : ∀ n c, (f n c).labels = c.labels) (kind : ∀ n c, (f n c).kind = c.kind)
    (modifiers : ∀ n c, (f n c).modifiers = c.modifiers) : Safely (do
      let index ← nameConstant name
      modifyChunk (f index)) a fun _ => Stands G ws cs s t :=
  safely_then (stands_nameConstant h name) fun n _ h => safely_modify
    (h.books (h.around.same rfl rfl rfl rfl) (code n _) (labels n _) (kind n _) (modifiers n _) rfl rfl)

theorem stands_parameter (h : Stands G ws cs s t a) (name : String) : Safely (parameter name) a fun _ => Stands G ws cs s t :=
  safely_then (stands_declareLocal h name) fun _ _ h => safely_then (stands_complete h) fun _ _ h =>
    stands_listed h name (fun _ _ => rfl) (fun _ _ => rfl) (fun _ _ => rfl) fun _ _ => rfl

theorem stands_resultName (h : Stands G ws cs s t a) (name : String) : Safely (resultName name) a fun _ => Stands G ws cs s [] :=
  safely_then (stands_calm h rfl fun _ => rfl) fun _ _ h => safely_then (stands_declareLocal h name) fun _ _ h =>
    safely_then (stands_complete h) fun _ _ h =>
      stands_listed h name (fun _ _ => rfl) (fun _ _ => rfl) (fun _ _ => rfl) fun _ _ => rfl

theorem stands_storeMatching (h : Stands G ws cs s t a) (impure : G.site.modifiers.isPure = false) (fields : List String) :
    Safely (storeMatching fields) a fun _ a' => ∃ u, Stands G ws cs s u a' := by
  refine safely_bind (safely_getBody (safely_forM ⟨t, h⟩ ?_))
  rintro ⟨index, i⟩ a ⟨u, h⟩
  dsimp only
  split
  · split_ifs
    · refine safely_then (stands_calm h rfl fun _ => rfl) fun _ _ h => ?_
      refine safely_then (stands_calm h rfl fun _ => rfl) fun _ _ h => ?_
      refine safely_then (stands_calm h rfl fun pure => by simp [impure] at pure) fun _ _ h => ?_
      exact safely_mono (stands_calm h rfl fun _ => rfl) fun _ _ h => ⟨[], h⟩
    · exact safely_pure ⟨u, h⟩
  · exact safely_pure ⟨u, h⟩

theorem stands_implicitReturn (h : Stands G ws cs s t a) : Safely implicitReturn a fun _ => Stands G ws cs s [] := by
  refine safely_bind (safely_getBody ?_)
  dsimp only
  split_ifs
  · exact safely_then (stands_calm h rfl fun _ => rfl) fun _ _ h => stands_calm h rfl fun _ => rfl
  · exact safely_then (stands_calm h rfl fun _ => rfl) fun _ _ h => stands_calm h rfl fun _ => rfl
  · refine safely_then (safely_forM (I := fun a => ∃ u, Stands G ws cs s u a) ⟨t, h⟩ ?_) ?_
    · rintro i a ⟨u, h⟩
      exact safely_mono (stands_calm h rfl fun _ => rfl) fun _ _ h => ⟨[], h⟩
    · rintro _ a' ⟨u, h⟩
      exact stands_calm h rfl fun _ => rfl

/-! ## Leaving loops -/

theorem safely_currentLoop (keyword : String) {Q : Loop → Assembler → Prop}
    (found : ∀ l, innermostLoop? a.body.control = some l → Q l a) : Safely (currentLoop keyword) a Q := by
  refine safely_bind (safely_getBody ?_)
  split
  · rename_i l hl
    exact safely_pure (found l hl)
  · exact safely_throw rfl

/-- A jump to a label where nothing is known, past the locals of a loop. -/
theorem stands_leap {label : UInt16} (h : Stands G ws cs s t a) (mem : (label, []) ∈ ws) (depth : Nat) :
    Safely (do emitDrops depth; emit (.goto label)) a fun _ => Stands G ws cs s [] :=
  safely_then (stands_emitDrops h depth) fun _ _ ⟨_, h⟩ => stands_goto h mem knows_nil []

end Stands

section Fitted
variable {F : Site} {τ ρ : List Piece} {a : Assembler} {d : Directive} {p : Piece}

theorem fitted_continueLoop (h : Fitted ⟨F, ρ⟩ a) (bare : Bare ρ) : Safely continueLoop a fun _ => Fitted ⟨F, ρ⟩ := by
  obtain ⟨want, cs, t, h, laid⟩ := Fitted.stands flat_nil h
  refine safely_bind (safely_currentLoop "continue" fun l found => ?_)
  rw [h.control] at found
  have meets := laid.innermost found l.next (by simp [mem_labels])
  refine safely_mono (stands_leap (h.await meets) (.head _) l.depth) fun _ a' h => ?_
  exact Stands.fitted flat_nil h fun _ _ onward _ => (laid.follow onward).bare bare []

theorem fitted_breakLoop (h : Fitted ⟨F, ρ⟩ a) (bare : Bare ρ) : Safely breakLoop a fun _ => Fitted ⟨F, ρ⟩ := by
  obtain ⟨want, cs, t, h, laid⟩ := Fitted.stands flat_nil h
  refine safely_bind (safely_currentLoop "break" fun l found => ?_)
  rw [h.control] at found
  have meets := laid.innermost found l.exit (by simp [mem_labels])
  refine safely_then (stands_emitDrops (h.await meets) l.depth) fun _ a' ⟨u, h⟩ => ?_
  refine safely_then (stands_goto h (.head _) knows_nil []) fun _ a' h => safely_modify ?_
  obtain ⟨want', traced, onward, awaits⟩ := h.here
  have left : Stands ⟨F, (⟨F, ρ⟩ : Piles).flags, a.body.chunk, want⟩ [(l.exit, [])] (leaveInnermost cs) (scopes ρ) []
      { a' with body := { a'.body with control := leaveInnermost a'.body.control } } :=
    ⟨h.around.same rfl rfl rfl rfl, want', ⟨traced.kind_eq, traced.modifiers_eq, traced.thread,
      congrArg _ traced.control, traced.deep, traced.fills⟩, onward, awaits⟩
  exact Stands.fitted flat_nil left fun _ _ onward _ => ((laid.follow onward).bare bare []).leaveInnermost

/-- Directives that leave the pile as it is. -/
theorem fitted_still (h : Fitted ⟨F, ρ⟩ a) (still : d.isStill) (bare : Bare ρ) :
    Safely (perform d) a fun _ => Fitted ⟨F, ρ⟩ := by
  obtain ⟨want, cs, t, stands, laid⟩ := Fitted.stands flat_nil h
  have calm {u : Trace} {a' : Assembler} (h : Stands ⟨F, (⟨F, ρ⟩ : Piles).flags, a.body.chunk, want⟩ [] cs (scopes ρ) u a') :
      Fitted ⟨F, ρ⟩ a' := Stands.fitted flat_nil h fun _ _ onward _ => (laid.follow onward).bare bare u
  cases d with
  | declare name => exact safely_mono (stands_declare stands name) fun _ _ => calm
  | declareFunction name =>
    exact safely_then (stands_declare stands name) fun _ _ h => safely_mono (stands_complete h) fun _ _ => calm
  | parameter name => exact safely_mono (stands_parameter stands name) fun _ _ => calm
  | resultName name => exact safely_mono (stands_resultName stands name) fun _ _ => calm
  | implicitReturn => exact safely_mono (stands_implicitReturn stands) fun _ _ => calm
  | breakLoop => exact fitted_breakLoop h bare
  | continueLoop => exact fitted_continueLoop h bare
  | caseCheck =>
    refine safely_bind (safely_get ?_)
    split_ifs
    · exact safely_pure h
    · exact safely_throw rfl
  | plain i isPlain =>
    cases i with
    | multiVarStart => exact safely_mono (stands_calm stands rfl fun _ => rfl) fun _ _ => calm
    | _ => cases still
  | _ => cases still

theorem fitted_storeMatching (h : Fitted ⟨F, ρ⟩ a) (fills : F.kind.fills) (bare : Bare ρ) (fields : List String) :
    Safely (storeMatching fields) a fun _ => Fitted ⟨F, ρ⟩ := by
  have impure := h.impure fills
  obtain ⟨want, cs, t, h, laid⟩ := Fitted.stands flat_nil h
  refine safely_mono (stands_storeMatching h impure fields) fun _ a' ⟨u, h⟩ => ?_
  exact Stands.fitted flat_nil h fun _ _ onward _ => (laid.follow onward).bare bare u

/-- Values are used up, and others made of which nothing is known. -/
theorem fitted_calm {x : Assembly Unit} {n : Nat} (h : Fitted ⟨F, τ ++ ρ⟩ a) (temps : ∀ p ∈ τ, p.isTemp) (bare : Bare ρ)
    (calm : ∀ {G : Ground} {cs : List Control} {s : Nat} {t : Trace}, Stands G [] cs s t a →
      Safely x a fun _ a' => ∃ u, Stands G [] cs s u a') :
    Safely x a fun _ => Fitted ⟨F, List.replicate n .value ++ ρ⟩ := by
  obtain ⟨want, cs, t, h, laid⟩ := h.stands (flat_of_temps temps)
  refine safely_mono (calm h) fun _ a' ⟨u, h⟩ => ?_
  exact h.fitted (flat_values n) fun _ _ onward _ => over_values (((laid.temps temps).follow onward).bare bare _)

theorem fitted_definition (h : Fitted ⟨F, p :: ρ⟩ a) (defines : d.isDefinition) (temp : p.isTemp) (bare : Bare ρ) :
    Safely (perform d) a fun _ => Fitted ⟨F, ρ⟩ := by
  cases d with
  | define name => exact fitted_calm (τ := [p]) (n := 0) h (temps_singleton temp) bare fun h => stands_define h name
  | defineMany names => exact fitted_calm (τ := [p]) (n := 0) h (temps_singleton temp) bare fun h => stands_defineMany h names
  | _ => cases defines

/-- The same of one instruction. -/
theorem fitted_forget {i : Instruction} {n : Nat} (h : Fitted ⟨F, τ ++ ρ⟩ a) (temps : ∀ p ∈ τ, p.isTemp) (bare : Bare ρ)
    (target : i.target? = none) (still : i.stores = false) :
    Safely (emit i) a fun _ => Fitted ⟨F, List.replicate n .value ++ ρ⟩ :=
  fitted_calm h temps bare fun h => safely_mono (stands_calm h target fun _ => still) fun _ _ h => ⟨[], h⟩

theorem fitted_beginScope (h : Fitted ⟨F, ρ⟩ a) (bare : Bare ρ) : Safely beginScope a fun _ => Fitted ⟨F, .scope :: ρ⟩ := by
  obtain ⟨want, cs, t, h, laid⟩ := Fitted.stands flat_nil h
  refine safely_mono (stands_beginScope h) fun _ a' h => ?_
  obtain ⟨want', traced, onward, -⟩ := h.here
  exact ⟨h.around, want', cs, t, scopes_scope ρ ▸ traced, .scope ((laid.follow onward).bare bare [])⟩

theorem fitted_endScope (h : Fitted ⟨F, .scope :: ρ⟩ a) (bare : Bare ρ) : Safely endScope a fun _ => Fitted ⟨F, ρ⟩ := by
  obtain ⟨want, cs, t, h, laid⟩ := Fitted.stands flat_nil h
  rw [scopes_scope] at h
  refine safely_mono (stands_endScope h) fun _ a' ⟨u, h⟩ => ?_
  obtain ⟨want', traced, onward, -⟩ := h.here
  exact ⟨h.around, want', cs, u, traced, (laid.of_scope.follow onward).bare bare u⟩

/-! ## Branches and loops -/

theorem fitted_branch (h : Fitted ⟨F, p :: ρ⟩ a) (temp : p.isTemp) (bare : Bare ρ) :
    Safely branch a fun _ => Fitted ⟨F, .alternative :: ρ⟩ := by
  obtain ⟨want, cs, t, h, laid⟩ := Fitted.stands (τ := [p]) (flat_of_temps (temps_singleton temp)) h
  have rest := (laid.temp temp).bare bare []
  refine safely_then (stands_newLabel h _ []) fun otherwise a' h => ?_
  refine safely_then (stands_newLabel h _ []) fun finish a' h => ?_
  refine safely_then (stands_gotoIfFalse h (.tail _ (.head _)) knows_nil) fun _ a' h => ?_
  refine safely_then (stands_pop h) fun _ a' h => safely_mono (stands_pushControl h _) fun _ a' h => ?_
  exact Stands.fitted (τ := [.alternative]) (flat_singleton rfl) h fun _ _ onward awaits =>
    .alternative (awaits _ (.tail _ (.head _))) (awaits _ (.head _)) (rest.follow onward)

theorem fitted_branchElse (h : Fitted ⟨F, .alternative :: ρ⟩ a) :
    Safely branchElse a fun _ => Fitted ⟨F, .otherwise :: ρ⟩ := by
  obtain ⟨want, cs, t, h, laid⟩ := Fitted.stands (τ := [.alternative]) (flat_singleton rfl) h
  obtain ⟨otherwise, finish, cs, rfl, other, meets, rest⟩ := laid.of_alternative
  refine safely_then (stands_popControl ((h.await other).await meets)) ?_
  rintro _ a' ⟨rfl, h⟩
  refine safely_then (stands_goto h (.head _) knows_nil []) fun _ a' h => ?_
  refine safely_then (stands_placeLabel h (.tail _ (.head _)) knows_nil) fun _ a' h => ?_
  refine safely_then (stands_calm h rfl fun _ => rfl) fun _ a' h => safely_mono (stands_pushControl h _) fun _ a' h => ?_
  exact Stands.fitted (τ := [.otherwise]) (flat_singleton rfl) h fun _ _ onward awaits =>
    .otherwise (awaits _ (.head _)) (rest.follow onward)

theorem fitted_branchEnd (h : Fitted ⟨F, .otherwise :: ρ⟩ a) : Safely endJoin a fun _ => Fitted ⟨F, ρ⟩ := by
  obtain ⟨want, cs, t, h, laid⟩ := Fitted.stands (τ := [.otherwise]) (flat_singleton rfl) h
  obtain ⟨finish, cs, rfl, meets, rest⟩ := laid.of_otherwise
  refine safely_then (stands_popJoin (h.await meets)) fun _ a' ⟨eq, h⟩ => ?_
  refine safely_mono (stands_placeLabel h (eq ▸ .head _) knows_nil) fun _ a' h => ?_
  exact Stands.fitted flat_nil h fun _ _ onward _ => rest.follow onward

/-- A loop begins. Its labels wait for nothing. -/
theorem fitted_openLoop {want : Nat → Trace} {cs : List Control} {t : Trace} {ws : List (UInt16 × Trace)} {c : Chunk}
    (h : Stands ⟨F, (⟨F, ρ⟩ : Piles).flags, c, want⟩ ws cs (scopes ρ) t a) (rest : Over c want ρ cs []) {l : Loop}
    (suits : l.Suits p) (flat : p.isFlat) (mem : ∀ label ∈ l.labels, (label, []) ∈ ws) :
    Safely (pushControl (.loop l)) a fun _ => Fitted ⟨F, p :: ρ⟩ :=
  safely_mono (stands_pushControl h _) fun _ _ h => Stands.fitted (τ := [p]) (flat_singleton flat) h
    fun _ _ onward awaits => .loop suits (fun label hl => awaits _ (mem label hl)) (rest.follow onward)

/-- What has been waiting for nothing still is. -/
theorem Stands.awaitAll {G : Ground} {ws : List (UInt16 × Trace)} {cs : List Control} {s : Nat} {t : Trace}
    (h : Stands G ws cs s t a) {labels : List UInt16} (awaits : ∀ label ∈ labels, Awaits G.chunk G.want label []) :
    Stands G (labels.map (·, []) ++ ws) cs s t a := by
  induction labels with
  | nil => exact h
  | cons label labels ih => exact (ih fun x hx => awaits x (.tail _ hx)).await (awaits label (.head _))

theorem fitted_whileStart (h : Fitted ⟨F, ρ⟩ a) (bare : Bare ρ) : Safely whileStart a fun _ => Fitted ⟨F, .whileLoop :: ρ⟩ := by
  obtain ⟨want, cs, t, h, laid⟩ := Fitted.stands flat_nil h
  refine safely_then (stands_newLabel h _ []) fun start a' h => ?_
  refine safely_then (stands_newLabel h _ []) fun fail a' h => ?_
  refine safely_then (stands_newLabel h _ []) fun exit a' h => ?_
  refine safely_then (stands_placeLabel h (.tail _ (.tail _ (.head _))) knows_nil) fun _ a' h => safely_bind (safely_getBody ?_)
  exact fitted_openLoop (p := .whileLoop) h (laid.bare bare []) rfl rfl (by simp [mem_labels])

theorem fitted_forStart (h : Fitted ⟨F, ρ⟩ a) (bare : Bare ρ) : Safely forStart a fun _ => Fitted ⟨F, .forLoop :: ρ⟩ := by
  obtain ⟨want, cs, t, h, laid⟩ := Fitted.stands flat_nil h
  refine safely_then (stands_newLabel h _ []) fun start a' h => ?_
  refine safely_then (stands_newLabel h _ []) fun body a' h => ?_
  refine safely_then (stands_newLabel h _ []) fun exit a' h => ?_
  refine safely_then (stands_placeLabel h (.tail _ (.tail _ (.head _))) knows_nil) fun _ a' h => safely_bind (safely_getBody ?_)
  exact fitted_openLoop (p := .forLoop) h (laid.bare bare []) rfl rfl (by simp [mem_labels])

theorem fitted_loopStart (h : Fitted ⟨F, ρ⟩ a) (bare : Bare ρ) : Safely loopStart a fun _ => Fitted ⟨F, .endless :: ρ⟩ := by
  obtain ⟨want, cs, t, h, laid⟩ := Fitted.stands flat_nil h
  refine safely_then (stands_newLabel h _ []) fun start a' h => ?_
  refine safely_then (stands_newLabel h _ []) fun exit a' h => ?_
  refine safely_then (stands_placeLabel h (.tail _ (.head _)) knows_nil) fun _ a' h => safely_bind (safely_getBody ?_)
  exact fitted_openLoop (p := .endless) h (laid.bare bare []) trivial rfl (by simp [mem_labels])

/-- The loop on top is at hand, with the value above it used up later. -/
theorem Fitted.popLoop (h : Fitted ⟨F, τ ++ p :: ρ⟩ a) (temps : ∀ q ∈ τ, q.isTemp)
    (loops : p = .whileLoop ∨ p = .forLoop ∨ p = .endless) {α : Type} {f : Loop → Assembly α} {Q : α → Assembler → Prop}
    (rest : ∀ l want cs t a', Stands ⟨F, (⟨F, ρ⟩ : Piles).flags, a.body.chunk, want⟩ (l.labels.map (·, [])) cs (scopes ρ) t a' →
      Over a.body.chunk want ρ cs [] → l.Suits p → Safely (f l) a' Q) : Safely (popLoop >>= f) a Q := by
  have flat : ∀ q ∈ τ ++ [p], q.isFlat := by
    intro q hq
    rcases List.mem_append.mp hq with hq | hq
    · exact flat_of_temps temps q hq
    · obtain rfl := List.mem_singleton.mp hq
      obtain rfl | rfl | rfl := loops <;> rfl
  rw [List.append_cons] at h
  obtain ⟨want, cs, t, h, laid⟩ := Fitted.stands flat h
  rw [← List.append_cons] at laid
  obtain ⟨l, cs, rfl, suits, labels, below⟩ := (laid.temps temps).of_loop loops
  refine safely_then (stands_popLoop (h.awaitAll labels)) ?_
  rintro _ a' ⟨rfl, h⟩
  rw [List.append_nil] at h
  exact rest _ want cs t a' h below suits

section Loops
variable {l : Loop} {label : UInt16}

theorem mem_awaiting (h : label ∈ l.labels) : (label, ([] : Trace)) ∈ l.labels.map (·, []) := List.mem_map_of_mem h

theorem fitted_whileBody (h : Fitted ⟨F, p :: .whileLoop :: ρ⟩ a) (temp : p.isTemp) :
    Safely whileBody a fun _ => Fitted ⟨F, .whileLoop :: ρ⟩ := by
  refine Fitted.popLoop (τ := [p]) h (temps_singleton temp) (.inl rfl) fun l want cs t a' h rest suits => ?_
  obtain ⟨fail, eq⟩ := Option.isSome_iff_exists.mp suits
  rw [eq]
  refine safely_then (stands_gotoIfFalse h (mem_awaiting (by simp [mem_labels, eq])) knows_nil) fun _ a' h => ?_
  exact safely_then (stands_pop h) fun _ a' h => fitted_openLoop h rest suits rfl fun _ => mem_awaiting

theorem fitted_forCondition (h : Fitted ⟨F, p :: .forLoop :: ρ⟩ a) (temp : p.isTemp) :
    Safely forCondition a fun _ => Fitted ⟨F, .forLoop :: ρ⟩ := by
  refine Fitted.popLoop (τ := [p]) h (temps_singleton temp) (.inr (.inl rfl)) fun l want cs t a' h rest suits => ?_
  refine safely_then (stands_newLabel h _ []) fun fail a' h => ?_
  refine safely_then (stands_gotoIfFalse h (.head _) knows_nil) fun _ a' h => safely_then (stands_pop h) fun _ a' h => ?_
  refine fitted_openLoop (p := .forLoop) h rest suits rfl fun label hl => ?_
  obtain hl | hl | hl | hl | hl := mem_labels.mp hl
  · exact .tail _ (mem_awaiting (by simp [mem_labels, hl]))
  · exact .tail _ (mem_awaiting (by simp [mem_labels, hl]))
  · exact .tail _ (mem_awaiting (by simp [mem_labels, hl]))
  · exact Option.some.inj hl ▸ .head _
  · exact .tail _ (mem_awaiting (mem_labels.mpr (.inr (.inr (.inr (.inr hl))))))

theorem fitted_forStepEnd (h : Fitted ⟨F, p :: .forLoop :: ρ⟩ a) (temp : p.isTemp) :
    Safely forStepEnd a fun _ => Fitted ⟨F, .forLoop :: ρ⟩ := by
  refine Fitted.popLoop (τ := [p]) h (temps_singleton temp) (.inr (.inl rfl)) fun l want cs t a' h rest suits => ?_
  refine safely_then (stands_calm h rfl fun _ => rfl) fun _ a' h => ?_
  refine safely_then (stands_goto h (mem_awaiting (by simp [mem_labels])) knows_nil []) fun _ a' h => ?_
  exact fitted_openLoop h rest suits rfl fun _ => mem_awaiting

theorem fitted_forStep (h : Fitted ⟨F, .forLoop :: ρ⟩ a) : Safely forStep a fun _ => Fitted ⟨F, .forLoop :: ρ⟩ := by
  refine Fitted.popLoop (τ := []) h (by simp) (.inr (.inl rfl)) fun l want cs t a' h rest suits => ?_
  obtain ⟨body, eq⟩ := Option.isSome_iff_exists.mp suits
  rw [eq]
  refine safely_then (stands_goto h (mem_awaiting (by simp [mem_labels, eq])) knows_nil []) fun _ a' h => ?_
  refine safely_then (stands_newLabel h _ []) fun step a' h => ?_
  refine safely_then (stands_placeLabel h (.head _) knows_nil) fun _ a' h => ?_
  refine fitted_openLoop (p := .forLoop) h rest rfl rfl fun label hl => ?_
  obtain hl | hl | hl | hl | hl := mem_labels.mp hl
  · exact .tail _ (mem_awaiting (by simp [mem_labels, hl]))
  · exact .tail _ (mem_awaiting (by simp [mem_labels, hl]))
  · exact hl ▸ .head _
  · exact .tail _ (mem_awaiting (mem_labels.mpr (.inr (.inr (.inr (.inl hl))))))
  · exact .tail _ (mem_awaiting (mem_labels.mpr (.inr (.inr (.inr (.inr (eq.trans hl)))))))

theorem fitted_forBody (h : Fitted ⟨F, .forLoop :: ρ⟩ a) : Safely forBody a fun _ => Fitted ⟨F, .forLoop :: ρ⟩ := by
  refine Fitted.popLoop (τ := []) h (by simp) (.inr (.inl rfl)) fun l want cs t a' h rest suits => ?_
  obtain ⟨body, eq⟩ := Option.isSome_iff_exists.mp suits
  rw [eq]
  refine safely_then (stands_placeLabel h (mem_awaiting (by simp [mem_labels, eq])) knows_nil) fun _ a' h => ?_
  exact fitted_openLoop h rest suits rfl fun _ => mem_awaiting

/-- Nothing is open any more behind the exit of a loop. -/
theorem fitted_exit {want : Nat → Trace} {cs : List Control} {t : Trace} {ws : List (UInt16 × Trace)} {c : Chunk}
    (h : Stands ⟨F, (⟨F, ρ⟩ : Piles).flags, c, want⟩ ws cs (scopes ρ) t a) (rest : Over c want ρ cs [])
    (mem : (label, []) ∈ ws) : Safely (placeLabel label) a fun _ => Fitted ⟨F, ρ⟩ :=
  safely_mono (stands_placeLabel h mem knows_nil) fun _ _ h =>
    Stands.fitted flat_nil h fun _ _ onward _ => rest.follow onward

theorem fitted_endLoop (h : Fitted ⟨F, p :: ρ⟩ a) (loops : p = .whileLoop ∨ p = .forLoop) :
    Safely endLoop a fun _ => Fitted ⟨F, ρ⟩ := by
  refine Fitted.popLoop (τ := []) h (by simp) (loops.imp_right .inl) fun l want cs t a' h rest suits => ?_
  refine safely_then (stands_goto h (mem_awaiting (by simp [mem_labels])) knows_nil []) fun _ a' h => ?_
  have fails : Safely (placeFail l) a' fun _ => Stands ⟨F, (⟨F, ρ⟩ : Piles).flags, a.body.chunk, want⟩
      (l.labels.map (·, [])) cs (scopes ρ) [] := by
    unfold placeFail
    split
    · rename_i fail eq
      refine safely_then (stands_placeLabel h (mem_awaiting (by simp [mem_labels, eq])) knows_nil) fun _ a' h => ?_
      exact stands_calm h rfl fun _ => rfl
    · exact safely_pure h
  exact safely_then fails fun _ a' h => fitted_exit h rest (mem_awaiting (by simp [mem_labels]))

theorem fitted_loopEnd (h : Fitted ⟨F, .endless :: ρ⟩ a) : Safely loopEnd a fun _ => Fitted ⟨F, ρ⟩ := by
  refine Fitted.popLoop (τ := []) h (by simp) (.inr (.inr rfl)) fun l want cs t a' h rest suits => ?_
  dsimp only
  split_ifs
  · refine safely_then (stands_goto h (mem_awaiting (by simp [mem_labels])) knows_nil []) fun _ a' h => ?_
    exact fitted_exit h rest (mem_awaiting (by simp [mem_labels]))
  · exact safely_throw rfl

end Loops

end Fitted

end ScriptEngine
