import ScriptEngine.Proofs.Fitting

/-!
# Each directive fits

There is one lemma for each kind of directives of `Lay` and `Piled`. A directive within an
expression changes the trace by its effect; between statements the trace may be forgotten,
and what matters is which control structures are open.
-/
namespace ScriptEngine

open Assembler Piece Trace

/-! ## Variables -/

/-- Only locals and captures are changed. -/
def Assembler.Body.Alike (b b' : Body) : Prop := b'.chunk = b.chunk ∧ b'.control = b.control ∧ b'.depth = b.depth

section Captures
variable {name : String} {b b' e : Body} {outer outer' : List Body} {i : UInt8} {fault : CompileFault}

theorem Assembler.Body.Fits.alike {p : Pile} (h : b.Fits p) (alike : b.Alike b') : b'.Fits p := by
  obtain ⟨chunk, control, depth⟩ := alike
  obtain ⟨want, cs, t, traced, laid⟩ := h
  refine ⟨want, cs, t, ⟨?_, ?_, ?_, control.trans traced.control, depth ▸ traced.deep, traced.fills⟩, chunk ▸ laid⟩
  · exact chunk ▸ traced.kind_eq
  · exact chunk ▸ traced.modifiers_eq
  · exact chunk ▸ traced.thread

theorem addCapture_alike {c : Capture} (added : addCapture b c = .ok (i, b')) : b.Alike b' := by
  unfold addCapture at added
  split at added
  · cases added
    exact ⟨rfl, rfl, rfl⟩
  · split_ifs at added
    cases added
    exact ⟨rfl, rfl, rfl⟩

theorem addCapture_error {c : Capture} (failed : addCapture b c = .error fault) : fault.isInternal = false := by
  unfold addCapture at failed
  split at failed
  · cases failed
  · split_ifs at failed <;> cases failed <;> rfl

theorem slotOf_error {locals : List Local} (failed : slotOf name locals = .error fault) : fault.isInternal = false := by
  unfold slotOf at failed
  split at failed
  · cases failed
  · split_ifs at failed
    cases failed
    rfl

theorem captureFrom_alike (found : captureFrom name b outer = .ok (some (i, b', outer'))) :
    b.Alike b' ∧ List.Forall₂ Body.Alike outer outer' := by
  induction outer generalizing b i b' outer' with
  | nil => cases found
  | cons e outer ih =>
    obtain ⟨slot, -, added, rfl⟩ | ⟨-, j, e', es, more, added, rfl⟩ := captureFrom_cons found
    · exact ⟨addCapture_alike added, .cons ⟨rfl, rfl, rfl⟩ (List.forall₂_same.mpr fun _ _ => ⟨rfl, rfl, rfl⟩)⟩
    · exact ⟨addCapture_alike added, .cons (ih more).1 (ih more).2⟩

theorem captureFrom_error (failed : captureFrom name b outer = .error fault) : fault.isInternal = false := by
  induction outer generalizing b fault with
  | nil => cases failed
  | cons e outer ih =>
    unfold captureFrom at failed
    simp only [Bind.bind, Except.bind, Pure.pure, Except.pure] at failed
    split at failed
    · rename_i slot
      cases failed
      exact slotOf_error slot
    split at failed
    · split at failed
      · rename_i added
        cases failed
        exact addCapture_error added
      · cases failed
    split at failed
    · rename_i outward
      cases failed
      exact ih outward
    split at failed
    · split at failed
      · rename_i added
        cases failed
        exact addCapture_error added
      · cases failed
    · cases failed

end Captures

theorem forall₂_alike {α : Type} {R : α → Body → Prop} (kept : ∀ x b b', R x b → b.Alike b' → R x b') {xs : List α}
    {bs bs' : List Body} (h : List.Forall₂ R xs bs) (alike : List.Forall₂ Body.Alike bs bs') : List.Forall₂ R xs bs' := by
  induction h generalizing bs' with
  | nil =>
    cases alike
    exact .nil
  | cons first _ ih =>
    cases alike with
    | cons same rest => exact .cons (kept _ _ _ first same) (ih rest)

section Directives
variable {G : Ground} {ws : List (UInt16 × Trace)} {cs : List Control} {s : Nat} {t u : Trace} {a a' : Assembler}
  {i : Instruction} {F : Site} {ρ σ : List Piece}

theorem stands_findPlace (h : Stands G ws cs s t a) (name : String) :
    Safely (findPlace name) a fun r a' => Stands G ws cs s t a' ∧ ∀ n, r ≠ some (.global n) := by
  refine safely_bind (safely_get (safely_bind (safely_lift (fun r _ => ?_) fun _ => slotOf_error)))
  cases r with
  | some slot => exact safely_pure ⟨h, nofun⟩
  | none =>
    refine safely_bind (safely_lift (fun r outward => ?_) fun _ => captureFrom_error)
    cases r with
    | none => exact safely_pure ⟨h, nofun⟩
    | some r =>
      obtain ⟨i, body, outer⟩ := r
      obtain ⟨⟨chunk, control, depth⟩, around⟩ := captureFrom_alike outward
      refine safely_bind (safely_set (safely_pure ⟨h.books ⟨?_, h.around.aside, h.around.types, h.around.chunks⟩
        (congrArg Chunk.code chunk) (congrArg Chunk.labels chunk) (congrArg Chunk.kind chunk)
        (congrArg Chunk.modifiers chunk) control depth, nofun⟩))
      exact forall₂_alike (R := Body.Fits) (fun _ _ _ => Body.Fits.alike) h.around.outer around

theorem stands_place (h : Stands G ws cs s t a) (name : String) :
    Safely (place name) a fun _ => Stands G ws cs s t := by
  refine safely_then (stands_findPlace h name) ?_
  rintro (_ | p) a' ⟨h, -⟩
  · exact safely_then (stands_nameConstant h name) fun _ _ h => safely_pure h
  · exact safely_pure h

/-- In a pure function no global is found for a store. -/
theorem stands_checkStore (h : Stands G ws cs s t a) (name : String) : Safely (checkStore name) a fun p a' =>
    Stands G ws cs s t a' ∧ (G.site.modifiers.isPure → p.setter.stores = false) := by
  refine safely_then (stands_place h name) fun p a' h => safely_bind (safely_getBody ?_)
  have modifiers := h.modifiers
  cases p with
  | global n =>
    dsimp only
    split_ifs with pure
    · exact safely_bind (safely_throw rfl)
    · exact safely_pure ⟨h, fun pure' => absurd (modifiers ▸ pure') pure⟩
  | slot n => exact safely_pure ⟨h, fun _ => rfl⟩
  | capture n => exact safely_pure ⟨h, fun _ => rfl⟩

theorem stands_checkImpure (h : Stands G ws cs s t a) (target : String) : Safely (checkImpure target) a fun _ a' =>
    Stands G ws cs s t a' ∧ G.site.modifiers.isPure = false := by
  refine safely_bind (safely_getBody ?_)
  dsimp only
  split_ifs with pure
  · exact safely_throw rfl
  · exact safely_pure ⟨h, by simpa [h.modifiers] using pure⟩

/-- An instruction that makes a value. -/
theorem stands_push (h : Stands G ws cs s t a) (effect : i.effect = some (0, 1)) (target : i.target? = none)
    (still : i.stores = false) : Safely (emit i) a fun _ => Stands G ws cs s (none :: t) :=
  stands_effect 0 1 h effect target fun _ => still

theorem stands_load (h : Stands G ws cs s t a) (name : String) :
    Safely (load name) a fun _ => Stands G ws cs s (none :: t) :=
  safely_then (stands_place h name) fun p _ h => by
    cases p <;> exact stands_push h rfl rfl rfl

theorem stands_loadThis (h : Stands G ws cs s t a) : Safely loadThis a fun _ => Stands G ws cs s (none :: t) := by
  refine safely_then (stands_findPlace h "this") ?_
  rintro (_ | p) a' ⟨h, -⟩
  · exact safely_throw rfl
  · cases p <;> exact stands_push h rfl rfl rfl

theorem stands_store (h : Stands G ws cs s t a) (name : String) :
    Safely (store name) a fun _ => Stands G ws cs s (none :: t.drop 1) :=
  safely_then (stands_checkStore h name) fun p _ ⟨h, guard⟩ => by
    cases p <;> exact stands_effect 1 1 h rfl rfl guard

/-! ## Within expressions -/

/-- An instruction that names a member. -/
theorem stands_emitNamed {make : UInt16 → Instruction} {takes gives : Nat} (h : Stands G ws cs s t a)
    (effect : ∀ n, (make n).effect = some (takes, gives)) (target : ∀ n, (make n).target? = none)
    (guard : G.site.modifiers.isPure → ∀ n, (make n).stores = false) (name : String) :
    Safely (emitNamed make name) a fun _ => Stands G ws cs s (List.replicate gives none ++ t.drop takes) :=
  safely_then (stands_nameConstant h name) fun n _ h => stands_effect takes gives h (effect n) (target n) fun pure => guard pure n

theorem stands_number (h : Stands G ws cs s t a) (n : Number) :
    Safely (number n) a fun _ => Stands G ws cs s (none :: t) := by
  have word : Safely (do emit (.pushConstant (← constant (.number n)))) a fun _ => Stands G ws cs s (none :: t) :=
    safely_then (stands_constant h _) fun _ _ h => stands_push h rfl rfl rfl
  unfold number
  split
  · split_ifs
    · exact stands_push h rfl rfl rfl
    · exact word
  · exact word

/-- A plain instruction that is not inlined. -/
theorem effect_plain {takes gives : Nat} {h : i.isPlain} (effect : (Directive.plain i h).effect = some (takes, gives)) :
    i.effect = some (takes, gives) := by
  cases i <;> first | exact effect | cases effect

theorem stands_plain {takes gives : Nat} (h : Stands G ws cs s t a) (isPlain : i.isPlain)
    (effect : i.effect = some (takes, gives)) :
    Safely (emit i) a fun _ => Stands G ws cs s (List.replicate gives none ++ t.drop takes) :=
  stands_effect takes gives h effect (by cases i <;> first | rfl | cases isPlain) fun _ => by cases i <;> first | rfl | cases isPlain

/-- Directives that use up values and make others. -/
theorem stands_simple {d : Directive} {takes gives : Nat} (h : Stands G ws cs s t a)
    (effect : d.effect = some (takes, gives)) (other : d.fillsField = false) :
    Safely (perform d) a fun _ => Stands G ws cs s (List.replicate gives none ++ t.drop takes) := by
  cases d with
  | plain i isPlain => exact stands_plain h isPlain (effect_plain effect)
  | number n =>
    cases effect
    exact stands_number h n
  | string text =>
    cases effect
    exact safely_then (stands_constant h _) fun _ _ h => stands_push h rfl rfl rfl
  | load name =>
    cases effect
    exact stands_load h name
  | store name =>
    cases effect
    exact stands_store h name
  | receiver =>
    cases effect
    exact stands_push h rfl rfl rfl
  | this =>
    cases effect
    exact stands_loadThis h
  | setProperty name =>
    cases effect
    exact safely_then (stands_checkImpure h _) fun _ _ ⟨h, impure⟩ =>
      stands_emitNamed h (fun _ => rfl) (fun _ => rfl) (fun pure => by simp [impure] at pure) name
  | setIndex =>
    cases effect
    exact safely_then (stands_checkImpure h _) fun _ _ ⟨h, impure⟩ =>
      stands_effect 3 1 h rfl rfl fun pure => by simp [impure] at pure
  | storeField name => cases other
  | getSuper name =>
    cases effect
    exact stands_emitNamed h (fun _ => rfl) (fun _ => rfl) (fun _ _ => rfl) name
  | superInvoke name argc =>
    cases effect
    exact stands_emitNamed h (fun _ => rfl) (fun _ => rfl) (fun _ _ => rfl) name
  | getProperty name =>
    cases effect
    exact stands_emitNamed h (fun _ => rfl) (fun _ => rfl) (fun _ _ => rfl) name
  | invoke name argc =>
    cases effect
    exact stands_emitNamed h (fun _ => rfl) (fun _ => rfl) (fun _ _ => rfl) name
  | inject name =>
    cases effect
    exact stands_emitNamed h (fun _ => rfl) (fun _ => rfl) (fun _ _ => rfl) name
  | register name =>
    cases effect
    exact stands_emitNamed h (fun _ => rfl) (fun _ => rfl) (fun _ _ => rfl) name
  | staticMember name =>
    cases effect
    exact stands_emitNamed h (fun _ => rfl) (fun _ => rfl) (fun _ _ => rfl) name
  | method name =>
    cases effect
    exact stands_emitNamed h (fun _ => rfl) (fun _ => rfl) (fun _ _ => rfl) name
  | enumValue name =>
    cases effect
    exact stands_emitNamed h (fun _ => rfl) (fun _ => rfl) (fun _ _ => rfl) name
  | _ => cases effect

/-- Directives that look something up, or note something. Which loops are left does not matter. -/
theorem stands_quiet {d : Directive} (h : Stands G ws cs s t a) (quiet : d.isQuiet) : Safely (perform d) a fun _ a' =>
    Stands G ws cs s t a' ∨ Stands G ws (cs.map Control.leave) s t a' := by
  have same {x : Assembly Unit} (x_ok : Safely x a fun _ => Stands G ws cs s t) : Safely x a fun _ a' =>
      Stands G ws cs s t a' ∨ Stands G ws (cs.map Control.leave) s t a' := safely_mono x_ok fun _ _ => .inl
  have leave : Safely leaveLoops a fun _ a' => Stands G ws cs s t a' ∨ Stands G ws (cs.map Control.leave) s t a' := by
    obtain ⟨want, traced, rest⟩ := h.here
    exact safely_modify (.inr ⟨h.around.same rfl rfl rfl rfl, want, ⟨traced.kind_eq, traced.modifiers_eq,
      traced.thread, congrArg _ traced.control, traced.deep, traced.fills⟩, rest⟩)
  cases d with
  | reserve name => exact same (safely_then (stands_nameConstant h name) fun _ _ h => safely_pure h)
  | resolve name => exact same (safely_then (stands_place h name) fun _ _ h => safely_pure h)
  | checkStore name => exact same (safely_then (stands_checkStore h name) fun _ _ h => safely_pure h.1)
  | checkImpure target => exact same (safely_mono (stands_checkImpure h target) fun _ _ h => h.1)
  | checkSuper =>
    refine same (safely_bind (safely_get ?_))
    split
    · exact safely_throw rfl
    · split_ifs
      · exact safely_pure h
      · exact safely_throw rfl
  | returnCheck =>
    refine safely_bind (safely_getBody ?_)
    split_ifs
    · exact safely_bind (safely_throw rfl)
    · exact leave
  | returnValueCheck =>
    refine same (safely_bind (safely_getBody ?_))
    split_ifs
    · exact safely_throw rfl
    · exact safely_pure h
  | leaveLoops => exact leave
  | loopCheck keyword =>
    refine same (safely_bind (safely_bind (safely_getBody ?_)))
    split
    · exact safely_pure (safely_pure h)
    · exact safely_throw rfl
  | unreachable keyword line => exact same (safely_modify (h.books (h.around.same rfl rfl rfl rfl) rfl rfl rfl rfl rfl rfl))
  | _ => cases quiet

/-- The place where an object is made is known. -/
theorem stands_newDynamic (h : Stands G ws cs s t a) : Safely (emit .newDynamic) a fun _ a' =>
    ∃ q, a'.body.chunk.code[q]? = some .newDynamic ∧ Stands G ws cs s (some q :: t) a' := by
  have made : (a.body.chunk.code.push .newDynamic)[a.body.chunk.code.size]? = some .newDynamic := by simp
  obtain ⟨want, traced, onward, awaits⟩ := h.here
  obtain ⟨T, thread, rfl⟩ := traced.thread
  refine safely_modify ⟨a.body.chunk.code.size, made, h.around.same rfl rfl rfl rfl, want, ⟨traced.kind_eq, traced.modifiers_eq,
    ⟨_, thread.emit (fun _ => knows_refl _) nofun fun _ => trivial, ?_⟩, traced.control, traced.deep, traced.fills⟩,
    ⟨onward.code.trans (grows_push _ _), onward.labels, onward.want⟩, awaits⟩
  exact (congrArg _ size_emit).trans (Function.update_self _ _ _)

/-- A field is stored, and the value is dropped. -/
theorem stands_storeField (h : Stands G ws cs s t a) (name : String)
    (guard : G.site.modifiers.isPure → ∃ q, t[1]? = some (some q) ∧ G.chunk.code[q]? = some .newDynamic) :
    Safely (perform (.storeField name)) a fun _ => Stands G ws cs s (t.drop 2) := by
  refine safely_then (P := fun _ => Stands G ws cs s (none :: t.drop 2)) ?_ fun _ _ h => stands_pop h
  refine safely_then (stands_nameConstant h name) fun n _ h =>
    stands_emit h (fun _ _ => trace_of_effect 2 1 rfl) (fun _ _ => nofun) fun pure c grows => ?_
  obtain ⟨q, known, made⟩ := guard pure
  exact ⟨q, known, grows _ _ made⟩

end Directives

section Fitted
variable {F : Site} {τ ρ : List Piece} {a : Assembler} {d : Directive} {p q : Piece}

theorem flat_nil : ∀ p ∈ ([] : List Piece), p.isFlat := by simp

theorem flat_values (n : Nat) : ∀ p ∈ List.replicate n Piece.value, p.isFlat :=
  flat_of_temps fun _ hp => List.eq_of_mem_replicate hp ▸ rfl

theorem fitted_simple {takes gives : Nat} (h : Fitted ⟨F, τ ++ ρ⟩ a) (effect : d.effect = some (takes, gives))
    (other : d.fillsField = false) (length : τ.length = takes) (temps : ∀ p ∈ τ, p.isTemp) :
    Safely (perform d) a fun _ => Fitted ⟨F, List.replicate gives .value ++ ρ⟩ := by
  obtain ⟨want, cs, t, h, laid⟩ := h.stands (flat_of_temps temps)
  refine safely_mono (stands_simple h effect other) fun _ a' h => h.fitted (flat_values gives) fun c' want' onward _ => ?_
  refine over_values ?_
  rw [List.drop_left' List.length_replicate, ← length]
  exact (laid.temps temps).follow onward

theorem fitted_quiet (h : Fitted ⟨F, ρ⟩ a) (quiet : d.isQuiet) : Safely (perform d) a fun _ => Fitted ⟨F, ρ⟩ := by
  obtain ⟨want, cs, t, h, laid⟩ := Fitted.stands flat_nil h
  refine safely_mono (stands_quiet h quiet) fun _ a' h => ?_
  rcases h with h | h
  · exact h.fitted flat_nil fun _ _ onward _ => laid.follow onward
  · exact h.fitted flat_nil fun _ _ onward _ => (laid.follow onward).leave

theorem fitted_newDynamic (h : Fitted ⟨F, ρ⟩ a) : Safely (emit .newDynamic) a fun _ => Fitted ⟨F, .object :: ρ⟩ := by
  obtain ⟨want, cs, t, h, laid⟩ := Fitted.stands flat_nil h
  refine safely_mono (stands_newDynamic h) fun _ a' ⟨q, made, h⟩ => ?_
  obtain ⟨want', traced, onward, awaits⟩ := h.here
  exact ⟨h.around, want', cs, _, traced, .object made (laid.follow onward)⟩

theorem fitted_again (h : Fitted ⟨F, .object :: ρ⟩ a) :
    Safely (emit .duplicate) a fun _ => Fitted ⟨F, .object :: .object :: ρ⟩ := by
  obtain ⟨want, cs, t, h, laid⟩ := Fitted.stands flat_nil h
  obtain ⟨q, t, rfl, made, rest⟩ := Over.of_object laid
  refine safely_mono (stands_emit (u := some q :: some q :: t) h (fun _ _ => knows_refl _) (fun _ _ => nofun)
    fun _ _ _ => trivial) fun _ a' h => ?_
  exact h.fitted (flat_of_temps (temps_singleton rfl)) fun _ _ onward _ =>
    .object (onward.code _ _ made) (.object (onward.code _ _ made) (rest.follow onward))

theorem flat_pair (temp : p.isTemp) (temp' : q.isTemp) : ∀ r ∈ [p, q], r.isFlat :=
  flat_of_temps fun r hr => by
    rcases List.mem_pair.mp hr with rfl | rfl
    · exact temp
    · exact temp'

theorem fitted_field {name : String} (h : Fitted ⟨F, p :: .object :: ρ⟩ a) (temp : p.isTemp) :
    Safely (perform (.storeField name)) a fun _ => Fitted ⟨F, ρ⟩ := by
  obtain ⟨want, cs, t, h, laid⟩ := Fitted.stands (τ := [p, .object]) (flat_pair temp rfl) h
  obtain ⟨o, u, eq, made, rest⟩ := (laid.temp temp).of_object
  have below : t[1]? = some (some o) := by rw [← List.getElem?_tail, eq, List.getElem?_cons_zero]
  have dropped : t.drop 2 = u := by rw [← List.tail_drop, List.drop_one, eq, List.tail_cons]
  refine safely_mono (stands_storeField h name fun _ => ⟨o, below, made⟩) fun _ a' h => ?_
  exact Stands.fitted flat_nil h fun _ _ onward _ => dropped ▸ rest.follow onward

/-- A function that fills the fields of its receiver is not pure. -/
theorem Fitted.impure (h : Fitted ⟨F, ρ⟩ a) (fills : F.kind.fills) : F.modifiers.isPure = false :=
  h.here.elim fun _ h => h.choose_spec.choose_spec.1.fills fills

theorem fitted_preset {name : String} (h : Fitted ⟨F, p :: q :: ρ⟩ a) (temp : p.isTemp) (receiver : q.isTemp)
    (fills : F.kind.fills) : Safely (perform (.storeField name)) a fun _ => Fitted ⟨F, ρ⟩ := by
  have impure := h.impure fills
  obtain ⟨want, cs, t, h, laid⟩ := Fitted.stands (τ := [p, q]) (flat_pair temp receiver) h
  refine safely_mono (stands_storeField h name fun pure => by simp [impure] at pure) fun _ a' h => ?_
  refine Stands.fitted flat_nil h fun _ _ onward _ => ?_
  have := (laid.temp temp).temp receiver
  rw [← List.drop_one, ← List.drop_one, List.drop_drop] at this
  exact this.follow onward

theorem flat_singleton (flat : p.isFlat) : ∀ q ∈ [p], q.isFlat := by simpa using flat

theorem fitted_short (h : Fitted ⟨F, p :: ρ⟩ a) (opens : d = .andThen ∨ d = .orElse) (temp : p.isTemp) :
    Safely (perform d) a fun _ => Fitted ⟨F, .short :: ρ⟩ := by
  obtain ⟨want, cs, t, h, laid⟩ := Fitted.stands (τ := [p]) (flat_of_temps (temps_singleton temp)) h
  have rest := laid.temp temp
  -- the value is dropped, and behind the right operand there is another one
  have done {a' : Assembler} {finish : UInt16} {ws : List (UInt16 × Trace)}
      (h : Stands ⟨F, (⟨F, ρ⟩ : Piles).flags, a.body.chunk, want⟩ ws cs (scopes ρ) (none :: t.tail) a')
      (mem : (finish, none :: t.tail) ∈ ws) :
      Safely (do emit .pop; pushControl (.join finish)) a' fun _ => Fitted ⟨F, .short :: ρ⟩ := by
    refine safely_then (stands_pop h) fun _ a' h => safely_mono (stands_pushControl h _) fun _ a' h => ?_
    exact Stands.fitted (τ := [.short]) (flat_singleton rfl) h fun _ _ onward awaits => .short (awaits _ mem) (rest.follow onward)
  obtain rfl | rfl := opens
  · refine safely_then (stands_newLabel h _ (none :: t.tail)) fun finish a' h => ?_
    exact safely_then (stands_gotoIfFalse h (.head _) (knows_refl _)) fun _ a' h => done h (.head _)
  · refine safely_then (stands_newLabel h _ (none :: t.tail)) fun right a' h => ?_
    refine safely_then (stands_newLabel h _ (none :: t.tail)) fun finish a' h => ?_
    refine safely_then (stands_gotoIfFalse h (.tail _ (.head _)) (knows_refl _)) fun _ a' h => ?_
    refine safely_then (stands_goto h (.head _) (knows_refl _) (none :: t.tail)) fun _ a' h => ?_
    exact safely_then (stands_placeLabel h (.tail _ (.head _)) (knows_refl _)) fun _ a' h => done h (.head _)

theorem fitted_shortEnd (h : Fitted ⟨F, p :: .short :: ρ⟩ a) (temp : p.isTemp) :
    Safely (perform .shortEnd) a fun _ => Fitted ⟨F, .value :: ρ⟩ := by
  have flat : ∀ q ∈ [p, .short], q.isFlat := List.forall_mem_cons.mpr
    ⟨flat_of_temps (temps_singleton temp) p (.head _), flat_singleton rfl⟩
  obtain ⟨want, cs, t, h, laid⟩ := Fitted.stands (τ := [p, .short]) flat h
  obtain ⟨finish, cs, rfl, meets, rest⟩ := (laid.temp temp).of_short
  refine safely_then (stands_popJoin (h.await meets)) fun _ a' ⟨eq, h⟩ => ?_
  refine safely_mono (stands_placeLabel h (eq ▸ .head _) (knows_none_tail t)) fun _ a' h => ?_
  exact Stands.fitted (τ := [.value]) (flat_singleton rfl) h fun _ _ onward _ => .value (rest.follow onward)

end Fitted

end ScriptEngine
