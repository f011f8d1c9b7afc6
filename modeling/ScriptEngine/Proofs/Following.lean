import ScriptEngine.Proofs.Branching

/-!
# Directives of one function

Directives that neither begin or end a function nor look variables up concern
the innermost function alone. Each of them takes a function that follows its
outline to one that follows the outline behind the move.
-/
namespace ScriptEngine

open Assembler Outline

section Following
variable {known : Array Chunk} {legal : Nat → String → Prop} {c₀ : Chunk} {N₀ : Notes} {L : Level} {b : Body}
  {N : Notes} {extra : List (Nat × Point)} {ws : List Nat} {p q : Point} {i : Instruction}
  {ℓ : UInt32} {a : Assembler} {name : String}

theorem Core.setRegion (h : Core known legal c₀ N₀ L b N extra ws p) (temps : List Held) (region : Region) :
    Core known legal c₀ N₀ { L.setTemps temps with region } b N extra ws p :=
  ⟨h.draft, h.wants, { h.frames with start := nofun }, h.now, h.later, h.adds⟩

/-- An instruction that is neither a jump nor a pop and refers at most to a name. -/
theorem Core.bare (h : Core known legal c₀ N₀ L b N extra ws p) (started : L.started = true)
    (effect : Effect known b.chunk i p q) (suits : Suits p i) (bare : i.isOpen)
    (name : ∀ n, i.name? = some n → (b.chunk.name? n).isSome)
    (target : i.target? = none) (pop : i ≠ .pop) (word : i.isWord = false) (case : i.isTestCase = false) :
    Core known legal c₀ N₀ L (b.emit i ℓ) (N.emit b.chunk.code.size q) extra ws q := by
  refine h.emit started ⟨⟨q, ?_, fun _ => Point.le_refl _, ?_⟩, ?_, h.now ▸ suits, ?_, ?_⟩ word ?_ (.inr case)
  · rw [h.now]
    exact effect
  · simp [target]
  · exact fits_open bare name
  · simp [target]
  · exact fun _ _ _ hi => (pop hi).elim
  · exact fun _ _ _ hi => (pop hi).elim

variable (h : Core known legal c₀ N₀ L b N [] ws (L.point N.vars))
include h

theorem length_vars : L.vars.length = N.vars.length := by
  rw [← h.frames.names, List.length_map]

theorem follows_start (temps : L.temps = []) (region : L.region = .none) :
    Does (emit .multiVarStart) (a.setBody b) fun _ => Follows known legal c₀ N₀ a b.captures
      { L.touch with region := .opened L.vars.length } := by
  refine does_emit ?_
  have effect : Effect known b.chunk .multiVarStart (L.point N.vars)
      ⟨bounds N.vars, .opened L.vars.length⟩ := by
    rw [Level.point, temps, region, length_vars h, ← length_bounds]
    exact .start
  have suits : Suits (L.point N.vars) .multiVarStart := by
    rw [Level.point, temps, region]
    exact suits_calm _ _
  have h' := (h.touch.bare (ℓ := a.line) rfl effect suits rfl (by rintro n ⟨⟩) rfl (by rintro ⟨⟩) rfl rfl).setRegion L.temps
    (.opened L.vars.length)
  refine Follows.of h' ?_ rfl
  change (⟨L.temps ++ bounds N.vars, _⟩ : Point) = _
  rw [temps]
  rfl

theorem follows_finish {e : Held} (temps : L.temps = [e]) (value : e.isValue)
    (region : L.region = .opened L.vars.length) :
    Does (emit .multiVarEnd) (a.setBody b) fun _ => Follows known legal c₀ N₀ a b.captures
      { L.setTemps [.count, e] with region := .counted L.vars.length } := by
  refine does_emit ?_
  have effect : Effect known b.chunk .multiVarEnd (L.point N.vars)
      ⟨.count :: e :: bounds N.vars, .counted L.vars.length⟩ := by
    rw [Level.point, temps, region, length_vars h, ← length_bounds]
    exact .finish value
  have usual : L.Usual := ⟨by simpa [temps] using value, by simp [region]⟩
  have suits := (usual.point N.vars).suits (i := .multiVarEnd) (by rintro ⟨⟩) (by rintro ⟨⟩) (by rintro ⟨⟩)
  have h' := (h.touch.bare (ℓ := a.line) rfl effect suits rfl (by rintro n ⟨⟩) rfl (by rintro ⟨⟩) rfl rfl).setRegion [.count, e]
    (.counted L.vars.length)
  exact Follows.of h' rfl rfl

theorem follows_byte {e : Held} {n : UInt8} (temps : L.temps = [.count, e]) (value : e.isValue) :
    Does (emit (.pushByte n)) (a.setBody b) fun _ =>
      Follows known legal c₀ N₀ a b.captures (L.setTemps [.byte n, .count, e]) := by
  refine does_emit ?_
  have effect : Effect known b.chunk (.pushByte n) (L.point N.vars)
      ⟨.byte n :: .count :: e :: bounds N.vars, L.region⟩ := by
    rw [Level.point, temps]
    exact .byte
  have held : (L.point N.vars).held = .count :: e :: bounds N.vars := by
    rw [Level.point, temps]
    rfl
  have suits : Suits (L.point N.vars) (.pushByte n) := by
    refine ⟨fun _ _ => .inl ⟨n, rfl, by rw [held]; rfl⟩, fun j hj => ?_, by rintro ⟨⟩, by simp⟩
    rw [held] at hj
    rcases List.mem_cons.mp hj with hj | hj
    · cases hj
    · exact absurd hj (((usual_bounds N.vars).cons value).no_closure j)
  have h' := (h.touch.bare (ℓ := a.line) rfl effect suits rfl (by rintro n ⟨⟩) rfl (by rintro ⟨⟩) rfl rfl).setTemps
    [.byte n, .count, e]
  exact Follows.of h' rfl rfl

theorem follows_validate {e : Held} {n : UInt8} (temps : L.temps = [.byte n, .count, e])
    (value : e.isValue) (region : L.region = .counted L.vars.length) :
    Does (emit (.validate .multiReturnMatches)) (a.setBody b) fun _ =>
      Follows known legal c₀ N₀ a b.captures
        { L.setTemps (List.replicate n.toNat .value) with region := .none } := by
  refine does_emit ?_
  have effect : Effect known b.chunk (.validate .multiReturnMatches) (L.point N.vars)
      ⟨List.replicate n.toNat .value ++ bounds N.vars, .none⟩ := by
    rw [Level.point, temps, region, length_vars h, ← length_bounds]
    exact .validate value
  have held : (L.point N.vars).held = .byte n :: .count :: e :: bounds N.vars := by
    rw [Level.point, temps]
    rfl
  have suits : Suits (L.point N.vars) (.validate .multiReturnMatches) := by
    refine ⟨fun _ _ => .inr rfl, fun j hj => ?_, by rintro ⟨⟩, by simp⟩
    rw [held] at hj
    rcases List.mem_cons.mp hj with hj | hj
    · cases hj
    rcases List.mem_cons.mp hj with hj | hj
    · cases hj
    · exact absurd hj (((usual_bounds N.vars).cons value).no_closure j)
  have h' := (h.touch.bare (ℓ := a.line) rfl effect suits rfl (by rintro n ⟨⟩) rfl (by rintro ⟨⟩) rfl rfl).setRegion
    (List.replicate n.toNat .value) .none
  exact Follows.of h' rfl rfl

/-- Directives that concern the innermost function alone. -/
def Directive.isOwn : Directive → Bool
  | .resolve _ | .checkStore _ | .load _ | .store _ | .this | .unreachable _ _ | .beginType _ _
  | .inheritFrom _ _ | .endType => false
  | _ => true

/-- The innermost local of a name is complete and stands in a slot. -/
def Found (locals : List Local) (name : String) (n : Nat) : Prop :=
  ∃ l, findLocal name locals = some (n, l) ∧ l.depth.isSome

/-- The slots that a directive refers to in the function in which it is carried out, by name. -/
def Directive.Refers (d : Directive) (b : Body) (n : Nat) (name : String) : Prop :=
  match d with
  | .resolve x | .checkStore x | .load x | .store x => name = x ∧ Found b.locals x n
  | .this => name = "this" ∧ Found b.locals "this" n
  | .receiver => name = "this" ∧ n = 0
  | .inheritFrom parent x => (name = parent ∧ Found b.locals parent n) ∨
      (name = x ∧ Found (⟨"super", some (b.depth + 1), false⟩ :: b.locals) x n)
  | .storeMatching fields => b.chunk.StoresLocal fields n name
  | .implicitReturn | .endFunction | .endInitChain _ | .endTest _ | .endCase _ _ => b.chunk.ReturnsLocal n name
  | _ => False

/-- Directives that take and leave temporaries. -/
theorem follows_simple {d : Directive} {takes gives : Nat} {τ ρ : List Held} (own : d.isOwn)
    (effect : d.effect = some (takes, gives)) (temps : L.temps = τ ++ ρ)
    (length : τ.length = takes) (values : ∀ e ∈ τ, e.isValue) (usual : L.Usual)
    (ret : ∀ n h, d = .plain (.ret n) h → 1 ≤ n.toNat ∧ L.region = .none)
    (yield : ∀ h, d = .plain .yield h → L.region = .none)
    (receiver : d = .receiver → L.kind.hasReceiver) (ok : ∀ n name, d.Refers b n name → legal n name) :
    Does (perform d) (a.setBody b) fun _ =>
      Follows known legal c₀ N₀ a b.captures (L.setTemps (List.replicate gives .value ++ ρ)) := by
  have single (he : takes = 0) : L.temps = ρ := by
    rw [temps, List.length_eq_zero_iff.mp (length.trans he)]
    rfl
  cases d
  case plain i hi =>
    have effect : i.effect = some (takes, gives) := by
      cases i <;> first | exact effect | cases effect
    exact follows_plain h temps effect length values usual ret yield
  case number n =>
    cases effect
    exact single rfl ▸ follows_number h usual
  case string s =>
    cases effect
    exact single rfl ▸ follows_pushConstant (.inr ⟨s, rfl⟩) h usual
  case receiver =>
    cases effect
    exact single rfl ▸ follows_receiver h usual (receiver rfl) (ok _ _ ⟨rfl, rfl⟩)
  case storeField name =>
    cases effect
    obtain ⟨x, y, rfl⟩ := List.length_eq_two.mp length
    exact follows_storeField h temps (values x (by simp)) (values y (by simp)) usual
  case setProperty name =>
    cases effect
    exact does_bind (does_checkImpure (follows_emitNamed _ _ h temps (fun _ => rfl) length values
      (fun _ => rfl) (fun _ => rfl) (fun _ => rfl) usual fun _ => .inr rfl))
  case setIndex =>
    cases effect
    exact does_bind (does_checkImpure (follows_emit (i := .setIndex) h temps rfl length values rfl
      (fits_open rfl nofun) usual (.inr rfl)))
  case inject name | getProperty name | getSuper name | staticMember name | method name | enumValue name
      | register name =>
    cases effect
    exact follows_emitNamed _ _ h temps (fun _ => rfl) length values (fun _ => rfl) (fun _ => rfl)
      (fun _ => rfl) usual fun _ => .inr rfl
  case invoke name argc | superInvoke name argc =>
    cases effect
    exact follows_emitNamed _ _ h temps (fun _ => rfl) length values (fun _ => rfl) (fun _ => rfl)
      (fun _ => rfl) usual fun _ => .inr rfl
  all_goals first | (cases own; done) | cases effect

omit h in
theorem does_leaveLoops {Q : Unit → Assembler → Prop}
    (h : Q () (a.setBody (b.setControl (b.control.map Control.leave)))) :
    Does leaveLoops (a.setBody b) Q :=
  does_modifyBody h

/-- Directives that leave the stack alone. -/
theorem follows_quiet {d : Directive} (own : d.isOwn) (quiet : d.isQuiet) :
    Does (perform d) (a.setBody b) fun _ => Follows known legal c₀ N₀ a b.captures L.touch := by
  have stays : Follows known legal c₀ N₀ a b.captures L.touch (a.setBody b) := Follows.intro h.touch
  have left : Follows known legal c₀ N₀ a b.captures L.touch
      (a.setBody (b.setControl (b.control.map Control.leave))) :=
    Follows.of (h.touch.setControl Opened.leaveAll) rfl rfl
  cases d
  case reserve name => exact follows_reserve h
  case checkSuper =>
    refine does_bind (does_get ?_)
    split
    · exact does_throw
    · split
      · exact does_pure stays
      · exact does_throw
  case checkImpure target => exact does_checkImpure stays
  case leaveLoops => exact does_leaveLoops left
  case returnCheck =>
    refine does_bind (does_getBody ?_)
    split
    · exact does_bind does_throw
    · exact does_leaveLoops left
  case returnValueCheck =>
    refine does_bind (does_getBody ?_)
    split
    · exact does_throw
    · exact does_pure stays
  case loopCheck keyword => exact does_bind (does_currentLoop fun _ _ => does_pure stays)
  all_goals first | (cases own; done) | cases quiet

/-- Every move within the innermost function. -/
theorem follows_level {d : Directive} {L' : Level} (move : LevelMove d L L') (own : d.isOwn)
    (ok : ∀ n name, d.Refers b n name → legal n name) :
    Does (perform d) (a.setBody b) fun _ => Follows known legal c₀ N₀ a b.captures L' := by
  cases move with
  | simple effect temps length values plain ret yield receiver =>
    exact follows_simple h own effect temps length values plain.2 ret yield receiver ok
  | quiet quiet => exact follows_quiet h own quiet
  | start temps region => exact follows_start h temps region
  | finish temps value region => exact follows_finish h temps value region
  | byte temps value => exact follows_byte h temps value
  | validate temps value region => exact follows_validate h temps value region
  | beginScope calm => exact follows_beginScope h calm
  | endScope calm opens vars => exact follows_endScope h calm opens vars
  | declare calm declaring inScope => exact follows_declare h calm declaring inScope
  | declareGlobal _ outside => exact follows_declareGlobal h outside
  | define temps value pending _ declaring inScope =>
    exact follows_define h temps value pending declaring inScope
  | defined calm vars declaring inScope => exact follows_defined h calm vars declaring inScope
  | defineGlobal temps value _ region outside => exact follows_defineGlobal h _ temps value region outside
  | defineMany temps pending _ declaring inScope =>
    exact follows_defineMany h temps pending declaring inScope
  | defineManyGlobal temps _ region outside => exact follows_defineManyGlobal h temps region outside
  | declareFunction calm declaring inScope => exact follows_declareFunction h calm declaring inScope
  | declareGlobalFunction _ outside => exact follows_declareGlobalFunction h outside
  | parameter calm opens fresh inner => exact follows_parameter h calm opens fresh inner
  | resultName calm opens fixed inner => exact follows_resultName h calm opens fixed inner
  | storeMatching calm init => exact follows_storeMatching h calm.usual init ok
  | implicitReturn calm => exact follows_implicitReturn h calm ok
  | andThen temps value plain => exact follows_andThen h temps value plain.2
  | orElse temps value plain => exact follows_orElse h temps value plain.2
  | shortEnd opens temps value => exact follows_shortEnd h opens temps value
  | branch temps value _ region => exact follows_branch h temps value region
  | branchElse calm opens => exact follows_branchElse h calm opens
  | branchEnd calm opens => exact follows_branchEnd h calm opens
  | whileStart calm => exact follows_whileStart h calm
  | whileBody temps value _ region opens => exact follows_whileBody h temps value region opens
  | whileEnd calm opens => exact follows_endLoop h calm opens rfl
  | forStart calm => exact follows_forStart h calm
  | forCondition temps value _ region opens => exact follows_forCondition h temps value region opens
  | forStep calm opens reached => exact follows_forStep h calm opens reached
  | forStepEnd temps value _ region opens => exact follows_forStepEnd h temps value region opens
  | forBody calm opens reached => exact follows_forBody h calm opens reached
  | forEnd calm opens => exact follows_endLoop h calm opens rfl
  | loopStart calm => exact follows_loopStart h calm
  | loopEnd calm opens => exact follows_loopEnd h calm opens
  | breakLoop calm => exact follows_breakLoop h calm
  | continueLoop calm => exact follows_continueLoop h calm
  | beginType => cases own
  | beginGlobalType => cases own
  | inheritFrom => cases own
  | endType => cases own
  | endSubtype => cases own

end Following

end ScriptEngine
