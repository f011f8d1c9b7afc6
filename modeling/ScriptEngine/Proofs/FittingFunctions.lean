import ScriptEngine.Proofs.FittingStatements

/-!
# Functions and types fit

A function begins with nothing piled up and ends in the same way, with no control structure
open; its chunk is listed with the thread that goes through it. With the lemma for each
rule of `Piled` this gives one for all directives and, by induction, one for programs.
-/
namespace ScriptEngine

open Assembler Piece Trace

section Types
variable {F : Site} {ρ : List Piece} {a : Assembler} {p : Piece}

theorem fitted_beginType (h : Fitted ⟨F, ρ⟩ a) (kind : TypeKind) (name : String) (bare : Bare ρ) :
    Safely (beginType kind name) a fun _ => Fitted ⟨F, .typeBody false :: ρ⟩ := by
  obtain ⟨want, cs, t, h, laid⟩ := Fitted.stands flat_nil h
  refine safely_then (stands_nameConstant h name) fun index _ h => safely_then (stands_declare h name) fun _ _ h => ?_
  refine safely_then (stands_calm h rfl fun _ => rfl) fun _ _ h => safely_then (stands_define h name) ?_
  rintro _ a' ⟨u, h⟩
  obtain ⟨want', traced, onward, -⟩ := h.here
  refine safely_modify ⟨⟨h.around.outer, h.around.aside, ?_, h.around.chunks⟩, want', cs, u, ?_,
    .typeBody ((laid.follow onward).bare bare [])⟩
  · exact congrArg (false :: ·) h.around.types
  · exact scopes_typeBody ρ ▸ traced

theorem fitted_inheritFrom (h : Fitted ⟨F, .typeBody false :: ρ⟩ a) (parent name : String) :
    Safely (inheritFrom parent name) a fun _ => Fitted ⟨F, .typeBody true :: ρ⟩ := by
  obtain ⟨want, cs, t, h, laid⟩ := Fitted.stands flat_nil h
  have rest := laid.of_typeBody
  rw [scopes_typeBody] at h
  refine safely_then (stands_load h parent) fun _ _ h => safely_then (stands_beginScope h) fun _ _ h => ?_
  refine safely_then (stands_pushLocal h "super") fun _ _ h => safely_then (stands_complete h) fun _ _ h => ?_
  refine safely_then (stands_load h name) fun _ _ h => ?_
  refine safely_then (stands_calm h rfl fun _ => rfl) fun _ a' h => ?_
  have types : a'.types.map TypeScope.hasSuper = false :: (⟨F, ρ⟩ : Piles).flags := h.around.types
  obtain ⟨scope, ts, eq, -, below⟩ := List.map_eq_cons_iff.mp types
  obtain ⟨want', traced, onward, -⟩ := h.here
  refine safely_modify ?_
  rw [eq]
  exact ⟨⟨h.around.outer, h.around.aside, congrArg (true :: ·) below, h.around.chunks⟩, want', cs, [],
    scopes_inherits ρ ▸ traced, .typeBody (rest.follow onward)⟩

theorem fitted_endType {inherits : Bool} (h : Fitted ⟨F, p :: .typeBody inherits :: ρ⟩ a) (temp : p.isTemp) (bare : Bare ρ) :
    Safely endType a fun _ => Fitted ⟨F, ρ⟩ := by
  obtain ⟨want, cs, t, h, laid⟩ := Fitted.stands (τ := [p]) (flat_of_temps (temps_singleton temp)) h
  have rest := (laid.temp temp).of_typeBody
  refine safely_then (stands_calm h rfl fun _ => rfl) fun _ _ h => ?_
  refine safely_then (stands_calm h rfl fun _ => rfl) fun _ a' h => safely_bind (safely_get ?_)
  have types : a'.types.map TypeScope.hasSuper = inherits :: (⟨F, ρ⟩ : Piles).flags := h.around.types
  obtain ⟨scope, ts, eq, super, below⟩ := List.map_eq_cons_iff.mp types
  -- what is left is the scope of the supertype, if there is one
  have close {u : Trace} {a'' : Assembler}
      (h : Stands ⟨F, inherits :: (⟨F, ρ⟩ : Piles).flags, a.body.chunk, want⟩ [] cs (scopes ρ) u a'') :
      Safely (modify fun a => { a with types := ts }) a'' fun _ => Fitted ⟨F, ρ⟩ := by
    obtain ⟨want', traced, onward, -⟩ := h.here
    exact safely_modify ⟨⟨h.around.outer, h.around.aside, below, h.around.chunks⟩, want', cs, u, traced,
      (rest.follow onward).bare bare u⟩
  rw [eq]
  dsimp only
  rw [super]
  cases inherits with
  | true =>
    rw [scopes_inherits] at h
    exact safely_then (stands_endScope h) fun _ a'' ⟨u, h⟩ => close h
  | false =>
    rw [scopes_typeBody] at h
    exact close h

end Types

section Functions
variable {F : Site} {τ ρ : List Piece} {a : Assembler} {kind : FunctionKind} {m : Modifiers}

theorem fitted_beginFunction (h : Fitted ⟨F, ρ⟩ a) (name : String) (impure : kind.fills → m.isPure = false) :
    Safely (beginFunction kind name m) a fun _ => Fitted ⟨F.within ρ kind m, []⟩ := by
  refine safely_bind (safely_get ?_)
  dsimp only
  by_cases deep : a.level + 1 ≥ 256
  · rw [if_pos deep]
    exact safely_bind (safely_throw rfl)
  · rw [if_neg deep]
    exact safely_set ⟨⟨.cons h.here h.around.outer, h.around.aside, h.around.types, h.around.chunks⟩,
      fun _ => [], [], [], ⟨rfl, rfl, ⟨_, .empty rfl rfl, rfl⟩, rfl, fun _ => Nat.one_pos, impure⟩, .nil⟩

/-- Leaving a function in which nothing is piled up. -/
theorem fitted_popBody (h : Fitted ⟨F.within ρ kind m, []⟩ a) :
    Safely popBody a fun b a' => b = a.body ∧ Fitted ⟨F, ρ⟩ a' := by
  refine safely_bind (safely_get ?_)
  have outer := h.around.outer
  split
  · rename_i e outer' eq
    rw [eq] at outer
    cases outer with
    | cons first others =>
      exact safely_bind (safely_set (safely_pure ⟨rfl, ⟨others, h.around.aside, h.around.types, h.around.chunks⟩, first⟩))
  · rename_i eq
    rw [eq] at outer
    cases outer

theorem stands_captures {G : Ground} {ws : List (UInt16 × Trace)} {cs : List Control} {s : Nat} {t : Trace}
    (h : Stands G ws cs s t a) (captures : List Capture) :
    Safely (captures.forM fun c => emit (.capture c)) a fun _ => Stands G ws cs s t :=
  safely_forM h fun _ _ h => stands_emit h (fun _ _ => knows_refl _) (fun _ _ => nofun) fun _ _ _ => trivial

/-- The function that ends leaves its chunk, and a closure in the one around it. -/
theorem fitted_endFunction (h : Fitted ⟨F.within ρ kind m, []⟩ a) :
    Safely endFunction a fun _ => Fitted ⟨F, .value :: ρ⟩ := by
  have returned : Safely implicitReturn a fun _ => Fitted ⟨F.within ρ kind m, []⟩ := fitted_still (d := .implicitReturn) h rfl bare_nil
  refine safely_then returned fun _ a' h => ?_
  obtain ⟨want, cs, t, traced, laid⟩ := h.here
  obtain ⟨T, thread, -⟩ := traced.thread
  have control : a'.body.control = [] := traced.control.trans laid.control_nil
  refine safely_then (fitted_popBody h) ?_
  rintro _ a'' ⟨rfl, h⟩
  dsimp only
  rw [control]
  refine safely_bind (safely_get (safely_bind (safely_modify ?_)))
  have listed : Fitted ⟨F, ρ⟩ { a'' with chunks := a''.chunks.push (a'.body.chunk.counted a'.body.captures.size) } :=
    ⟨⟨h.around.outer, h.around.aside, h.around.types, fun c hc => ?_⟩, h.here⟩
  · obtain ⟨want, cs, t, h, laid⟩ := Fitted.stands flat_nil listed
    refine safely_then (stands_constant h _) fun _ _ h => ?_
    refine safely_then (stands_emit (u := none :: t) h (fun _ _ => knows_refl _) (fun _ _ => nofun) fun _ _ _ => trivial)
      fun _ _ h => ?_
    refine safely_mono (stands_captures h _) fun _ a h => ?_
    exact Stands.fitted (τ := [.value]) (flat_singleton rfl) h fun _ _ onward _ => .value (laid.follow onward)
  · rcases Array.mem_push.mp hc with hc | rfl
    · exact h.around.chunks c hc
    · exact ⟨T, want, thread.congr rfl rfl rfl⟩

theorem fitted_endInitChain (h : Fitted ⟨F.within ρ kind m, []⟩ a) (bare : Bare ρ) (fields : List String) :
    Safely (endInitChain fields) a fun _ => Fitted ⟨F, ρ⟩ := by
  refine safely_then (fitted_endFunction h) fun _ a' h => ?_
  refine fitted_calm (τ := [.value]) (n := 0) h (temps_singleton rfl) bare fun {G cs s t} h => ?_
  refine safely_then (stands_calm h rfl fun _ => rfl) fun _ _ h => ?_
  refine safely_forM (I := fun a => ∃ u, Stands G [] cs s u a) ⟨[], h⟩ ?_
  rintro name a ⟨u, h⟩
  exact safely_then (stands_nameConstant h name) fun _ _ h => safely_mono (stands_calm h rfl fun _ => rfl) fun _ _ h => ⟨[], h⟩

/-- What a named instruction does with a closure and with the values below it. -/
theorem fitted_named {make : UInt16 → Instruction} (h : Fitted ⟨F, τ ++ ρ⟩ a) (temps : ∀ p ∈ τ, p.isTemp) (bare : Bare ρ)
    (target : ∀ n, (make n).target? = none) (still : ∀ n, (make n).stores = false) (name : String) :
    Safely (emitNamed make name) a fun _ => Fitted ⟨F, ρ⟩ :=
  fitted_calm (n := 0) h temps bare fun h => safely_then (stands_nameConstant h name) fun n _ h =>
    safely_mono (stands_calm h (target n) fun _ => still n) fun _ _ h => ⟨[], h⟩

theorem Fitted.sets (h : Fitted ⟨F, ρ⟩ a) (sets : List Nat) : Fitted ⟨F, ρ⟩ { a with testSets := sets } :=
  ⟨⟨h.around.outer, h.around.aside, h.around.types, h.around.chunks⟩, h.here⟩

theorem fitted_beginTest (h : Fitted ⟨F, ρ⟩ a) (name : String) :
    Safely (beginTest name) a fun _ => Fitted ⟨F.within ρ .function {}, []⟩ := by
  obtain ⟨want, cs, t, h, laid⟩ := Fitted.stands flat_nil h
  refine safely_then (stands_nameConstant h name) fun _ a' h => ?_
  have h := Stands.fitted flat_nil h fun _ _ onward _ => laid.follow onward
  exact safely_then (fitted_beginFunction h name fun _ => rfl) fun _ _ h => safely_modify (h.sets _)

theorem fitted_beginCase (h : Fitted ⟨F, ρ⟩ a) (name : String) :
    Safely (perform (.beginCase name)) a fun _ => Fitted ⟨F.within ρ .function {}, []⟩ := by
  obtain ⟨want, cs, t, h, laid⟩ := Fitted.stands flat_nil h
  refine safely_then (stands_nameConstant h name) fun _ a' h => ?_
  have h := Stands.fitted flat_nil h fun _ _ onward _ => laid.follow onward
  exact fitted_beginFunction h name fun _ => rfl

theorem fitted_endTest (h : Fitted ⟨F.within ρ kind m, []⟩ a) (bare : Bare ρ) (name : String) :
    Safely (endTest name) a fun _ => Fitted ⟨F, ρ⟩ := by
  refine safely_bind (safely_modify (safely_then (fitted_endFunction (h.sets _)) fun _ a' h => ?_))
  exact fitted_named (τ := [.value]) h (temps_singleton rfl) bare (fun _ => rfl) (fun _ => rfl) name

theorem fitted_endCase (h : Fitted ⟨F.within (τ ++ ρ) kind m, []⟩ a) (temps : ∀ p ∈ τ, p.isTemp) (bare : Bare ρ)
    (name : String) (hasRows : Bool) : Safely (perform (.endCase name hasRows)) a fun _ => Fitted ⟨F, ρ⟩ :=
  safely_then (fitted_endFunction h) fun _ _ h => fitted_named (τ := .value :: τ) h (List.forall_mem_cons.mpr ⟨rfl, temps⟩) bare
    (fun _ => rfl) (fun _ => rfl) name

theorem fitted_stepOut (h : Fitted ⟨F.within ρ kind m, []⟩ a) : Safely stepOut a fun _ => Fitted ⟨F.setAside kind m, ρ⟩ := by
  have here := h.here
  refine safely_then (fitted_popBody h) ?_
  rintro _ a' ⟨rfl, h⟩
  exact safely_modify ⟨⟨h.around.outer, .cons here h.around.aside, h.around.types, h.around.chunks⟩, h.here⟩

theorem fitted_stepIn (h : Fitted ⟨F.setAside kind m, ρ⟩ a) : Safely stepIn a fun _ => Fitted ⟨F.within ρ kind m, []⟩ := by
  refine safely_bind (safely_get ?_)
  have aside := h.around.aside
  split
  · rename_i b aside' eq
    rw [eq] at aside
    cases aside with
    | cons first others =>
      exact safely_set ⟨⟨.cons h.here h.around.outer, others, h.around.types, h.around.chunks⟩, first⟩
  · rename_i eq
    rw [eq] at aside
    cases aside

/-- With the chunk of the script all chunks are listed. -/
theorem fitted_endScript (h : Fitted .initial a) : Safely endScript a fun _ => Fitted .initial := by
  obtain ⟨want, cs, t, h, laid⟩ := Fitted.stands flat_nil h
  refine safely_then (stands_calm h rfl fun _ => rfl) fun _ _ h => ?_
  refine safely_then (stands_calm h rfl fun _ => rfl) fun _ a' h => safely_bind (safely_get ?_)
  have outer : a'.outer = [] := by
    have := h.around.outer
    revert this
    generalize a'.outer = bs
    rintro ⟨⟩
    rfl
  have control : a'.body.control = [] := h.control.trans laid.control_nil
  have here := Stands.fitted flat_nil h fun _ _ onward _ => (laid.follow onward).bare bare_nil []
  obtain ⟨want', traced, -⟩ := h.here
  obtain ⟨T, thread, -⟩ := traced.thread
  rw [outer, control]
  refine safely_set ⟨⟨outer ▸ h.around.outer, h.around.aside, h.around.types, fun c hc => ?_⟩, here.here⟩
  rcases Array.mem_push.mp hc with hc | rfl
  · exact h.around.chunks c hc
  · exact ⟨T, want', thread⟩

end Functions

/-! ## All directives -/

theorem fitted_lay {d : Directive} {F : Site} {ρ σ : List Piece} {a : Assembler} (lay : Lay F.kind d ρ σ)
    (h : Fitted ⟨F, ρ⟩ a) : Safely (perform d) a fun _ => Fitted ⟨F, σ⟩ := by
  cases lay with
  | simple effect other length temps => exact fitted_simple h effect other length temps
  | quiet quiet => exact fitted_quiet h quiet
  | object => exact fitted_newDynamic h
  | again => exact fitted_again h
  | field temp => exact fitted_field h temp
  | preset temp receiver fills => exact fitted_preset h temp receiver fills
  | short opens temp => exact fitted_short h opens temp
  | shortEnd temp => exact fitted_shortEnd h temp
  | still still bare => exact fitted_still h still bare
  | storeMatching fills bare => exact fitted_storeMatching h fills bare _
  | definition defines temp bare => exact fitted_definition h defines temp bare
  | ret temps bare => exact fitted_forget (n := 0) h temps bare rfl rfl
  | @count t ρ _ temp bare => exact fitted_forget (τ := [t]) (n := 2) h (temps_singleton temp) bare rfl rfl
  | byte bare => exact fitted_forget (τ := []) (n := 1) h (by simp) bare rfl rfl
  | validate bare => exact fitted_forget (τ := [.value, .value, .value]) (n := 1) h (by simp [isTemp]) bare rfl rfl
  | beginScope bare => exact fitted_beginScope h bare
  | endScope bare => exact fitted_endScope h bare
  | branch temp bare => exact fitted_branch h temp bare
  | branchElse => exact fitted_branchElse h
  | branchEnd => exact fitted_branchEnd h
  | whileStart bare => exact fitted_whileStart h bare
  | whileBody temp => exact fitted_whileBody h temp
  | whileEnd => exact fitted_endLoop h (.inl rfl)
  | forStart bare => exact fitted_forStart h bare
  | forTest tests temp =>
    obtain rfl | rfl := tests
    · exact fitted_forCondition h temp
    · exact fitted_forStepEnd h temp
  | forGoes goes =>
    obtain rfl | rfl := goes
    · exact fitted_forStep h
    · exact fitted_forBody h
  | forEnd => exact fitted_endLoop h (.inr rfl)
  | loopStart bare => exact fitted_loopStart h bare
  | loopEnd => exact fitted_loopEnd h
  | beginType bare => exact fitted_beginType h _ _ bare
  | inheritFrom => exact fitted_inheritFrom h _ _
  | endType temp bare => exact fitted_endType h temp bare

theorem fitted_begins {d : Directive} {F : Site} {ρ : List Piece} {kind : FunctionKind} {m : Modifiers} {a : Assembler}
    (begins : d.begins? = some (kind, m)) (impure : kind.fills → m.isPure = false) (h : Fitted ⟨F, ρ⟩ a) :
    Safely (perform d) a fun _ => Fitted ⟨F.within ρ kind m, []⟩ := by
  cases d with
  | beginFunction kind name m =>
    cases begins
    exact fitted_beginFunction h name impure
  | beginInitChain =>
    cases begins
    exact fitted_beginFunction h _ impure
  | beginTest name =>
    cases begins
    exact fitted_beginTest h name
  | beginCase name =>
    cases begins
    exact fitted_beginCase h name
  | _ => cases begins

theorem fitted_piled {d : Directive} {P P' : Piles} {a : Assembler} (piled : Piled d P P') (h : Fitted P a) :
    Safely (perform d) a fun _ => Fitted P' := by
  cases piled with
  | here lay => exact fitted_lay lay h
  | begins begins impure => exact fitted_begins begins impure h
  | endFunction => exact fitted_endFunction h
  | endInitChain bare => exact fitted_endInitChain h bare _
  | endTest bare => exact fitted_endTest h bare _
  | endCase _ temps bare => exact fitted_endCase h temps bare _ _
  | stepOut => exact fitted_stepOut h
  | stepIn => exact fitted_stepIn h
  | endScript => exact fitted_endScript h

theorem fitted_start (scriptName : String) : Fitted .initial (start scriptName) :=
  ⟨⟨.nil, .nil, rfl, nofun⟩, fun _ => [], [], [], ⟨rfl, rfl, ⟨_, .empty rfl rfl, rfl⟩, rfl, nofun, nofun⟩, .nil⟩

theorem fitted_step {t : Step} {P P' : Piles} {a : Assembler} (piled : Piled t.directive P P') (h : Fitted P a) :
    Safely (performStep t) a fun _ => Fitted P' :=
  safely_bind (safely_modify (fitted_piled piled
    ⟨⟨h.around.outer, h.around.aside, h.around.types, h.around.chunks⟩, h.here⟩))

/-- Directives that pile up are performed, unless the source is at fault. -/
theorem fitted_performAll {steps : List Step} {P P' : Piles} {a : Assembler}
    (become : P.Become (steps.map (·.directive)) P') (h : Fitted P a) : Safely (performAll steps) a fun _ => Fitted P' := by
  induction steps generalizing P a with
  | nil =>
    cases become
    exact safely_pure h
  | cons t steps ih =>
    cases become with
    | cons first rest => exact safely_then (fitted_step first h) fun _ a' h => ih rest h

end ScriptEngine
