import ScriptEngine.Proofs.Outline

/-!
# What directives pile up

Whether the directives of a program fit together does not depend on its variables. For
each function that is open a pile is kept of the values that have been computed and the
constructs that have been opened, the last one on top. `Lay` is what a directive does to
the pile of the innermost function and `Piled` what it does to all of them. A directive
that finds the wrong thing on top has no rule.

Outlines say more, but of complete programs only. Piles are kept by everything that the
grammar writes, also ahead of an error, and they tell the object that a literal fills
from other values.
-/
namespace ScriptEngine

/-- Faults that are not the fault of a source. -/
def CompileFault.isInternal : CompileFault → Bool
  | .exhausted | .unbalanced => true
  | _ => false

/-- A value that has been computed, or a construct that is open. -/
inductive Piece where
  | value
  /-- The object that a literal fills with fields. -/
  | object
  /-- The right operand of a short circuit. -/
  | short
  | alternative
  | otherwise
  | whileLoop
  | forLoop
  | endless
  | scope
  /-- A type, which keeps a hidden scope open if it has a supertype. -/
  | typeBody (inherits : Bool)
  deriving DecidableEq, Repr

namespace Piece

def isTemp : Piece → Bool
  | value | object => true
  | _ => false

/-- Open within an expression. -/
def isInner : Piece → Bool
  | object | short => true
  | _ => false

/-- Between statements there is nothing that is open within an expression. -/
def Bare (ρ : List Piece) : Prop := ∀ p ∈ ρ, p.isInner = false

theorem bare_nil : Bare [] := by simp [Bare]

theorem bare_cons {p : Piece} {ρ : List Piece} : Bare (p :: ρ) ↔ p.isInner = false ∧ Bare ρ := by
  simp [Bare]

end Piece

open Piece

/-- A function that waits for others to end. -/
structure Pile where
  kind : FunctionKind
  modifiers : Modifiers
  pieces : List Piece
  deriving DecidableEq, Repr

/-- All that is open but for the pile of the innermost function. -/
structure Site where
  kind : FunctionKind
  modifiers : Modifiers
  outer : List Pile := []
  /-- Functions stepped out of, before anything is piled up in them. -/
  aside : List (FunctionKind × Modifiers) := []
  deriving DecidableEq, Repr

structure Piles where
  site : Site
  pieces : List Piece
  deriving DecidableEq, Repr

/-- A function within another one, whose pile is given. -/
def Site.within (F : Site) (ρ : List Piece) (kind : FunctionKind) (m : Modifiers) : Site :=
  ⟨kind, m, ⟨F.kind, F.modifiers, ρ⟩ :: F.outer, F.aside⟩

def Site.setAside (F : Site) (kind : FunctionKind) (m : Modifiers) : Site := { F with aside := (kind, m) :: F.aside }

/-- Functions that store the fields of their receiver. -/
def FunctionKind.fills : FunctionKind → Bool
  | .init | .initChain => true
  | _ => false

/-- Directives of statements that leave the pile as it is. -/
def Directive.isStill : Directive → Bool
  | .declare _ | .declareFunction _ | .parameter _ | .resultName _ | .implicitReturn
  | .breakLoop | .continueLoop | .caseCheck | .plain .multiVarStart _ => true
  | _ => false

/-- Directives that make variables of what is on top. -/
def Directive.isDefinition : Directive → Bool
  | .define _ | .defineMany _ => true
  | _ => false

/-- The directive that stores a field of an object below the value, and drops both. -/
def Directive.fillsField : Directive → Bool
  | .storeField _ => true
  | _ => false

/-- What a directive does to the pile of a function of a kind. -/
inductive Lay (kind : FunctionKind) : Directive → List Piece → List Piece → Prop
  | simple {d : Directive} {takes gives : Nat} {τ ρ : List Piece} (effect : d.effect = some (takes, gives))
      (other : d.fillsField = false) (length : τ.length = takes) (temps : ∀ p ∈ τ, p.isTemp) :
      Lay kind d (τ ++ ρ) (List.replicate gives .value ++ ρ)
  | quiet {d : Directive} {ρ : List Piece} (quiet : d.isQuiet) : Lay kind d ρ ρ
  -- the objects of literals
  | object {ρ : List Piece} {h} : Lay kind (.plain .newDynamic h) ρ (.object :: ρ)
  | again {ρ : List Piece} {h} : Lay kind (.plain .duplicate h) (.object :: ρ) (.object :: .object :: ρ)
  | field {name : String} {t : Piece} {ρ : List Piece} (temp : t.isTemp) :
      Lay kind (.storeField name) (t :: .object :: ρ) ρ
  /-- The default of a field, stored to the receiver. -/
  | preset {name : String} {t u : Piece} {ρ : List Piece} (temp : t.isTemp) (receiver : u.isTemp)
      (fills : kind.fills) : Lay kind (.storeField name) (t :: u :: ρ) ρ
  | short {d : Directive} {t : Piece} {ρ : List Piece} (opens : d = .andThen ∨ d = .orElse) (temp : t.isTemp) :
      Lay kind d (t :: ρ) (.short :: ρ)
  | shortEnd {t : Piece} {ρ : List Piece} (temp : t.isTemp) : Lay kind .shortEnd (t :: .short :: ρ) (.value :: ρ)
  -- statements
  | still {d : Directive} {ρ : List Piece} (still : d.isStill) (bare : Bare ρ) : Lay kind d ρ ρ
  | storeMatching {fields : List String} {ρ : List Piece} (fills : kind.fills) (bare : Bare ρ) :
      Lay kind (.storeMatching fields) ρ ρ
  | definition {d : Directive} {t : Piece} {ρ : List Piece} (defines : d.isDefinition) (temp : t.isTemp)
      (bare : Bare ρ) : Lay kind d (t :: ρ) ρ
  | ret {n : UInt8} {τ ρ : List Piece} {h} (temps : ∀ p ∈ τ, p.isTemp) (bare : Bare ρ) :
      Lay kind (.plain (.ret n) h) (τ ++ ρ) ρ
  | count {t : Piece} {ρ : List Piece} {h} (temp : t.isTemp) (bare : Bare ρ) :
      Lay kind (.plain .multiVarEnd h) (t :: ρ) (.value :: .value :: ρ)
  | byte {n : UInt8} {ρ : List Piece} {h} (bare : Bare ρ) : Lay kind (.plain (.pushByte n) h) ρ (.value :: ρ)
  | validate {v : Check} {ρ : List Piece} {h} (bare : Bare ρ) :
      Lay kind (.plain (.validate v) h) (.value :: .value :: .value :: ρ) (.value :: ρ)
  | beginScope {ρ : List Piece} (bare : Bare ρ) : Lay kind .beginScope ρ (.scope :: ρ)
  | endScope {ρ : List Piece} (bare : Bare ρ) : Lay kind .endScope (.scope :: ρ) ρ
  | branch {t : Piece} {ρ : List Piece} (temp : t.isTemp) (bare : Bare ρ) :
      Lay kind .branch (t :: ρ) (.alternative :: ρ)
  | branchElse {ρ : List Piece} (bare : Bare ρ) : Lay kind .branchElse (.alternative :: ρ) (.otherwise :: ρ)
  | branchEnd {ρ : List Piece} (bare : Bare ρ) : Lay kind .branchEnd (.otherwise :: ρ) ρ
  | whileStart {ρ : List Piece} (bare : Bare ρ) : Lay kind .whileStart ρ (.whileLoop :: ρ)
  | whileBody {t : Piece} {ρ : List Piece} (temp : t.isTemp) (bare : Bare ρ) :
      Lay kind .whileBody (t :: .whileLoop :: ρ) (.whileLoop :: ρ)
  | whileEnd {ρ : List Piece} (bare : Bare ρ) : Lay kind .whileEnd (.whileLoop :: ρ) ρ
  | forStart {ρ : List Piece} (bare : Bare ρ) : Lay kind .forStart ρ (.forLoop :: ρ)
  | forTest {d : Directive} {t : Piece} {ρ : List Piece} (tests : d = .forCondition ∨ d = .forStepEnd)
      (temp : t.isTemp) (bare : Bare ρ) : Lay kind d (t :: .forLoop :: ρ) (.forLoop :: ρ)
  | forGoes {d : Directive} {ρ : List Piece} (goes : d = .forStep ∨ d = .forBody) (bare : Bare ρ) :
      Lay kind d (.forLoop :: ρ) (.forLoop :: ρ)
  | forEnd {ρ : List Piece} (bare : Bare ρ) : Lay kind .forEnd (.forLoop :: ρ) ρ
  | loopStart {ρ : List Piece} (bare : Bare ρ) : Lay kind .loopStart ρ (.endless :: ρ)
  | loopEnd {ρ : List Piece} (bare : Bare ρ) : Lay kind .loopEnd (.endless :: ρ) ρ
  | beginType {k : TypeKind} {name : String} {ρ : List Piece} (bare : Bare ρ) :
      Lay kind (.beginType k name) ρ (.typeBody false :: ρ)
  | inheritFrom {parent name : String} {ρ : List Piece} (bare : Bare ρ) :
      Lay kind (.inheritFrom parent name) (.typeBody false :: ρ) (.typeBody true :: ρ)
  | endType {t : Piece} {inherits : Bool} {ρ : List Piece} (temp : t.isTemp) (bare : Bare ρ) :
      Lay kind .endType (t :: .typeBody inherits :: ρ) ρ

/-- The function that a directive begins. -/
def Directive.begins? : Directive → Option (FunctionKind × Modifiers)
  | .beginFunction kind _ m => some (kind, m)
  | .beginInitChain => some (.initChain, {})
  | .beginTest _ | .beginCase _ => some (.function, {})
  | _ => none

/-- What a directive does to the piles. -/
inductive Piled : Directive → Piles → Piles → Prop
  | here {d : Directive} {F : Site} {ρ σ : List Piece} (lay : Lay F.kind d ρ σ) : Piled d ⟨F, ρ⟩ ⟨F, σ⟩
  | begins {d : Directive} {F : Site} {ρ : List Piece} {kind : FunctionKind} {m : Modifiers}
      (begins : d.begins? = some (kind, m)) (impure : kind.fills → m.isPure = false) :
      Piled d ⟨F, ρ⟩ ⟨F.within ρ kind m, []⟩
  | endFunction {F : Site} {ρ : List Piece} {kind : FunctionKind} {m : Modifiers} :
      Piled .endFunction ⟨F.within ρ kind m, []⟩ ⟨F, .value :: ρ⟩
  | endInitChain {F : Site} {ρ : List Piece} {kind : FunctionKind} {m : Modifiers} {fields : List String}
      (bare : Bare ρ) : Piled (.endInitChain fields) ⟨F.within ρ kind m, []⟩ ⟨F, ρ⟩
  | endTest {F : Site} {ρ : List Piece} {kind : FunctionKind} {m : Modifiers} {name : String} (bare : Bare ρ) :
      Piled (.endTest name) ⟨F.within ρ kind m, []⟩ ⟨F, ρ⟩
  | endCase {F : Site} {τ ρ : List Piece} {kind : FunctionKind} {m : Modifiers} {name : String} {hasRows : Bool}
      (length : τ.length = if hasRows then 1 else 0) (temps : ∀ p ∈ τ, p.isTemp) (bare : Bare ρ) :
      Piled (.endCase name hasRows) ⟨F.within (τ ++ ρ) kind m, []⟩ ⟨F, ρ⟩
  | stepOut {F : Site} {ρ : List Piece} {kind : FunctionKind} {m : Modifiers} :
      Piled .stepOut ⟨F.within ρ kind m, []⟩ ⟨F.setAside kind m, ρ⟩
  | stepIn {F : Site} {ρ : List Piece} {kind : FunctionKind} {m : Modifiers} :
      Piled .stepIn ⟨F.setAside kind m, ρ⟩ ⟨F.within ρ kind m, []⟩
  | endScript : Piled .endScript ⟨⟨.script, {}, [], []⟩, []⟩ ⟨⟨.script, {}, [], []⟩, []⟩

section Values
variable {F : Site} {ρ : List Piece} {d : Directive}

theorem temps_singleton {t : Piece} (temp : t.isTemp) : ∀ p ∈ [t], p.isTemp := by simpa using temp

/-- A directive that takes nothing. -/
theorem piled_push (effect : d.effect = some (0, 1)) (other : d.fillsField = false) :
    Piled d ⟨F, ρ⟩ ⟨F, .value :: ρ⟩ := .here (.simple (τ := []) effect other rfl (by simp))

theorem piled_quiet (quiet : d.isQuiet) : Piled d ⟨F, ρ⟩ ⟨F, ρ⟩ := .here (.quiet quiet)

/-- A directive that makes one value of those on top. -/
theorem piled_effect {takes : Nat} {τ σ : List Piece} (effect : d.effect = some (takes, 1))
    (other : d.fillsField = false) (split : σ = τ ++ ρ) (length : τ.length = takes)
    (temps : ∀ p ∈ τ, p.isTemp) : Piled d ⟨F, σ⟩ ⟨F, .value :: ρ⟩ := split ▸ .here (.simple effect other length temps)

theorem piled_change {t : Piece} (effect : d.effect = some (1, 1)) (other : d.fillsField = false)
    (temp : t.isTemp) : Piled d ⟨F, t :: ρ⟩ ⟨F, .value :: ρ⟩ :=
  piled_effect effect other rfl rfl (temps_singleton temp)

/-- A directive that uses the value on top up. -/
theorem piled_use {t : Piece} (effect : d.effect = some (1, 0)) (other : d.fillsField = false)
    (temp : t.isTemp) : Piled d ⟨F, t :: ρ⟩ ⟨F, ρ⟩ :=
  .here (.simple (τ := [t]) effect other rfl (temps_singleton temp))

theorem piled_join {t u : Piece} (effect : d.effect = some (2, 1)) (other : d.fillsField = false)
    (temp : t.isTemp) (temp' : u.isTemp) : Piled d ⟨F, t :: u :: ρ⟩ ⟨F, .value :: ρ⟩ :=
  piled_effect (τ := [t, u]) effect other rfl rfl (by simp [temp, temp'])

/-- So many values have been pushed. -/
def Rises (F : Site) (ρ : List Piece) (m : Nat) (P : Piles) : Prop :=
  ∃ τ : List Piece, P = ⟨F, τ ++ ρ⟩ ∧ τ.length = m ∧ ∀ p ∈ τ, p.isTemp

theorem Rises.none : Rises F ρ 0 ⟨F, ρ⟩ := ⟨[], rfl, rfl, by simp⟩

theorem Rises.push {m : Nat} {σ : List Piece} {t : Piece} (h : Rises F ρ m ⟨F, σ⟩) (temp : t.isTemp) :
    Rises F ρ (m + 1) ⟨F, t :: σ⟩ := by
  obtain ⟨τ, eq, rfl, temps⟩ := h
  obtain rfl : σ = τ ++ ρ := congrArg Piles.pieces eq
  exact ⟨t :: τ, rfl, rfl, by simpa [temp] using temps⟩

end Values

/-- What a list of directives does to the piles. -/
inductive Piles.Become : Piles → List Directive → Piles → Prop
  | nil (P : Piles) : Become P [] P
  | cons {P P' P'' : Piles} {d : Directive} {ds : List Directive} (first : Piled d P P') (rest : Become P' ds P'') :
      Become P (d :: ds) P''

namespace Piles

theorem Become.trans {P P' P'' : Piles} {ds es : List Directive} (h : P.Become ds P') (h' : P'.Become es P'') :
    P.Become (ds ++ es) P'' := by
  induction h with
  | nil => exact h'
  | cons first _ ih => exact .cons first (ih h')

theorem Become.single {P P' : Piles} {d : Directive} (h : Piled d P P') : P.Become [d] P' := .cons h (.nil P')

def initial : Piles := ⟨⟨.script, {}, [], []⟩, []⟩

end Piles

end ScriptEngine
