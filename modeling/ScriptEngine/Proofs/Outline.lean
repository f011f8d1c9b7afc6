import ScriptEngine.Compile.Directive
import ScriptEngine.Proofs.Point

/-!
# Outlines of programs

An outline follows a list of directives without slots, labels and code: for each
function that is open it keeps the variables that live on the stack, the
temporaries above them and the constructs that are open. `Move` has a rule for
each directive and no rule for a directive out of place, so a program that moves
the outline from its start to its end is balanced.
-/
namespace ScriptEngine

/-- The name of slot zero. -/
def FunctionKind.slotName (kind : FunctionKind) : String := if kind.hasReceiver then "this" else ""

namespace Outline

inductive Phase where
  | whileTest | whileRun | forTest | forTested | forStep | forStepped | forRun | endless
  deriving DecidableEq, Repr

/-- A construct that is open. Variables are declared directly within scopes only. -/
inductive Opening where
  /-- With the number of variables outside. -/
  | scope (base : Nat)
  /-- A type, whose supertype is a hidden variable if there is one. -/
  | typeBody (inherits : Bool)
  /-- The right operand of a short circuit, above the temporaries of before. -/
  | short (temps : List Held) (region : Region)
  | alternative
  | otherwise
  | loop (phase : Phase)
  deriving DecidableEq, Repr

/-- A local that is declared and whose value is not there yet. -/
inductive Pending where
  | none
  | value (name : String)
  | function (name : String)
  deriving DecidableEq, Repr

def Pending.isFunction : Pending → Bool
  | function _ => true
  | _ => false

inductive Role where
  | plain | set | case
  deriving DecidableEq, Repr

/-- A function that is open. -/
structure Level where
  kind : FunctionKind
  role : Role := .plain
  /-- The variables on the stack, innermost first, slot zero included. -/
  vars : List String
  /-- How many of them live as long as the function: slot zero, parameters and named results. -/
  fixed : Nat := 1
  temps : List Held := []
  region : Region := .none
  pending : Pending := .none
  opens : List Opening := []
  /-- Whether anything but parameters has been met. -/
  started : Bool := false
  deriving DecidableEq, Repr

namespace Level

def ofKind (kind : FunctionKind) (role : Role := .plain) : Level :=
  { kind, role, vars := [kind.slotName] }

def touch (L : Level) : Level := { L with started := true }

def setTemps (L : Level) (temps : List Held) : Level := { L with temps, started := true }

/-- The level with so many more values. -/
def pushes (L : Level) (n : Nat) : Level := L.setTemps (List.replicate n .value ++ L.temps)

def setOpens (L : Level) (opens : List Opening) : Level := { L with opens, started := true }

/-- Between statements. -/
def Calm (L : Level) : Prop := L.temps = [] ∧ L.pending = .none ∧ L.region = .none

/-- With nothing but values above the variables, and no count that is yet to be checked. -/
structure Usual (L : Level) : Prop where
  temps : ∀ e ∈ L.temps, e.isValue
  region : ∀ s, L.region ≠ .counted s

/-- Where expressions may stand. -/
def Plain (L : Level) : Prop := L.pending.isFunction = false ∧ L.Usual

/-- Whether a declaration makes a local, and no global. -/
def inScope (L : Level) : Bool := L.kind ≠ .script || !L.opens.isEmpty

/-- Whether a declaration may stand here. -/
def Declaring (L : Level) : Prop :=
  L.opens = [] ∨ ∃ base os, L.opens = .scope base :: os ∧ base ≤ L.vars.length

/-- The level when a function within it has ended. -/
def receive (L : Level) : Level :=
  match L.pending with
  | .function name => { L with vars := name :: L.vars, pending := .none, started := true }
  | _ => L.pushes 1

@[simp] theorem touch_touch (L : Level) : L.touch.touch = L.touch := rfl

@[simp] theorem setTemps_touch (L : Level) (temps : List Held) :
    L.touch.setTemps temps = L.setTemps temps := rfl

@[simp] theorem setTemps_setTemps (L : Level) (s t : List Held) :
    (L.setTemps s).setTemps t = L.setTemps t := rfl

@[simp] theorem setTemps_temps (L : Level) (temps : List Held) :
    (L.setTemps temps).temps = temps := rfl

@[simp] theorem pushes_zero (L : Level) : L.pushes 0 = L.touch := rfl

@[simp] theorem pushes_touch (L : Level) (n : Nat) : L.touch.pushes n = L.pushes n := rfl

@[simp] theorem touch_pushes (L : Level) (n : Nat) : (L.pushes n).touch = L.pushes n := rfl

@[simp] theorem pushes_pushes (L : Level) (m n : Nat) : (L.pushes m).pushes n = L.pushes (m + n) := by
  unfold pushes
  rw [setTemps_setTemps, setTemps_temps, ← List.append_assoc, List.replicate_append_replicate,
    Nat.add_comm]

theorem usual_empty {L : Level} (temps : L.temps = []) (region : ∀ s, L.region ≠ .counted s) : L.Usual :=
  ⟨fun _ he => absurd (temps ▸ he) List.not_mem_nil, region⟩

theorem Calm.usual {L : Level} (h : L.Calm) : L.Usual :=
  usual_empty h.1 fun s hs => by rw [h.2.2] at hs; cases hs

theorem Usual.setTemps {L : Level} (h : L.Usual) {temps : List Held} (values : ∀ e ∈ temps, e.isValue) :
    (L.setTemps temps).Usual := ⟨values, h.region⟩

/-- One value above the variables, outside of regions. -/
theorem usual_single {L : Level} {e : Held} (temps : L.temps = [e]) (value : e.isValue) (region : L.region = .none) :
    L.Usual :=
  ⟨fun x hx => by rw [temps] at hx; exact List.mem_singleton.mp hx ▸ value,
    fun s hs => by rw [region] at hs; cases hs⟩

theorem usual_values {L : Level} {n : Nat} (temps : L.temps = List.replicate n .value)
    (region : ∀ s, L.region ≠ .counted s) : L.Usual :=
  ⟨fun e he => by rw [temps] at he; rw [List.eq_of_mem_replicate he]; rfl, region⟩

@[simp] theorem usual_pushes {L : Level} {n : Nat} : (L.pushes n).Usual ↔ L.Usual := by
  refine ⟨fun h => ⟨fun e he => h.temps e (List.mem_append_right _ he), h.region⟩,
    fun h => h.setTemps fun e he => ?_⟩
  rcases List.mem_append.mp he with he | he
  · rw [List.eq_of_mem_replicate he]
    rfl
  · exact h.temps e he

@[simp] theorem plain_pushes {L : Level} {n : Nat} : (L.pushes n).Plain ↔ L.Plain := and_congr_right fun _ => usual_pushes

end Level

end Outline

open Outline in
structure Outline where
  here : Level
  outer : List Level := []
  /-- Functions stepped out of, with the roles of the functions around them. -/
  aside : List (Level × Role) := []
  /-- Whether a test case may begin. -/
  ready : Bool := false
  deriving DecidableEq, Repr

namespace Outline

/-- Where expressions may stand. -/
def Plain (O : Outline) : Prop := O.ready = false ∧ O.here.Plain

def pushes (O : Outline) (n : Nat) : Outline := { O with here := O.here.pushes n }

@[simp] theorem pushes_pushes (O : Outline) (m n : Nat) :
    (O.pushes m).pushes n = O.pushes (m + n) := by
  unfold pushes
  rw [Level.pushes_pushes]

@[simp] theorem plain_pushes (O : Outline) (n : Nat) : (O.pushes n).Plain ↔ O.Plain :=
  and_congr_right fun _ => Level.plain_pushes

theorem Plain.pushes {O : Outline} (h : O.Plain) (n : Nat) : (O.pushes n).Plain := (plain_pushes O n).mpr h

end Outline

/-- How many temporaries a directive takes and how many it leaves, where that is all it does. -/
def Directive.effect : Directive → Option (Nat × Nat)
  | .plain (.pushByte _) _ => none
  | .plain i _ => i.effect
  | .number _ | .string _ | .load _ | .this | .receiver | .inject _ => some (0, 1)
  | .store _ | .getProperty _ => some (1, 1)
  | .getSuper _ | .setProperty _ | .staticMember _ | .method _ | .enumValue _ => some (2, 1)
  | .superInvoke _ argc => some (argc.toNat + 2, 1)
  | .invoke _ argc => some (argc.toNat + 1, 1)
  | .setIndex => some (3, 1)
  | .storeField _ => some (2, 0)
  | .register _ => some (1, 0)
  | _ => none

/-- Directives that may stand wherever their temporaries are. -/
def Directive.isFree : Directive → Bool
  | .plain (.ret _) _ | .plain .yield _ | .receiver => false
  | _ => true

/-- Directives that leave the stack alone. -/
def Directive.isQuiet : Directive → Bool
  | .reserve _ | .resolve _ | .checkStore _ | .checkSuper | .checkImpure _ | .returnCheck
  | .returnValueCheck | .leaveLoops | .loopCheck _ | .unreachable _ _ => true
  | _ => false

namespace Outline
open Held

/-- The moves of a directive within the innermost function. -/
inductive LevelMove : Directive → Level → Level → Prop
  | simple {d : Directive} {L : Level} {takes gives : Nat} {τ ρ : List Held}
      (effect : d.effect = some (takes, gives)) (temps : L.temps = τ ++ ρ)
      (length : τ.length = takes) (values : ∀ e ∈ τ, e.isValue) (plain : L.Plain)
      (ret : ∀ n h, d = .plain (.ret n) h → 1 ≤ n.toNat ∧ L.region = .none)
      (yield : ∀ h, d = .plain .yield h → L.region = .none)
      (receiver : d = .receiver → L.kind.hasReceiver) :
      LevelMove d L (L.setTemps (List.replicate gives .value ++ ρ))
  | quiet {d : Directive} {L : Level} (quiet : d.isQuiet) (pending : L.pending.isFunction = false) :
      LevelMove d L L.touch
  -- regions for several results
  | start {L : Level} {h} (temps : L.temps = []) (region : L.region = .none)
      (pending : L.pending = .none) :
      LevelMove (.plain .multiVarStart h) L { L.touch with region := .opened L.vars.length }
  | finish {L : Level} {h} {e : Held} (temps : L.temps = [e]) (value : e.isValue)
      (region : L.region = .opened L.vars.length) (pending : L.pending = .none) :
      LevelMove (.plain .multiVarEnd h) L
        { L.setTemps [.count, e] with region := .counted L.vars.length }
  | byte {L : Level} {n : UInt8} {h} {e : Held} (temps : L.temps = [.count, e]) (value : e.isValue)
      (pending : L.pending = .none) :
      LevelMove (.plain (.pushByte n) h) L (L.setTemps [.byte n, .count, e])
  | validate {L : Level} {n : UInt8} {h} {e : Held} (temps : L.temps = [.byte n, .count, e])
      (value : e.isValue) (region : L.region = .counted L.vars.length) (pending : L.pending = .none) :
      LevelMove (.plain (.validate .multiReturnMatches) h) L
        { L.setTemps (List.replicate n.toNat .value) with region := .none }
  -- scopes and declarations
  | beginScope {L : Level} (calm : L.Calm) :
      LevelMove .beginScope L (L.setOpens (.scope L.vars.length :: L.opens))
  | endScope {L : Level} {new lower : List String} {os : List Opening} (calm : L.Calm)
      (opens : L.opens = .scope lower.length :: os) (vars : L.vars = new ++ lower) :
      LevelMove .endScope L { L.setOpens os with vars := lower }
  | declare {L : Level} {name : String} (calm : L.Calm) (declaring : L.Declaring)
      (inScope : L.inScope) : LevelMove (.declare name) L { L.touch with pending := .value name }
  | declareGlobal {L : Level} {name : String} (calm : L.Calm) (inScope : L.inScope = false) :
      LevelMove (.declare name) L L.touch
  | define {L : Level} {name : String} {e : Held} (temps : L.temps = [e]) (value : e.isValue)
      (pending : L.pending = .value name) (region : L.region = .none) (declaring : L.Declaring)
      (inScope : L.inScope) :
      LevelMove (.define name) L
        { L.setTemps [] with vars := name :: L.vars, pending := .none }
  /-- A function is a variable as soon as it is there. -/
  | defined {L : Level} {name : String} {below : List String} (calm : L.Calm)
      (vars : L.vars = name :: below) (declaring : { L with vars := below }.Declaring)
      (inScope : L.inScope) : LevelMove (.define name) L L.touch
  | defineGlobal {L : Level} {name : String} {e : Held} (temps : L.temps = [e])
      (value : e.isValue) (pending : L.pending = .none) (region : L.region = .none)
      (inScope : L.inScope = false) : LevelMove (.define name) L (L.setTemps [])
  | defineMany {L : Level} {names : List String} (temps : L.temps = List.replicate names.length .value)
      (pending : L.pending = .none) (region : L.region = .none) (declaring : L.Declaring)
      (inScope : L.inScope) :
      LevelMove (.defineMany names) L { L.setTemps [] with vars := names.reverse ++ L.vars }
  | defineManyGlobal {L : Level} {names : List String}
      (temps : L.temps = List.replicate names.length .value)
      (pending : L.pending = .none) (region : L.region = .none) (inScope : L.inScope = false) :
      LevelMove (.defineMany names) L (L.setTemps [])
  | declareFunction {L : Level} {name : String} (calm : L.Calm) (declaring : L.Declaring)
      (inScope : L.inScope) :
      LevelMove (.declareFunction name) L { L.touch with pending := .function name }
  | declareGlobalFunction {L : Level} {name : String} (calm : L.Calm) (inScope : L.inScope = false) :
      LevelMove (.declareFunction name) L L.touch
  -- the head of a function
  | parameter {L : Level} {name : String} (calm : L.Calm) (opens : L.opens = [])
      (fresh : L.started = false) (inner : L.kind ≠ .script) :
      LevelMove (.parameter name) L { L with vars := name :: L.vars, fixed := L.fixed + 1 }
  | resultName {L : Level} {name : String} (calm : L.Calm) (opens : L.opens = [])
      (fixed : L.vars.length = L.fixed) (inner : L.kind ≠ .script) :
      LevelMove (.resultName name) L { L.touch with vars := name :: L.vars, fixed := L.fixed + 1 }
  | storeMatching {L : Level} {fields : List String} (calm : L.Calm) (init : L.kind = .init) :
      LevelMove (.storeMatching fields) L L.touch
  | implicitReturn {L : Level} (calm : L.Calm) :
      LevelMove .implicitReturn L L.touch
  -- control
  | andThen {L : Level} {e : Held} {rest : List Held} (temps : L.temps = e :: rest)
      (value : e.isValue) (plain : L.Plain) :
      LevelMove .andThen L { L.setTemps rest with opens := .short rest L.region :: L.opens }
  | orElse {L : Level} {e : Held} {rest : List Held} (temps : L.temps = e :: rest)
      (value : e.isValue) (plain : L.Plain) :
      LevelMove .orElse L { L.setTemps rest with opens := .short rest L.region :: L.opens }
  | shortEnd {L : Level} {e : Held} {rest : List Held} {os : List Opening}
      (opens : L.opens = .short rest L.region :: os) (temps : L.temps = e :: rest)
      (value : e.isValue) (plain : L.Plain) :
      LevelMove .shortEnd L { L.setTemps (.value :: rest) with opens := os }
  | branch {L : Level} {e : Held} (temps : L.temps = [e]) (value : e.isValue)
      (pending : L.pending = .none) (region : L.region = .none) :
      LevelMove .branch L { L.setTemps [] with opens := .alternative :: L.opens }
  | branchElse {L : Level} {os : List Opening} (calm : L.Calm) (opens : L.opens = .alternative :: os) :
      LevelMove .branchElse L (L.setOpens (.otherwise :: os))
  | branchEnd {L : Level} {os : List Opening} (calm : L.Calm) (opens : L.opens = .otherwise :: os) :
      LevelMove .branchEnd L (L.setOpens os)
  | whileStart {L : Level} (calm : L.Calm) :
      LevelMove .whileStart L (L.setOpens (.loop .whileTest :: L.opens))
  | whileBody {L : Level} {e : Held} {os : List Opening} (temps : L.temps = [e])
      (value : e.isValue) (pending : L.pending = .none) (region : L.region = .none)
      (opens : L.opens = .loop .whileTest :: os) :
      LevelMove .whileBody L { L.setTemps [] with opens := .loop .whileRun :: os }
  | whileEnd {L : Level} {os : List Opening} (calm : L.Calm) (opens : L.opens = .loop .whileRun :: os) :
      LevelMove .whileEnd L (L.setOpens os)
  | forStart {L : Level} (calm : L.Calm) :
      LevelMove .forStart L (L.setOpens (.loop .forTest :: L.opens))
  | forCondition {L : Level} {e : Held} {os : List Opening} (temps : L.temps = [e])
      (value : e.isValue) (pending : L.pending = .none) (region : L.region = .none)
      (opens : L.opens = .loop .forTest :: os) :
      LevelMove .forCondition L { L.setTemps [] with opens := .loop .forTested :: os }
  | forStep {L : Level} {phase : Phase} {os : List Opening} (calm : L.Calm)
      (opens : L.opens = .loop phase :: os) (reached : phase = .forTest ∨ phase = .forTested) :
      LevelMove .forStep L (L.setOpens (.loop .forStep :: os))
  | forStepEnd {L : Level} {e : Held} {os : List Opening} (temps : L.temps = [e])
      (value : e.isValue) (pending : L.pending = .none) (region : L.region = .none)
      (opens : L.opens = .loop .forStep :: os) :
      LevelMove .forStepEnd L { L.setTemps [] with opens := .loop .forStepped :: os }
  | forBody {L : Level} {phase : Phase} {os : List Opening} (calm : L.Calm)
      (opens : L.opens = .loop phase :: os)
      (reached : phase = .forTest ∨ phase = .forTested ∨ phase = .forStepped) :
      LevelMove .forBody L (L.setOpens (.loop .forRun :: os))
  | forEnd {L : Level} {os : List Opening} (calm : L.Calm) (opens : L.opens = .loop .forRun :: os) :
      LevelMove .forEnd L (L.setOpens os)
  | loopStart {L : Level} (calm : L.Calm) :
      LevelMove .loopStart L (L.setOpens (.loop .endless :: L.opens))
  | loopEnd {L : Level} {os : List Opening} (calm : L.Calm) (opens : L.opens = .loop .endless :: os) :
      LevelMove .loopEnd L (L.setOpens os)
  | breakLoop {L : Level} (calm : L.Calm) : LevelMove .breakLoop L L.touch
  | continueLoop {L : Level} (calm : L.Calm) : LevelMove .continueLoop L L.touch
  -- types
  | beginType {L : Level} {kind : TypeKind} {name : String} (calm : L.Calm) (declaring : L.Declaring)
      (inScope : L.inScope) :
      LevelMove (.beginType kind name) L
        { L.setOpens (.typeBody false :: L.opens) with vars := name :: L.vars }
  | beginGlobalType {L : Level} {kind : TypeKind} {name : String} (calm : L.Calm)
      (inScope : L.inScope = false) :
      LevelMove (.beginType kind name) L (L.setOpens (.typeBody false :: L.opens))
  | inheritFrom {L : Level} {parent name : String} {os : List Opening} (calm : L.Calm)
      (opens : L.opens = .typeBody false :: os) :
      LevelMove (.inheritFrom parent name) L
        { L.setOpens (.typeBody true :: os) with vars := "super" :: L.vars }
  | endType {L : Level} {e : Held} {os : List Opening} (temps : L.temps = [e]) (value : e.isValue)
      (pending : L.pending = .none) (region : L.region = .none)
      (opens : L.opens = .typeBody false :: os) :
      LevelMove .endType L { L.setTemps [] with opens := os }
  | endSubtype {L : Level} {e : Held} {os : List Opening} {hidden : String} {below : List String}
      (temps : L.temps = [e]) (value : e.isValue) (pending : L.pending = .none)
      (region : L.region = .none) (opens : L.opens = .typeBody true :: os)
      (vars : L.vars = hidden :: below) :
      LevelMove .endType L { L.setTemps [] with opens := os, vars := below }

/-- The moves of a directive. -/
inductive Move : Directive → Outline → Outline → Prop
  | here {d : Directive} {L L' : Level} {outer : List Level} {aside : List (Level × Role)} (move : LevelMove d L L') :
      Move d ⟨L, outer, aside, false⟩ ⟨L', outer, aside, false⟩
  | beginFunction {kind : FunctionKind} {name : String} {m : Modifiers} {L : Level}
      {outer : List Level} {aside : List (Level × Role)} (named : kind ≠ .script ∧ kind ≠ .initChain) :
      Move (.beginFunction kind name m) ⟨L, outer, aside, false⟩
        ⟨.ofKind kind, L.touch :: outer, aside, false⟩
  | endFunction {L E : Level} {outer : List Level} {aside : List (Level × Role)} (calm : L.Calm) (opens : L.opens = [])
      (role : L.role = .plain) (inner : L.kind ≠ .script)
      (pending : E.pending.isFunction → E.temps = [] ∧ E.region = .none ∧ E.Declaring ∧ E.inScope)
      (usual : E.Usual) :
      Move .endFunction ⟨L, E :: outer, aside, false⟩ ⟨E.receive, outer, aside, false⟩
  | beginInitChain {L : Level} {outer : List Level} {aside : List (Level × Role)} :
      Move .beginInitChain ⟨L, outer, aside, false⟩
        ⟨.ofKind .initChain, L.touch :: outer, aside, false⟩
  | endInitChain {L E : Level} {outer : List Level} {aside : List (Level × Role)} {fields : List String}
      {rest : List Held} (calm : L.Calm) (opens : L.opens = []) (role : L.role = .plain)
      (inner : L.kind ≠ .script) (fixed : L.fixed = 1) (plain : E.Plain)
      (temps : E.temps = .value :: rest) :
      Move (.endInitChain fields) ⟨L, E :: outer, aside, false⟩ ⟨E.touch, outer, aside, false⟩
  | beginTest {name : String} {L : Level} {outer : List Level} {aside : List (Level × Role)} :
      Move (.beginTest name) ⟨L, outer, aside, false⟩
        ⟨.ofKind .function .set, L.touch :: outer, aside, false⟩
  | endTest {name : String} {L E : Level} {outer : List Level} {aside : List (Level × Role)} (calm : L.Calm)
      (opens : L.opens = []) (role : L.role = .set) (inner : L.kind ≠ .script)
      (plain : E.Plain) :
      Move (.endTest name) ⟨L, E :: outer, aside, false⟩ ⟨E.touch, outer, aside, false⟩
  | caseCheck {L : Level} {outer : List Level} {aside : List (Level × Role)} :
      Move .caseCheck ⟨L, outer, aside, false⟩ ⟨L, outer, aside, true⟩
  | beginCase {name : String} {L : Level} {outer : List Level} {aside : List (Level × Role)} :
      Move (.beginCase name) ⟨L, outer, aside, true⟩
        ⟨.ofKind .function .case, L.touch :: outer, aside, false⟩
  | stepOut {L E : Level} {outer : List Level} {aside : List (Level × Role)}
      (role : L.role = .case) (fresh : L.started = false) :
      Move .stepOut ⟨L, E :: outer, aside, false⟩ ⟨E, outer, (L, E.role) :: aside, false⟩
  | stepIn {L E : Level} {outer : List Level} {aside : List (Level × Role)} :
      Move .stepIn ⟨E, outer, (L, E.role) :: aside, false⟩ ⟨L, E.touch :: outer, aside, false⟩
  | endCase {name : String} {hasRows : Bool} {L E : Level} {outer : List Level} {aside : List (Level × Role)}
      {τ ρ : List Held} (calm : L.Calm) (opens : L.opens = []) (role : L.role = .case)
      (inner : L.kind ≠ .script) (plain : E.Plain)
      (temps : E.temps = τ ++ ρ) (length : τ.length = if hasRows then 1 else 0)
      (values : ∀ e ∈ τ, e.isValue) :
      Move (.endCase name hasRows) ⟨L, E :: outer, aside, false⟩
        ⟨E.setTemps ρ, outer, aside, false⟩

section Moves
variable {d : Directive} {O : Outline}

theorem move_here {L' : Level} (move : LevelMove d O.here L') (ready : O.ready = false) : Move d O { O with here := L' } := by
  obtain ⟨L, outer, aside, r⟩ := O
  cases ready
  exact .here move

theorem move_effect {takes gives : Nat} (k : Nat) (effect : d.effect = some (takes, gives))
    (free : d.isFree) (plain : O.Plain) :
    Move d (O.pushes (takes + k)) (O.pushes (gives + k)) := by
  have split (n : Nat) : List.replicate (n + k) Held.value ++ O.here.temps =
      List.replicate n .value ++ (List.replicate k .value ++ O.here.temps) := by
    rw [← List.append_assoc, List.replicate_append_replicate]
  have move := LevelMove.simple effect (split takes) (by simp)
    (by simp +contextual [Held.isValue]) (L := (O.pushes (takes + k)).here) (plain.pushes (takes + k)).2
    (fun n h e => by subst e; cases free) (fun h e => by subst e; cases free)
    (fun e => by subst e; cases free)
  rw [← split gives] at move
  exact move_here move plain.1

/-- A directive that takes nothing. -/
theorem move_first {gives : Nat} (effect : d.effect = some (0, gives)) (free : d.isFree)
    (plain : O.Plain) :
    Move d O (O.pushes gives) :=
  move_here (.simple effect (τ := []) rfl rfl (by simp) plain.2
    (fun n h e => by subst e; cases free) (fun h e => by subst e; cases free)
    (fun e => by subst e; cases free)) plain.1

theorem move_quiet (quiet : d.isQuiet) (plain : O.Plain) :
    Move d O (O.pushes 0) :=
  move_here (.quiet quiet plain.2.1) plain.1

end Moves

/-- The moves of a list of directives. -/
def Moves : List Directive → Outline → Outline → Prop
  | [], O, O' => O' = O
  | d :: ds, O, O' => ∃ M, Move d O M ∧ Moves ds M O'

theorem Moves.snoc {ds : List Directive} {d : Directive} {O M O' : Outline}
    (h : Moves ds O M) (k : Move d M O') : Moves (ds ++ [d]) O O' := by
  induction ds generalizing O with
  | nil =>
    cases h
    exact ⟨O', k, rfl⟩
  | cons e ds ih =>
    obtain ⟨N, hN, h⟩ := h
    exact ⟨N, hN, ih h⟩

/-- The outline of a script that has just begun. -/
def initial : Outline := { here := .ofKind .script }

/-- The outline of a script that may end. -/
def Complete (O : Outline) : Prop :=
  O.here.kind = .script ∧ O.here.Calm ∧ O.here.opens = [] ∧ O.here.vars = [""] ∧
    O.outer = [] ∧ O.aside = [] ∧ O.ready = false

end Outline

end ScriptEngine
