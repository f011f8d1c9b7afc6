import ScriptEngine.Engine.Convert
import ScriptEngine.Machine.Execute
import ScriptEngine.Stored.Read
import ScriptEngine.Stored.Write

/-!
# The engine

An engine is a machine together with the script that it has suspended, if any.
It compiles and runs scripts, evaluates expressions, reads and writes globals and
offers functions of the host to scripts. A sandbox is a second engine that starts
with the globals of the first; the two share the heap, so whoever keeps several
engines hands the heap on with `Engine.joining`.

Everything that executes is given a number of steps.
-/
namespace ScriptEngine

structure Engine where
  world : World := {}
  suspended : Option Suspension := none
  deriving Inhabited

abbrev Hosted := EStateM EngineError Engine

inductive Status where
  | completed
  | suspended
  deriving DecidableEq, Repr

/-! ## Natives and libraries -/

structure Library where
  name : String
  bindings : List (String × Value)

namespace World

def mapMachine (w : World) (f : Machine → Machine) : World := { w with machine := f w.machine }

/-- New natives of the core library. -/
def core (w : World) : Library × World :=
  let (print, w) := w.addNative "print" (.core .print)
  let (str, w) := w.addNative "str" (.core .str)
  let (list, w) := w.addNative "List" (.core .list)
  let (map, w) := w.addNative "Map" (.core .map)
  (⟨"core", [("print", print), ("str", str), ("List", list), ("Map", map)]⟩, w)

def declare (w : World) (l : Library) : World :=
  w.mapMachine fun m => { m with libraries := m.libraries.insert l.name l.bindings }

end World

/-- A function of the host on the arguments of a call. -/
abbrev HostFunction := Heap → List Value → Except EngineError Value

namespace NativeProgram

/-- Asks for so many arguments, the first one at `index`. -/
def arguments (index : Nat) : Nat → (List Value → NativeProgram) → NativeProgram
  | 0, next => next []
  | n + 1, next => .argument index fun v => arguments (index + 1) n fun vs => next (v :: vs)

def ofHost (f : HostFunction) : NativeProgram :=
  .count fun n => arguments 1 n fun args => .read fun h =>
    match f h args with
    | .ok v => .push v (.finish .expression)
    | .error e => .raise (e.toFailure h)

end NativeProgram

namespace Engine

/-! ## Making engines -/

/-- An engine without any library. -/
def bare (settings : Settings) (w : World := {}) : Engine :=
  ⟨{ w with machine := { settings } }, none⟩

/-- An engine with the core library. -/
def new (settings : Settings) (w : World := {}) : Engine :=
  let (library, w) := (bare settings w).world.core
  let w := w.declare library
  ⟨w.mapMachine (·.addGlobals library.bindings), none⟩

/-- A new engine that starts with the globals of this one. -/
def sandbox (e : Engine) : Engine :=
  let m := e.world.machine
  let child := new m.settings e.world
  { child with world := child.world.mapMachine fun c => { c with globals := m.globals } }

/-- The engine with the heap and the natives of another one that ran after it. -/
def joining (e other : Engine) : Engine :=
  { e with world := { other.world with machine := e.world.machine } }

/-- Copies every global of a sandbox. -/
def merge (e child : Engine) : Engine :=
  { e with world := e.world.mapMachine (·.addGlobals child.world.machine.globals.toList) }

/-! ## Globals and services -/

def mapMachine (e : Engine) (f : Machine → Machine) : Engine :=
  { e with world := e.world.mapMachine f }

def get? (e : Engine) (name : String) : Option Value := e.world.machine.globals.get? name

def setGlobal (e : Engine) (name : String) (v : Value) : Engine :=
  e.mapMachine (·.addGlobals [(name, v)])

def removeGlobal (e : Engine) (name : String) : Engine :=
  e.mapMachine fun m => { m with globals := m.globals.erase name }

/-- Makes a value of the engine's heap from something of the host. -/
def make {α : Type} [ToValue α] (e : Engine) (a : α) : Value × Engine :=
  let (v, h) := toValue a e.world.heap
  (v, { e with world := { e.world with heap := h } })

def set {α : Type} [ToValue α] (e : Engine) (name : String) (a : α) : Engine :=
  let (v, e) := e.make a
  e.setGlobal name v

/-- A global as something of the host, none if there is no such global. -/
def getAs? (α : Type) [OfValue α] (e : Engine) (name : String) : Except EngineError (Option α) :=
  match e.get? name with
  | some v => some <$> ofValue e.world.heap v
  | none => .ok none

def provide {α : Type} [ToValue α] (e : Engine) (name : String) (a : α) : Engine :=
  let (v, e) := e.make a
  e.mapMachine fun m => { m with registry := m.registry.insert name v }

def resolve (e : Engine) (name : String) : Option Value := e.world.machine.registry.get? name

def enableTests (e : Engine) (enabled : Bool) : Engine :=
  e.mapMachine fun m => { m with settings := { m.settings with testsEnabled := enabled } }

/-- Defines a global function of the host. -/
def registerNative (e : Engine) (name : String) (f : HostFunction) : Engine :=
  let (v, w) := e.world.addNative name (.program (.ofHost f))
  { e with world := w }.setGlobal name v

def declareLibrary (e : Engine) (l : Library) : Engine := { e with world := e.world.declare l }

/-- Declares a library and binds its names at once. -/
def registerLibrary (e : Engine) (l : Library) : Engine :=
  (e.mapMachine (·.addGlobals l.bindings)).declareLibrary l

def bindLibrary (name : String) : Hosted Unit := do
  let e ← get
  match e.world.machine.libraries.get? name with
  | some bindings => EStateM.set (e.mapMachine (·.addGlobals bindings))
  | none => throw (.runtime { error := .unknownLibrary name })

/-! ## Running -/

/-- Runs the machine of the engine. -/
def running {α : Type} (x : Run α) : Hosted α := fun e =>
  match x e.world with
  | .ok a w => .ok a { e with world := w }
  | .error (.failed f) w => .error (.runtime f) { e with world := w }
  | .error .outOfFuel w => .error .outOfFuel { e with world := w }

def compile (source name : String) : Except EngineError Script :=
  (Script.ofSource source name).mapError .compile

def compileToBytes (source name : String) : Except EngineError Stored.Bytes := do
  (← compile source name).toBytes.mapError .stored

/-- Keeps the suspension that a run ended with. -/
def settle : Outcome → Hosted Status
  | .completed _ => return .completed
  | .yielded s => do
    modify fun e => { e with suspended := some s }
    return .suspended

def runScript (fuel : Nat) (s : Script) : Hosted Status := do
  if (← get).suspended.isSome then throw .suspended
  settle (← running (Run.interpret fuel s))

def run (fuel : Nat) (source name : String) : Hosted Status := do
  runScript fuel (← MonadExcept.ofExcept (compile source name))

def load (bytes : Stored.Bytes) : Except EngineError Script :=
  (Script.ofBytes bytes).mapError .stored

def runBytes (fuel : Nat) (bytes : Stored.Bytes) : Hosted Status := do
  runScript fuel (← MonadExcept.ofExcept (load bytes))

def resume (fuel : Nat) : Hosted Status := do
  match (← get).suspended with
  | some s =>
    modify fun e => { e with suspended := none }
    settle (← running (Run.resume fuel s))
  | none => throw .notSuspended

/-- The global that holds an expression while it is evaluated. -/
def evalName : String := "__lumo_eval"

def evalSource (expression : String) : String :=
  "fun " ++ evalName ++ "() \x7b return " ++ expression ++ "; \x7d"

/-- The value of an expression. -/
def eval (fuel : Nat) (expression : String) : Hosted Value := do
  let _ ← run fuel (evalSource expression) "eval"
  match (← get).get? evalName with
  | some f =>
    modify (·.removeGlobal evalName)
    return Native.first (← running (Run.call fuel f []))
  | none => throw (.runtime { error := .internal .noEvalFunction })

/-- Calls a global; the answer holds everything that it produced. -/
def callMulti (fuel : Nat) (name : String) (args : List Value) : Hosted (List Value) := do
  match (← get).get? name with
  | some f => running (Run.call fuel f args)
  | none => throw (.undefinedGlobal name)

def call (fuel : Nat) (name : String) (args : List Value) : Hosted Value := do
  return Native.first (← callMulti fuel name args)

end Engine

end ScriptEngine
