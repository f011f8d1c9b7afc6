import ScriptEngine.Machine.Error
import ScriptEngine.TestRecord

/-!
# The state of a machine

A machine runs scripts on one stack of values. A frame is a call in progress:
the closure, the next instruction and the slot where its values begin. A
variable that a closure has captured stays a slot of the stack as long as the
slot lives; `openCells` lists the cells of such variables.

What execution holds can be set aside as a `Suspension` and taken up again later.
Globals, registered values, libraries, test records and queued scripts belong to
the machine and outlast a run. Heap and natives are shared by all machines that
exchange values, so they stand beside the machine in a `World`.
-/
namespace ScriptEngine

structure Frame where
  closure : Nat
  ip : Nat := 0
  /-- The slot of the callee or receiver. -/
  base : Nat
  /-- The caller gets no results; so run init chains. -/
  discards : Bool := false
  deriving DecidableEq, Repr, Inhabited

structure Suspension where
  stack : Array Value
  frames : Array Frame
  openCells : List Nat
  marks : List Nat
  deriving DecidableEq, Repr, Inhabited

/-- Where the innermost frame is: at the instruction that it read last. -/
def Heap.location? (h : Heap) (frames : Array Frame) : Option Location :=
  match frames.back? with
  | some f =>
    let c := h.code f.closure
    some ⟨c.chain, c.lineAt (f.ip - 1)⟩
  | none => none

structure Settings where
  /-- Calls nested deeper than this fail. -/
  maxFrames : Nat := 512
  /-- Whether test blocks run. -/
  testsEnabled : Bool := false
  deriving DecidableEq, Repr, Inhabited

structure Machine where
  settings : Settings := {}
  stack : Array Value := #[]
  frames : Array Frame := #[]
  /-- Cells of captured variables that still live on the stack. -/
  openCells : List Nat := []
  /-- Stack heights at which regions for several results begin, the innermost first. -/
  marks : List Nat := []
  globals : Table String Value := ∅
  registry : Table String Value := ∅
  libraries : Table String (List (String × Value)) := ∅
  tests : TestRecord := {}
  currentSet : Option String := none
  /-- Scripts that wait for the current run to complete. -/
  queue : List Script := []
  /-- How many host calls are in progress; none of them may yield. -/
  hostCalls : Nat := 0
  output : String := ""
  deriving Inhabited

namespace Machine

/-- No script is running or suspended in the middle of a call. -/
def isIdle (m : Machine) : Bool := m.frames.isEmpty && m.stack.isEmpty

/-- Drops all that execution holds. -/
def reset (m : Machine) : Machine :=
  { m with
    stack := #[], frames := #[], openCells := [], marks := [], hostCalls := 0
    currentSet := none }

def suspension (m : Machine) : Suspension := ⟨m.stack, m.frames, m.openCells, m.marks⟩

/-- Takes up what was set aside. -/
def restore (m : Machine) (s : Suspension) : Machine :=
  { m with stack := s.stack, frames := s.frames, openCells := s.openCells, marks := s.marks }

def addGlobals (m : Machine) (bindings : List (String × Value)) : Machine :=
  { m with globals := m.globals.insertAll bindings }

end Machine

/-! ## Natives -/

/-- The functions that every machine with the core library has. -/
inductive CoreFunction where
  | print
  | str
  | list
  | map
  deriving DecidableEq, Repr, Inhabited

/-- How a native finished: with the results it pushed, or with nothing to hand over. -/
inductive NativeResult where
  | expression
  | success
  deriving DecidableEq, Repr

/-- A function of the host, as the requests it makes of the machine one after the other. -/
inductive NativeProgram where
  | finish (result : NativeResult)
  | raise (failure : Failure)
  | count (next : Nat → NativeProgram)
  /-- An argument, the callee or receiver being argument zero. -/
  | argument (index : Nat) (next : Value → NativeProgram)
  | read (next : Heap → NativeProgram)
  | allocate (make : Heap → Value × Heap) (next : Value → NativeProgram)
  | push (value : Value) (next : NativeProgram)
  | call (callee : Value) (args : List Value) (next : Except Failure (List Value) → NativeProgram)
  | interpret (script : Script) (next : NativeProgram)

inductive NativeBody where
  | core (function : CoreFunction)
  | program (steps : NativeProgram)

instance : Inhabited NativeBody := ⟨.core .print⟩

structure World where
  heap : Heap := {}
  natives : Array NativeBody := #[]
  machine : Machine := {}
  deriving Inhabited

namespace World

/-- A new native function; two of them differ even if they do the same. -/
def addNative (w : World) (name : String) (body : NativeBody) : Value × World :=
  (.native w.natives.size name, { w with natives := w.natives.push body })

def native (w : World) (ref : Nat) : NativeBody := (w.natives[ref]?).getD default

end World

end ScriptEngine
