import ScriptEngine.Machine.State

/-!
# Steps on a world

`Run` is a computation that changes the world and may stop early. What was
changed before it stopped stays changed. This module has the moves on the stack
and on the frames that the instructions are made of.
-/
namespace ScriptEngine

abbrev Run := EStateM Halt World

namespace Run

def fail {α : Type} (e : RuntimeError) : Run α := throw (.failed { error := e })

def failInternal {α : Type} (f : InternalFault) : Run α := fail (.internal f)

/-- Turns a failure into an answer. Running out of steps is none. -/
def attempt {α : Type} (x : Run α) : Run (Except Failure α) := fun w =>
  match x w with
  | .ok a w => .ok (.ok a) w
  | .error (.failed f) w => .ok (.error f) w
  | .error .outOfFuel w => .error .outOfFuel w

def raise {α : Type} (f : Failure) : Run α := throw (.failed f)

def machine : Run Machine := fun w => .ok w.machine w

def heap : Run Heap := fun w => .ok w.heap w

def modifyMachine (f : Machine → Machine) : Run Unit := fun w =>
  .ok () { w with machine := f w.machine }

def modifyHeap (f : Heap → Heap) : Run Unit := fun w => .ok () { w with heap := f w.heap }

/-- Puts something on the heap. -/
def allocate {α : Type} (make : Heap → α × Heap) : Run α := fun w =>
  let (a, h) := make w.heap
  .ok a { w with heap := h }

/-! ## The stack -/

def modifyStack (f : Array Value → Array Value) : Run Unit :=
  modifyMachine fun m => { m with stack := f m.stack }

def stackSize : Run Nat := fun w => .ok w.machine.stack.size w

def push (v : Value) : Run Unit := modifyStack (·.push v)

def pushAll (vs : List Value) : Run Unit := modifyStack (· ++ vs)

def slot (i : Nat) : Run Value := fun w =>
  match w.machine.stack[i]? with
  | some v => .ok v w
  | none => .error (.failed { error := .stackUnderflow }) w

def pop : Run Value := fun w =>
  match w.machine.stack.back? with
  | some v => .ok v { w with machine.stack := w.machine.stack.pop }
  | none => .error (.failed { error := .stackUnderflow }) w

/-- The value so far below the top. -/
def peek (distance : Nat) : Run Value := do
  let size ← stackSize
  if distance < size then slot (size - 1 - distance) else fail .stackUnderflow

def setSlot (i : Nat) (v : Value) : Run Unit := do
  if i < (← stackSize) then modifyStack (·.setIfInBounds i v) else fail .stackUnderflow

def truncate (size : Nat) : Run Unit := modifyStack (·.shrink size)

/-- Takes everything from a slot upwards, in the order in which it was pushed. -/
def takeFrom (start : Nat) : Run (List Value) := fun w =>
  .ok (w.machine.stack.extract start).toList
    { w with machine.stack := w.machine.stack.shrink start }

def popMany (n : Nat) : Run (List Value) := do
  let size ← stackSize
  if n ≤ size then takeFrom (size - n) else fail .stackUnderflow

/-! ## Frames -/

def depth : Run Nat := fun w => .ok w.machine.frames.size w

def frame : Run Frame := do
  match (← machine).frames.back? with
  | some f => return f
  | none => failInternal .noFrame

def pushFrame (f : Frame) : Run Unit := do
  let m ← machine
  if m.frames.size < m.settings.maxFrames then
    modifyMachine fun m => { m with frames := m.frames.push f }
  else fail (.stackOverflow m.settings.maxFrames)

/-- The frames with the innermost one at another instruction. -/
def jump (ip : Nat) (frames : Array Frame) : Array Frame :=
  frames.modify (frames.size - 1) fun f => { f with ip }

def setIp (ip : Nat) : Run Unit :=
  modifyMachine fun m => { m with frames := jump ip m.frames }

/-- The chunk of the innermost frame. -/
def chunk : Run Chunk := do
  let f ← frame
  return (← heap).code f.closure

/-- Reads the next instruction of the innermost frame and steps over it. -/
def fetch : Run Instruction := do
  let f ← frame
  let c := (← heap).code f.closure
  match c.code[f.ip]? with
  | some i =>
    setIp (f.ip + 1)
    return i
  | none => failInternal (.pastEnd f.ip c.chain)

def constant (index : UInt16) : Run Value := do
  let f ← frame
  let h ← heap
  let id := (h.closure f.closure).chunk
  match (h.chunk id).constants[index.toNat]? with
  | some c => return Heap.constant id.script c
  | none => failInternal (.noConstant index)

/-- A constant that must be a name. -/
def name (index : UInt16) : Run String := do
  match (← chunk).name? index with
  | some s => return s
  | none => failInternal (.notAName index)

def goto (label : UInt16) : Run Unit := do
  let c ← chunk
  match c.labelOffset? label with
  | some offset => setIp offset
  | none => failInternal (.labelNotPlaced label c.chain)

/-- A failure gets the place where the innermost frame is when it arises. -/
def located {α : Type} (x : Run α) : Run α := fun w =>
  match x w with
  | .error (.failed f) w => .error (.failed (f.locate (w.heap.location? w.machine.frames))) w
  | r => r

end Run

end ScriptEngine
