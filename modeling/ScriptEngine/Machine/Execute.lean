import ScriptEngine.Machine.Step

/-!
# Running scripts

Execution goes instruction by instruction until the frame at some depth returns
or the script yields. It is given a number of steps, so that every definition
here ends; a run that uses them up stops with `Halt.outOfFuel`, and a larger
number changes no other answer.

A script that completes is followed by the scripts that it queued. A run that
fails drops all that execution holds. A host call is undone on failure: frames,
stack and marks are as before, and captured variables above it are closed.
-/
namespace ScriptEngine

inductive Outcome where
  | completed (value : Value)
  | yielded (suspension : Suspension)
  deriving DecidableEq, Repr

namespace Run

/-- Refuses to start while frames are in use. -/
def checkStopped : Run Unit := do
  if !(← machine).frames.isEmpty then failInternal .running

/-- Puts a closure over the top chunk of a script on the stack, with a frame to run it. -/
def enter (s : Script) : Run Unit := do
  checkStopped
  let id ← allocate (·.load s)
  let base ← stackSize
  let v ← allocate (·.addClosure ⟨id, #[]⟩)
  push v
  match v with
  | .closure ref => pushFrame { closure := ref, base }
  | _ => return

def suspend : Run Suspension := do
  let s := (← machine).suspension
  modifyMachine fun m => m.restore ⟨#[], #[], [], []⟩
  return s

/-- The next script that waits to be run. -/
def nextQueued : Run (Option Script) := do
  match (← machine).queue with
  | s :: rest =>
    modifyMachine fun m => { m with queue := rest }
    return some s
  | [] => return none

/-- The value that a completed script leaves. -/
def finished : Run Value := do
  let v := (← machine).stack.back?.getD .null
  modifyMachine Machine.reset
  return v

/-- Goes on with a call until its frames have returned. -/
def untilReturned (run : Run Exit) (depth : Nat) : Run Unit := do
  if depth < (← Run.depth) then
    match ← run with
    | .returned => return
    | .yielded => fail .yieldInHostCall

def markCount : Run Nat := fun w => .ok w.machine.marks.length w

def beginCall (callee : Value) (args : List Value) : Run Unit := do
  let base ← stackSize
  push callee
  pushAll args
  modifyMachine fun m => { m with marks := base :: m.marks, hostCalls := m.hostCalls + 1 }

/-- Carries out a host call around `body` and leaves the machine as it was. -/
def hostCall (callee : Value) (args : List Value) (body : Nat → Run Unit) : Run (List Value) := do
  let base ← stackSize
  let depth ← depth
  let marks ← markCount
  beginCall callee args
  let outcome ← attempt (body depth)
  modifyMachine fun m =>
    { m with hostCalls := m.hostCalls - 1, marks := m.marks.drop (m.marks.length - marks) }
  match outcome with
  | .ok () => takeFrom base
  | .error f =>
    closeFrom base
    modifyMachine fun m => { m with frames := m.frames.shrink depth }
    truncate base
    raise f

mutual

/-- Executes until the number of frames has dropped to `stop`. -/
def execute : Nat → Nat → Run Exit
  | 0, _ => throw .outOfFuel
  | fuel + 1, stop => do
    match ← cycle ⟨call fuel, fun s => discard (interpret fuel s)⟩ stop with
    | .next => execute fuel stop
    | .exit how => return how

/-- Calls a value and answers with everything it produced. -/
def call : Nat → Value → List Value → Run (List Value)
  | 0, _, _ => throw .outOfFuel
  | fuel + 1, callee, args => hostCall callee args fun depth => do
    callTop ⟨call fuel, fun s => discard (interpret fuel s)⟩ args.length
    untilReturned (execute fuel depth) depth

/-- Runs a script from its first instruction. -/
def interpret : Nat → Script → Run Outcome
  | 0, _ => throw .outOfFuel
  | fuel + 1, s => do
    enter s
    continueTop fuel

/-- Goes on with the script on the stack, then with the scripts that are queued. -/
def continueTop : Nat → Run Outcome
  | 0 => throw .outOfFuel
  | fuel + 1 => do
    match ← attempt (execute fuel 0) with
    | .ok .returned => do
      let v ← finished
      match ← runQueue fuel with
      | some suspension => return .yielded suspension
      | none => return .completed v
    | .ok .yielded => return .yielded (← suspend)
    | .error f => do
      modifyMachine Machine.reset
      raise f

/-- Runs the queued scripts, until one of them yields. -/
def runQueue : Nat → Run (Option Suspension)
  | 0 => throw .outOfFuel
  | fuel + 1 => do
    match ← nextQueued with
    | none => return none
    | some s =>
      match ← interpret fuel s with
      | .yielded suspension => return some suspension
      | .completed _ => runQueue fuel

end

/-- Takes up a suspended script. -/
def resume (fuel : Nat) (s : Suspension) : Run Outcome := do
  checkStopped
  modifyMachine (·.restore s)
  continueTop fuel

end Run

end ScriptEngine
