import ScriptEngine.Machine.Execute

/-!
# Machines under watch

A watch says what is done around every instruction and around every host call of
a machine, at whatever depth they are carried out. Where nothing is done around
them it is the machine itself, so what holds of a machine under every watch of
some kind holds wherever execution comes.
-/
namespace ScriptEngine

open Run

/-- What is done around an instruction, given the depth at which its loop stops, and around a
host call. -/
structure Watch where
  instruction : Nat → Run Control → Run Control := fun _ x => x
  hostCall : Value → List Value → Run (List Value) → Run (List Value) := fun _ _ x => x

namespace Watch

section

variable (watch : Watch)

mutual

def execute : Nat → Nat → Run Exit
  | 0, _ => throw .outOfFuel
  | fuel + 1, stop => do
    match ← watch.instruction stop (cycle ⟨call fuel, fun s => discard (interpret fuel s)⟩ stop) with
    | .next => execute fuel stop
    | .exit how => return how

def call : Nat → Value → List Value → Run (List Value)
  | 0, _, _ => throw .outOfFuel
  | fuel + 1, callee, args => watch.hostCall callee args <| Run.hostCall callee args fun depth => do
    callTop ⟨call fuel, fun s => discard (interpret fuel s)⟩ args.length
    untilReturned (execute fuel depth) depth

def interpret : Nat → Script → Run Outcome
  | 0, _ => throw .outOfFuel
  | fuel + 1, s => do
    enter s
    continueTop fuel

def continueTop : Nat → Run Outcome
  | 0 => throw .outOfFuel
  | fuel + 1 => do
    match ← attempt (execute fuel 0) with
    | .ok .returned => do
      let v ← finished
      match ← runQueue fuel with
      | some suspension => return .yielded suspension
      | none => return .completed v
    | .ok .yielded => return .yielded (← suspend)
    | .error f => do
      modifyMachine Machine.reset
      raise f

def runQueue : Nat → Run (Option Suspension)
  | 0 => throw .outOfFuel
  | fuel + 1 => do
    match ← nextQueued with
    | none => return none
    | some s =>
      match ← interpret fuel s with
      | .yielded suspension => return some suspension
      | .completed _ => runQueue fuel

end

def resume (fuel : Nat) (s : Suspension) : Run Outcome := do
  checkStopped
  modifyMachine (·.restore s)
  continueTop watch fuel

/-- The ways back into the machine that its instructions are given. -/
def again (fuel : Nat) : Reentry :=
  ⟨call watch fuel, fun s => discard (interpret watch fuel s)⟩

end

/-- Nothing is done around instructions and calls. -/
def none : Watch := {}

@[simp] theorem none_instruction (stop : Nat) (x : Run Control) : none.instruction stop x = x := rfl

@[simp] theorem none_hostCall (callee : Value) (args : List Value) (x : Run (List Value)) :
    none.hostCall callee args x = x := rfl

theorem machine_unwatched (fuel : Nat) :
    (∀ stop, execute none fuel stop = Run.execute fuel stop) ∧
    (∀ callee args, call none fuel callee args = Run.call fuel callee args) ∧
    (∀ s, interpret none fuel s = Run.interpret fuel s) ∧
    continueTop none fuel = Run.continueTop fuel ∧ runQueue none fuel = Run.runQueue fuel := by
  induction fuel with
  | zero => exact ⟨fun _ => rfl, fun _ _ => rfl, fun _ => rfl, rfl, rfl⟩
  | succ fuel ih =>
    obtain ⟨execute_eq, call_eq, interpret_eq, continueTop_eq, runQueue_eq⟩ := ih
    have call_eq : call none fuel = Run.call fuel := by
      funext callee args
      exact call_eq callee args
    refine ⟨fun stop => ?_, fun callee args => ?_, fun s => ?_, ?_, ?_⟩
    · simp only [execute, Run.execute, none_instruction, call_eq, interpret_eq, execute_eq] <;> rfl
    · simp only [call, Run.call, none_hostCall, call_eq, interpret_eq, execute_eq]
    · simp only [interpret, Run.interpret, continueTop_eq]
    · simp only [continueTop, Run.continueTop, execute_eq, runQueue_eq] <;> rfl
    · simp only [runQueue, Run.runQueue, interpret_eq, runQueue_eq] <;> rfl

end Watch
end ScriptEngine
