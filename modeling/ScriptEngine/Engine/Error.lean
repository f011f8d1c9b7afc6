import ScriptEngine.Compile.Error
import ScriptEngine.Machine.Error
import ScriptEngine.Stored.Fault

/-!
# Errors of an engine

What a host is told when something goes wrong. Inside a running script the same
error is a runtime error, or a string that is thrown.
-/
namespace ScriptEngine

inductive EngineError where
  | compile (error : CompileError)
  | runtime (failure : Failure)
  | stored (fault : Stored.Fault)
  | unreadable (operation path reason : String)
  | type (expected got : String)
  | undefinedGlobal (name : String)
  | suspended
  | notSuspended
  | outOfFuel

namespace EngineError

def message (h : Heap) : EngineError → String
  | compile e => "Compile error: " ++ e.message
  | runtime f => "Runtime error: " ++ f.message h
  | stored f => "Invalid compiled script: " ++ f.message
  | unreadable operation path reason => s!"{operation}: cannot read '{path}': {reason}"
  | type expected got => s!"Type error: expected {expected}, got {got}"
  | undefinedGlobal name => s!"Undefined global '{name}'"
  | suspended => "A script is suspended; resume it before running another"
  | notSuspended => "No suspended script to resume"
  | outOfFuel => "The run did not end within the steps it was given"

/-- The error as a running script meets it. -/
def toFailure (h : Heap) : EngineError → Failure
  | runtime f => f
  | e => { error := .thrown (.string (e.message h)) }

end EngineError

end ScriptEngine
