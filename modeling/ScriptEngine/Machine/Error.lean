import ScriptEngine.Value.Contract
import ScriptEngine.Value.Text

/-!
# Runtime errors

`RuntimeError` lists what can go wrong while instructions run. A failure is an
error together with the place where it arose, which is noted at most once. Only
a thrown value needs the heap for its text.
-/
namespace ScriptEngine

/-- Faults that no compiled code causes; the state cannot be trusted after one. -/
inductive InternalFault where
  | running
  | noFrame
  | returnWithoutFrame
  | pastEnd (ip : Nat) (chain : String)
  | noConstant (index : UInt16)
  | notAName (index : UInt16)
  | notAChunk (index : UInt16)
  | labelNotPlaced (label : UInt16) (chain : String)
  | noUpvalue (index : UInt8)
  | strayCapture
  | noCapture (chain : String) (found : Instruction)
  | notAnInitChain (type : String)
  | noMultiVar
  | notACount (text : String)
  | caseOutsideSet (name : String)
  | noArgument (index count : Nat)
  | noEvalFunction
  | host (text : String)
  deriving DecidableEq, Repr

namespace InternalFault

def message : InternalFault → String
  | running => "VM is already running a script"
  | noFrame => "No active frame"
  | returnWithoutFrame => "Return with no active frame"
  | pastEnd ip chain => s!"Instruction pointer {ip} past the end of '{chain}'"
  | noConstant index => s!"Constant {index} out of bounds"
  | notAName index => s!"Constant {index} is not a name"
  | notAChunk index => s!"Constant {index} is not a chunk"
  | labelNotPlaced label chain => s!"Label {label} is not placed in '{chain}'"
  | noUpvalue index => s!"Upvalue {index} out of bounds"
  | strayCapture => "Capture executed outside of closure creation"
  | noCapture chain found =>
    s!"Expected Capture after Closure in '{chain}', found {found.describe}"
  | notAnInitChain type => s!"Init chain of '{type}' is not a closure"
  | noMultiVar => "MultiVarEnd without MultiVarStart"
  | notACount text => s!"Expected a value count, found {text}"
  | caseOutsideSet name => s!"Test case '{name}' ran outside a test set"
  | noArgument index count => s!"Native argument {index} requested but only {count} supplied"
  | noEvalFunction => "eval function was not defined"
  | host text => text

end InternalFault

inductive RuntimeError where
  | stackUnderflow
  | stackOverflow (limit : Nat)
  | invalidOperands (op left right : String)
  | invalidOperand (op got : String)
  | undefinedGlobal (name : String)
  | undefinedProperty (name target : String)
  | undefinedMethod (name target : String)
  | notCallable (kind : String)
  | arity (name : String) (expected got : Nat)
  | frozenWrite (field target : String)
  | readOnlyWrite (field target : String)
  | multiReturnMismatch (expected got : Nat)
  | contractViolation (type contract method : String) (cause : Unmet)
  | invalidTarget (op expected got : String)
  | indexOutOfRange (index : String) (length : Nat)
  | unhashableKey (kind : String)
  | yieldInHostCall
  | unregistered (name : String)
  | unknownLibrary (name : String)
  | build (message : String)
  | thrown (value : Value)
  | internal (fault : InternalFault)
  deriving DecidableEq, Repr

namespace RuntimeError

def isFatal : RuntimeError → Bool
  | internal _ => true
  | _ => false

def message (h : Heap) : RuntimeError → String
  | stackUnderflow => "Stack underflow"
  | stackOverflow limit => s!"Stack overflow: exceeded {limit} call frames"
  | invalidOperands op left right => s!"Cannot apply '{op}' to {left} and {right}"
  | invalidOperand op got => s!"Cannot apply '{op}' to {got}"
  | undefinedGlobal name => s!"Undefined variable '{name}'"
  | undefinedProperty name target => s!"Undefined property '{name}' on {target}"
  | undefinedMethod name target => s!"Undefined method '{name}' on {target}"
  | notCallable kind => s!"Value is not callable: {kind}"
  | arity name expected got => s!"'{name}' expected {expected} arguments but got {got}"
  | frozenWrite field target =>
    s!"Attempted to create new field '{field}' on frozen object '{target}'"
  | readOnlyWrite field target =>
    s!"Attempted to set field '{field}' on read-only object '{target}'"
  | multiReturnMismatch expected got =>
    s!"Multi-return mismatch: expected {expected} values but got {got}"
  | contractViolation type contract method cause =>
    s!"Type '{type}' does not meet contract '{contract}': {cause.message method}"
  | invalidTarget op expected got => s!"'{op}' requires {expected}, got {got}"
  | indexOutOfRange index length => s!"Index {index} out of range for length {length}"
  | unhashableKey kind => s!"Cannot use {kind} as a map key"
  | yieldInHostCall => "Cannot yield from inside a host call"
  | unregistered name => s!"Nothing registered under '{name}'"
  | unknownLibrary name => s!"No library named '{name}' has been declared"
  | build message => s!"Build failed: {message}"
  | thrown value => h.text value
  | internal fault => s!"Internal error: {fault.message}"

end RuntimeError

/-- The innermost chunk and the line of the instruction that failed. -/
structure Location where
  chain : String
  line : UInt32
  deriving DecidableEq, Repr, Inhabited

structure Failure where
  error : RuntimeError
  location : Option Location := none
  deriving DecidableEq, Repr

namespace Failure

def isFatal (f : Failure) : Bool := f.error.isFatal

def message (h : Heap) (f : Failure) : String :=
  match f.location with
  | some place => s!"{f.error.message h} (in '{place.chain}' at line {place.line})"
  | none => f.error.message h

/-- Notes the place, unless one is noted already. -/
def locate (f : Failure) (place : Option Location) : Failure :=
  { f with location := f.location <|> place }

end Failure

/-- How a run stops without an answer: it fails, or it uses up the steps it was given. -/
inductive Halt where
  | failed (failure : Failure)
  | outOfFuel
  deriving DecidableEq, Repr

end ScriptEngine
