import ScriptEngine.Code.Chunk
import ScriptEngine.Compile.Error

/-!
# Directives

The grammar turns tokens into a list of directives and knows nothing of slots,
tables and labels; the assembler carries the directives out one by one. A
directive names variables, members and types by their names. Each one comes with
the mark of the token read last, which gives its line and the place of its
errors.

Control structures come as directives that open, divide and close them, so that
labels are the assembler's own affair.
-/
namespace ScriptEngine

/-- Instructions that refer to no slot, no table and no label, and store nothing. -/
def Instruction.isPlain : Instruction → Bool
  | .pushByte _ | .pushBool _ | .null | .pop | .duplicate | .duplicatePair
  | .add | .subtract | .multiply | .divide | .modulus | .negate | .not
  | .equal | .less | .greater | .meets
  | .call _ | .ret _ | .yield | .throw
  | .mixin | .signs | .freeze | .readOnly
  | .getIndex | .buildList _ | .buildMap _ | .newDynamic
  | .multiVarStart | .multiVarEnd | .validate _ | .build => true
  | _ => false

inductive Directive where
  | plain (i : Instruction) (h : i.isPlain = true := by exact (rfl : true = true))
  -- constants
  | number (value : Number)
  | string (value : String)
  /-- Enters a name among the constants ahead of its use. -/
  | reserve (name : String)
  -- variables
  /-- Looks a variable up, captures included, ahead of a store. -/
  | resolve (name : String)
  | checkStore (name : String)
  | load (name : String)
  | store (name : String)
  | receiver
  | this
  -- members and elements
  | checkSuper
  | getSuper (name : String)
  | superInvoke (name : String) (argc : UInt8)
  | getProperty (name : String)
  | invoke (name : String) (argc : UInt8)
  /-- Refuses a store to something in a pure function. -/
  | checkImpure (target : String)
  | setProperty (name : String)
  | setIndex
  /-- Stores a field of an object under construction and drops the value. -/
  | storeField (name : String)
  | inject (name : String)
  | register (name : String)
  -- scopes and declarations
  | beginScope
  | endScope
  | declare (name : String)
  | define (name : String)
  | defineMany (names : List String)
  -- functions
  | declareFunction (name : String)
  | beginFunction (kind : FunctionKind) (name : String) (modifiers : Modifiers)
  | parameter (name : String)
  | resultName (name : String)
  /-- Stores the parameters that are named like fields. -/
  | storeMatching (fields : List String)
  | endFunction
  | returnCheck
  | returnValueCheck
  | implicitReturn
  | leaveLoops
  -- control
  | andThen
  | orElse
  | shortEnd
  | branch
  | branchElse
  | branchEnd
  | whileStart
  | whileBody
  | whileEnd
  | forStart
  | forCondition
  | forStep
  | forStepEnd
  | forBody
  | forEnd
  | loopStart
  | loopEnd
  | loopCheck (keyword : String)
  | breakLoop
  | continueLoop
  -- types
  | beginType (kind : TypeKind) (name : String)
  | inheritFrom (parent name : String)
  | beginInitChain
  | endInitChain (fields : List String)
  | staticMember (name : String)
  | method (name : String)
  | enumValue (name : String)
  | endType
  -- tests
  | beginTest (name : String)
  | endTest (name : String)
  | caseCheck
  | beginCase (name : String)
  /-- What follows belongs to the enclosing function, up to `stepIn`. -/
  | stepOut
  | stepIn
  | endCase (name : String) (hasRows : Bool)
  -- the script
  | unreachable (keyword : String) (line : Nat)
  | endScript

/-- A directive and the mark of the token read last. -/
structure Step where
  mark : Mark
  directive : Directive

end ScriptEngine
