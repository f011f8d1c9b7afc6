/-!
# Instructions of the stack machine

The machine has one instruction type with up to two operands. Names, constants
and labels are indices into the tables of the chunk that holds the
instruction; locals are slots counted from the base of the frame.

`describe` is the text of an instruction in listings and faults.
-/
namespace ScriptEngine

/-- The keyword that a type was declared with. -/
inductive TypeKind where
  | classKind | dataKind | systemKind | enumKind
  deriving DecidableEq, Repr, Inhabited

namespace TypeKind

def name : TypeKind → String
  | classKind => "Class"
  | dataKind => "Data"
  | systemKind => "System"
  | enumKind => "Enum"

def toByte : TypeKind → UInt8
  | classKind => 0
  | dataKind => 1
  | systemKind => 2
  | enumKind => 3

def ofByte? : UInt8 → Option TypeKind
  | 0 => some classKind
  | 1 => some dataKind
  | 2 => some systemKind
  | 3 => some enumKind
  | _ => none

theorem ofByte?_toByte (k : TypeKind) : ofByte? k.toByte = some k := by cases k <;> rfl

end TypeKind

/-- The checks that `validate` makes. -/
inductive Check where
  | multiReturnMatches
  deriving DecidableEq, Repr, Inhabited

namespace Check

def name : Check → String
  | multiReturnMatches => "MultiReturnMatches"

def toByte : Check → UInt8
  | multiReturnMatches => 0

def ofByte? : UInt8 → Option Check
  | 0 => some multiReturnMatches
  | _ => none

theorem ofByte?_toByte (c : Check) : ofByte? c.toByte = some c := by cases c; rfl

end Check

/-- Where a closure takes a variable from: a local of the enclosing function, or one of
the variables which that function has captured itself. -/
structure Capture where
  fromLocal : Bool
  index : UInt8
  deriving DecidableEq, Repr, Inhabited

inductive Instruction where
  -- constants and the stack
  | pushConstant (n : UInt16)
  | pushByte (n : UInt8)
  | pushBool (value : Bool)
  | null
  | pop
  | duplicate
  | duplicatePair
  | swap
  -- arithmetic and logic
  | add
  | subtract
  | multiply
  | divide
  | modulus
  | negate
  | not
  | equal
  | less
  | greater
  | meets
  -- variables
  | getLocal (slot : UInt8)
  | setLocal (slot : UInt8)
  | getUpvalue (index : UInt8)
  | setUpvalue (index : UInt8)
  | defineGlobal (name : UInt16)
  | getGlobal (name : UInt16)
  | setGlobal (name : UInt16)
  -- control
  | goto (label : UInt16)
  | gotoIfFalse (label : UInt16)
  | call (argc : UInt8)
  | invoke (name : UInt16) (argc : UInt8)
  | ret (count : UInt8)
  | yield
  | throw
  -- closures: one `capture` follows `closure` for every captured variable
  | closure (n : UInt16)
  | capture (source : Capture)
  | closeUpvalue
  -- types
  | declareType (kind : TypeKind) (name : UInt16)
  | inherit
  | mixin
  | signs
  | field (name : UInt16)
  | method (name : UInt16)
  | staticMember (name : UInt16)
  | initChain
  | enumValue (name : UInt16)
  | finishType
  | freeze
  | readOnly
  -- properties and elements
  | getProperty (name : UInt16)
  | setProperty (name : UInt16)
  | getIndex
  | setIndex
  | getSuper (name : UInt16)
  | superInvoke (name : UInt16) (argc : UInt8)
  -- literals
  | buildList (n : UInt16)
  | buildMap (n : UInt16)
  | newDynamic
  -- several results
  | multiVarStart
  | multiVarEnd
  | validate (check : Check)
  -- tests and services
  | testSet (name : UInt16)
  | testCase (name : UInt16) (hasRows : Bool)
  | build
  | register (name : UInt16)
  | inject (name : UInt16)
  deriving DecidableEq, Repr, Inhabited

namespace Instruction

def isGoto : Instruction → Bool
  | goto _ | gotoIfFalse _ => true
  | _ => false

def tuple (name operand : String) : String := name ++ "(" ++ operand ++ ")"

def record (name : String) (operands : List (String × String)) : String :=
  name ++ " \x7b " ++ ", ".intercalate (operands.map fun (f, v) => f ++ ": " ++ v) ++ " \x7d"

def describe : Instruction → String
  | pushConstant n => tuple "PushConstant" (toString n)
  | pushByte n => tuple "PushByte" (toString n)
  | pushBool value => tuple "PushBool" (toString value)
  | null => "Null"
  | pop => "Pop"
  | duplicate => "Duplicate"
  | duplicatePair => "DuplicatePair"
  | swap => "Swap"
  | add => "Add"
  | subtract => "Subtract"
  | multiply => "Multiply"
  | divide => "Divide"
  | modulus => "Modulus"
  | negate => "Negate"
  | not => "Not"
  | equal => "Equal"
  | less => "Less"
  | greater => "Greater"
  | meets => "Meets"
  | getLocal slot => tuple "GetLocal" (toString slot)
  | setLocal slot => tuple "SetLocal" (toString slot)
  | getUpvalue index => tuple "GetUpvalue" (toString index)
  | setUpvalue index => tuple "SetUpvalue" (toString index)
  | defineGlobal name => tuple "DefineGlobal" (toString name)
  | getGlobal name => tuple "GetGlobal" (toString name)
  | setGlobal name => tuple "SetGlobal" (toString name)
  | goto label => tuple "Goto" (toString label)
  | gotoIfFalse label => tuple "GotoIfFalse" (toString label)
  | call argc => tuple "Call" (toString argc)
  | invoke name argc => record "Invoke" [("name", toString name), ("argc", toString argc)]
  | ret count => tuple "Return" (toString count)
  | yield => "Yield"
  | throw => "Throw"
  | closure n => tuple "Closure" (toString n)
  | capture source =>
    record "Capture" [("is_local", toString source.fromLocal), ("index", toString source.index)]
  | closeUpvalue => "CloseUpvalue"
  | declareType kind name => record "Type" [("kind", kind.name), ("name", toString name)]
  | inherit => "Inherit"
  | mixin => "Mixin"
  | signs => "Signs"
  | field name => tuple "Field" (toString name)
  | method name => tuple "Method" (toString name)
  | staticMember name => tuple "StaticMember" (toString name)
  | initChain => "InitChain"
  | enumValue name => tuple "EnumValue" (toString name)
  | finishType => "FinishType"
  | freeze => "Freeze"
  | readOnly => "ReadOnly"
  | getProperty name => tuple "GetProperty" (toString name)
  | setProperty name => tuple "SetProperty" (toString name)
  | getIndex => "GetIndex"
  | setIndex => "SetIndex"
  | getSuper name => tuple "GetSuper" (toString name)
  | superInvoke name argc => record "SuperInvoke" [("name", toString name), ("argc", toString argc)]
  | buildList n => tuple "BuildList" (toString n)
  | buildMap n => tuple "BuildMap" (toString n)
  | newDynamic => "NewDynamic"
  | multiVarStart => "MultiVarStart"
  | multiVarEnd => "MultiVarEnd"
  | validate check => tuple "Validate" check.name
  | testSet name => tuple "TestSet" (toString name)
  | testCase name hasRows =>
    record "TestCase" [("name", toString name), ("has_data", toString hasRows)]
  | build => "Build"
  | register name => tuple "Register" (toString name)
  | inject name => tuple "Inject" (toString name)

end Instruction

end ScriptEngine
