import ScriptEngine.Token.Lexer

/-!
# Why a source does not compile

Every cause has one constructor and its wording one function. An error carries
the token it is reported at and the dotted name of the chunk under compilation.
The last two causes are no faults of a source: one says that the grammar used up
its bound on nesting, the other that directives do not fit together.
-/
namespace ScriptEngine

inductive CompileFault where
  | lexical (fault : LexFault)
  | expected (what : String)
  | invalidTarget
  | malformedLiteral (what : String)
  | tooMany (what : String)
  | tooManyParameters
  | tooManyArguments
  | nestedTooDeeply
  | duplicateVariable (name : String)
  | ownInitializer (name : String)
  | localCapture (function : String)
  | pureAssignment (function target : String)
  | literalForMany (count : Nat)
  | notInMethod
  | superOutsideType
  | superWithoutParent
  | topLevelReturn
  | valueFromInit
  | outsideLoop (keyword : String)
  | endlessLoop
  | caseOutsideTest
  | enumParent
  | ownParent
  | duplicateField (field type : String)
  | duplicateInit (type : String)
  | unexpectedElement
  | stageNotAllowed (stage keyword : String)
  | stageOutOfOrder (type reached late : String)
  | exhausted
  | unbalanced
  deriving DecidableEq, Repr

def CompileFault.message : CompileFault → String
  | lexical f => f.message
  | expected what => "Expect " ++ what
  | invalidTarget => "Invalid assignment target"
  | malformedLiteral what => "Malformed " ++ what ++ " literal"
  | tooMany what => "Too many " ++ what
  | tooManyParameters => "Can't have more than 255 parameters"
  | tooManyArguments => "Can't have more than 255 arguments"
  | nestedTooDeeply => "Functions nested too deeply"
  | duplicateVariable name => "Already a variable named '" ++ name ++ "' in this scope"
  | ownInitializer name => "Cannot reference variable '" ++ name ++ "' in its own initializer"
  | localCapture function =>
    "Function '" ++ function ++
      "' is marked local and cannot capture variables from enclosing functions"
  | pureAssignment function target => "Pure function '" ++ function ++ "' cannot assign to " ++ target
  | literalForMany count =>
    "Cannot assign " ++ toString count ++ " variables from a single literal value"
  | notInMethod => "Cannot use 'this' outside of a method"
  | superOutsideType => "Cannot use 'super' outside of a type"
  | superWithoutParent => "Cannot use 'super' in a type with no supertype"
  | topLevelReturn => "Cannot return from top-level code"
  | valueFromInit => "Cannot return a value from an 'init'"
  | outsideLoop keyword => "Cannot use '" ++ keyword ++ "' outside of a loop"
  | endlessLoop => "Loops must contain a termination"
  | caseOutsideTest => "'testcase' is only allowed directly inside a 'test' block"
  | enumParent => "An enum cannot inherit from another type"
  | ownParent => "A type cannot inherit from itself"
  | duplicateField field type => "Duplicate field '" ++ field ++ "' in type '" ++ type ++ "'"
  | duplicateInit type => "Type '" ++ type ++ "' already has an 'init'"
  | unexpectedElement => "Unexpected token in type body"
  | stageNotAllowed stage keyword =>
    "Stage '" ++ stage ++ "' is not allowed in a " ++ keyword ++ " declaration"
  | stageOutOfOrder type reached late =>
    "Stage out of order. Type '" ++ type ++ "' is at stage '" ++ reached ++
      "' and has encountered a late '" ++ late ++ "' stage element"
  | exhausted => "Nesting bound exceeded"
  | unbalanced => "Directives out of balance"

/-- What errors and line tables keep of a token. -/
structure Mark where
  lexeme : String
  line : Nat
  character : Nat
  deriving DecidableEq, Repr, Inhabited

def Token.mark (t : Token) : Mark := ⟨t.lexeme, t.line, t.character⟩

structure CompileError where
  fault : CompileFault
  mark : Mark
  chain : String
  deriving DecidableEq, Repr

def CompileError.message (e : CompileError) : String :=
  e.fault.message ++ " at " ++ toString e.mark.line ++ ":" ++ toString e.mark.character ++
    " near '" ++ e.mark.lexeme ++ "' in '" ++ e.chain ++ "'"

end ScriptEngine
