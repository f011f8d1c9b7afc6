import ScriptEngine.Grammar.Cursor
import ScriptEngine.Grammar.Precedence

/-!
# Expressions

Precedence climbing: an expression starts with a token that has a prefix rule
and goes on while the next token binds at least as strongly as required. The
nonterminals that expressions, statements and functions share are named by
`Goal`; each rule takes the parser of goals as an argument, and the recursion is
closed in one place.
-/
namespace ScriptEngine.Grammar

inductive Goal where
  | declaration
  | statement
  | expression (level : Precedence)
  | function (kind : FunctionKind) (name : String) (modifiers : Modifiers) (fields : List String)

variable (parse : Goal → Parser Unit)

def expression : Parser Unit := parse (.expression .assignment)

/-- Arguments up to the closing parenthesis, and how many there are. -/
def argumentList : Parser UInt8 := do
  let mut count := 0
  unless ← check .closeParen do
    count ← repeatFrom 0 fun n => do
      expression parse
      if n ≥ 255 then failBefore .tooManyArguments
      return (n + 1, ← accept .comma)
  expect .closeParen "')' after arguments"
  return UInt8.ofNat count

/-- A variable, or an assignment to it where one is allowed. -/
def variableNamed (name : String) (canAssign : Bool) : Parser Unit := do
  if canAssign && isAssignment (← currentKind) then
    write (.resolve name)
    let assignment ← acceptAssignment
    write (.checkStore name)
    match assignment with
    | some (.compound operation) =>
      write (.load name)
      expression parse
      write operation
    | _ => expression parse
    write (.store name)
  else
    write (.load name)

def superMember : Parser Unit := do
  write .checkSuper
  expect .dot "'.' after 'super'"
  let name ← expectMember "supertype method name"
  write (.reserve name)
  write .this
  if ← accept .openParen then
    let argc ← argumentList parse
    write (.load "super")
    write (.superInvoke name argc)
  else
    write (.load "super")
    write (.getSuper name)

/-- A list, a map, or one of the two when empty. -/
def bracketLiteral : Parser Unit := do
  if ← accept .colon then
    expect .closeBracket "']' after '[:'"
    write (.plain (.buildMap 0))
  else if ← accept .closeBracket then
    write (.plain (.buildList 0))
  else
    expression parse
    let isMap ← accept .colon
    if isMap then expression parse
    let count ← repeatFrom 1 fun n => do
      if !(← accept .comma) then return (n, false)
      if ← check .closeBracket then return (n, false)
      expression parse
      if isMap then
        expect .colon "':' between map key and value"
        expression parse
      return (n + 1, true)
    expect .closeBracket "']' after literal elements"
    if count ≥ 65536 then failBefore (.tooMany "elements in literal")
    let n := UInt16.ofNat count
    write (if isMap then .plain (.buildMap n) else .plain (.buildList n))

/-- An object with fields and no type. -/
def dynamicLiteral : Parser Unit := do
  if ← accept .equal then
    expect .closeBrace "'\x7d' after '\x7b='"
    write (.plain .newDynamic)
  else
    write (.plain .newDynamic)
    unless ← check .closeBrace do
      commaSeparated do
        let name ← expectName "field name in dynamic object"
        write (.reserve name)
        expect .equal "'=' after field name"
        write (.plain .duplicate)
        expression parse
        write (.storeField name)
    expect .closeBrace "'\x7d' after dynamic object fields"

/-- What the token just read begins. -/
def prefixRule (canAssign : Bool) : Parser Unit := do
  let token ← previousToken
  match token.kind with
  | .openParen =>
    expression parse
    expect .closeParen "')' after expression"
  | .openBracket => bracketLiteral parse
  | .openBrace => dynamicLiteral parse
  | .minus =>
    parse (.expression .unary)
    write (.plain .negate)
  | .bang =>
    parse (.expression .unary)
    write (.plain .not)
  | .identifier => variableNamed parse token.lexeme canAssign
  | .string =>
    match token.literal with
    | .string s => write (.string s)
    | _ => failBefore (.malformedLiteral "string")
  | .number =>
    match token.literal with
    | .number n => write (.number n)
    | _ => failBefore (.malformedLiteral "number")
  | .trueWord => write (.plain (.pushBool true))
  | .falseWord => write (.plain (.pushBool false))
  | .nullWord => write (.plain .null)
  | .thisWord => write .this
  | .superWord => superMember parse
  | .funWord => parse (.function .function "anonymous" {} [])
  | .injectWord =>
    let name ← expectName "name after 'inject'"
    write (.inject name)
  | _ => failBefore (.expected "expression")

/-- The instructions of a binary operator, after both operands. -/
def binaryOperation : TokenKind → List Directive
  | .plus => [.plain .add]
  | .minus => [.plain .subtract]
  | .star => [.plain .multiply]
  | .slash => [.plain .divide]
  | .percent => [.plain .modulus]
  | .equalEqual => [.plain .equal]
  | .bangEqual => [.plain .equal, .plain .not]
  | .less => [.plain .less]
  | .lessEqual => [.plain .greater, .plain .not]
  | .greater => [.plain .greater]
  | .greaterEqual => [.plain .less, .plain .not]
  | .meetsWord => [.plain .meets]
  | _ => []

/-- The value of a store: the right side, combined with the old value if need be. -/
def assignedValue (old : List Directive) : Option Assignment → Parser Unit
  | some (.compound operation) => do
    old.forM write
    expression parse
    write operation
  | _ => expression parse

def member (canAssign : Bool) : Parser Unit := do
  let name ← expectMember "property name after '.'"
  write (.reserve name)
  if canAssign && isAssignment (← currentKind) then
    write (.checkImpure "object fields")
    assignedValue parse [.plain .duplicate, .getProperty name] (← acceptAssignment)
    write (.setProperty name)
  else if ← accept .openParen then
    let argc ← argumentList parse
    write (.invoke name argc)
  else
    write (.getProperty name)

def element (canAssign : Bool) : Parser Unit := do
  expression parse
  expect .closeBracket "']' after index"
  if canAssign && isAssignment (← currentKind) then
    write (.checkImpure "indexed elements")
    assignedValue parse [.plain .duplicatePair, .plain .getIndex] (← acceptAssignment)
    write .setIndex
  else
    write (.plain .getIndex)

/-- What the token just read continues. -/
def infixRule (canAssign : Bool) : Parser Unit := do
  let kind := (← previousToken).kind
  match kind with
  | .openParen =>
    let argc ← argumentList parse
    write (.plain (.call argc))
  | .dot => member parse canAssign
  | .openBracket => element parse canAssign
  | .andWord =>
    write .andThen
    parse (.expression .and)
    write .shortEnd
  | .orWord =>
    write .orElse
    parse (.expression .or)
    write .shortEnd
  | _ =>
    parse (.expression kind.infixLevel.next)
    (binaryOperation kind).forM write

/-- An expression whose operators bind at least as strongly as a level. -/
def climb (level : Precedence) : Parser Unit := do
  let canAssign := decide (level.rank ≤ Precedence.assignment.rank)
  advance
  prefixRule parse canAssign
  repeatWhile do
    if level.rank ≤ (← currentKind).infixLevel.rank then
      advance
      infixRule parse canAssign
      return true
    else
      return false
  if canAssign && isAssignment (← currentKind) then failHere .invalidTarget

end ScriptEngine.Grammar
