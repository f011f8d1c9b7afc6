import ScriptEngine.Grammar.Expression

/-!
# Statements and functions

A statement begins with its keyword, which has been read when its rule runs.
A function is a parameter list, an optional list of named results and a block.
-/
namespace ScriptEngine.Grammar

variable (parse : Goal → Parser Unit)

/-- The keyword of a statement after which the rest of a block is unreachable. -/
def exitKeyword? : TokenKind → Option String
  | .returnWord => some "return"
  | .throwWord => some "throw"
  | _ => none

/-- Declarations up to a closing brace. The first one behind an exit is noted. -/
def block : Parser Unit := do
  let _ ← repeatFrom false fun noted => do
    let leading ← currentKind
    if leading = .closeBrace ∨ leading = .eof then return (noted, false)
    parse .declaration
    match exitKeyword? leading with
    | some keyword =>
      if noted || (← check .closeBrace) then return (noted, true)
      write (.unreachable keyword (← get).current.line)
      return (true, true)
    | none => return (noted, true)
  expect .closeBrace "'\x7d' after block"

/-! ## Functions -/

def parameters : Parser Unit := do
  unless ← check .closeParen do
    let _ ← repeatFrom 0 fun (count : Nat) => do
      if count ≥ 255 then failHere .tooManyParameters
      let name ← expectName "parameter name"
      write (.parameter name)
      return (count + 1, ← accept .comma)
  expect .closeParen "')' after parameters"

def resultNames : Parser Unit := do
  if ← accept .openParen then
    commaSeparated do
      let name ← expectName "return value name"
      write (.resultName name)
    expect .closeParen "')' after return names"

def function (kind : FunctionKind) (name : String) (modifiers : Modifiers)
    (fields : List String) : Parser Unit := do
  write (.beginFunction kind name modifiers)
  expect .openParen "'(' after function name"
  parameters
  resultNames
  if kind = .init then write (.storeMatching fields)
  expect .openBrace "'\x7b' before function body"
  block parse
  write .endFunction

/-- Any run of modifiers, added to those already read. -/
def modifiers (start : Modifiers) : Parser Modifiers :=
  repeatFrom start fun m => do
    if ← accept .localWord then return ({ m with isLocal := true }, true)
    if ← accept .pureWord then return ({ m with isPure := true }, true)
    return (m, false)

/-! ## Simple statements -/

def expressionStatement : Parser Unit := do
  expression parse
  expect .semicolon "';' after expression"
  write (.plain .pop)

/-- An expression, a semicolon, and an instruction that uses the value up. -/
def valueStatement (what : String) (d : Directive) : Parser Unit := do
  expression parse
  expect .semicolon ("';' after " ++ what)
  write d

def initializer : Parser Unit := do
  if ← accept .equal then expression parse else write (.plain .null)

def isSingleLiteral : TokenKind → Bool
  | .number | .string | .trueWord | .falseWord | .nullWord => true
  | _ => false

def multiVariables : Parser Unit := do
  let names ← repeatFrom [] fun names => do
    let name ← expectName "variable name in multi-var declaration"
    return (names ++ [name], ← accept .comma)
  if names.length > 255 then failBefore (.tooMany "variables in multi-var declaration")
  expect .closeParen "')' after variable names"
  expect .equal "'=' after multi-var names"
  if isSingleLiteral (← currentKind) && (← secondKind) = .semicolon && names.length ≠ 1 then
    failHere (.literalForMany names.length)
  write (.plain .multiVarStart)
  expression parse
  write (.plain .multiVarEnd)
  write (.plain (.pushByte (UInt8.ofNat names.length)))
  write (.plain (.validate .multiReturnMatches))
  expect .semicolon "';' after multi-var declaration"
  write (.defineMany names)

def varStatement : Parser Unit := do
  if ← accept .openParen then
    multiVariables parse
  else
    commaSeparated do
      let name ← expectName "variable name"
      write (.declare name)
      initializer parse
      write (.define name)
    expect .semicolon "';' after variable declaration"

def throwStatement : Parser Unit := do
  write .leaveLoops
  if ← accept .semicolon then
    write (.plain .null)
  else
    expression parse
    expect .semicolon "';' after thrown value"
  write (.plain .throw)

def registerStatement : Parser Unit := do
  let name ← expectName "name after 'register'"
  write (.reserve name)
  expression parse
  expect .semicolon "';' after registered value"
  write (.register name)

/-- Looks for a comma between the parentheses that open here. -/
def tupleAhead : Nat → List Token → Bool
  | _, [] => false
  | depth, t :: rest =>
    match t.kind with
    | .openParen | .openBracket | .openBrace => tupleAhead (depth + 1) rest
    | .closeParen | .closeBracket | .closeBrace =>
      if depth ≤ 1 then false else tupleAhead (depth - 1) rest
    | .comma => if depth = 1 then true else tupleAhead depth rest
    | .semicolon | .eof => false
    | _ => tupleAhead depth rest

def returnTuple : Parser Unit := do
  advance
  let count ← repeatFrom 0 fun (n : Nat) => do
    expression parse
    return (n + 1, ← accept .comma)
  if count > 255 then failBefore (.tooMany "return values")
  expect .closeParen "')' after return values"
  expect .semicolon "';' after return values"
  write (.plain (.ret (UInt8.ofNat count)))

def returnStatement : Parser Unit := do
  write .returnCheck
  if ← accept .semicolon then
    write .implicitReturn
  else
    write .returnValueCheck
    let c ← get
    if c.current.kind = .openParen && tupleAhead 0 (c.current :: c.ahead) then
      returnTuple parse
    else
      expression parse
      expect .semicolon "';' after return value"
      write (.plain (.ret 1))

/-! ## Control -/

def condition (keyword : String) : Parser Unit := do
  expect .openParen ("'(' after '" ++ keyword ++ "'")
  expression parse
  expect .closeParen "')' after condition"

def ifStatement : Parser Unit := do
  condition parse "if"
  write .branch
  parse .statement
  write .branchElse
  if ← accept .elseWord then parse .statement
  write .branchEnd

def whileStatement : Parser Unit := do
  write .whileStart
  condition parse "while"
  write .whileBody
  parse .statement
  write .whileEnd

def forStatement : Parser Unit := do
  write .beginScope
  expect .openParen "'(' after 'for'"
  if ← accept .semicolon then
    pure ()
  else if ← accept .varWord then
    varStatement parse
  else
    expressionStatement parse
  write .forStart
  unless ← accept .semicolon do
    expression parse
    expect .semicolon "';' after loop condition"
    write .forCondition
  unless ← accept .closeParen do
    write .forStep
    expression parse
    write .forStepEnd
    expect .closeParen "')' after for clauses"
  write .forBody
  parse .statement
  write .forEnd
  write .endScope

def loopStatement : Parser Unit := do
  write .loopStart
  parse .statement
  write .loopEnd

def jumpStatement (keyword : String) (jump : Directive) : Parser Unit := do
  write (.loopCheck keyword)
  expect .semicolon ("';' after '" ++ keyword ++ "'")
  write jump

/-- The rule of the statement that a keyword begins. -/
def statementRule? : TokenKind → Option (Parser Unit)
  | .openBrace => some do
    write .beginScope
    block parse
    write .endScope
  | .ifWord => some (ifStatement parse)
  | .whileWord => some (whileStatement parse)
  | .forWord => some (forStatement parse)
  | .loopWord => some (loopStatement parse)
  | .breakWord => some (jumpStatement "break" .breakLoop)
  | .continueWord => some (jumpStatement "continue" .continueLoop)
  | .returnWord => some (returnStatement parse)
  | .throwWord => some (throwStatement parse)
  | .yieldWord => some do
    expect .semicolon "';' after 'yield'"
    write (.plain .yield)
  | .freezeWord => some (valueStatement parse "freeze target" (.plain .freeze))
  | .readonlyWord => some (valueStatement parse "readonly target" (.plain .readOnly))
  | .buildWord => some (valueStatement parse "build source" (.plain .build))
  | .registerWord => some (registerStatement parse)
  | _ => none

def statement : Parser Unit := do
  match statementRule? parse (← currentKind) with
  | some rule =>
    advance
    rule
  | none => expressionStatement parse

end ScriptEngine.Grammar
