import ScriptEngine.Grammar.TypeBody

/-!
# Programs

Declarations, and the recursion through all rules. Its bound is on the nesting
of goals and grows with the number of tokens. `Program.ofTokens` gives the
directives of a token stream, and the fault at which reading them stopped.
-/
namespace ScriptEngine.Grammar

variable (parse : Goal → Parser Unit)

/-- A function declaration; a modifier may stand where `fun` is expected. -/
def functionDeclaration : Parser Unit := do
  let first := (← previousToken).kind
  let mut m : Modifiers := { isLocal := first = .localWord, isPure := first = .pureWord }
  if first ≠ .funWord then
    m ← modifiers m
    expect .funWord "'fun' after function modifiers"
  let name ← expectName "function name"
  write (.declareFunction name)
  parse (.function .function name m [])
  write (.define name)

def testDeclaration : Parser Unit := do
  let name ← expectName "test set name"
  write (.beginTest name)
  expect .openBrace "'\x7b' before test set body"
  block parse
  write (.endTest name)

/-- A test case, with parameters and rows of arguments for them or without. -/
def caseDeclaration : Parser Unit := do
  write .caseCheck
  let name ← expectName "test case name"
  write (.beginCase name)
  let mut hasRows := false
  if ← accept .openParen then
    parameters
    if ← accept .openParen then
      write .stepOut
      expression parse
      expect .closeParen "')' after test case data"
      write .stepIn
      hasRows := true
  expect .openBrace "'\x7b' before test case body"
  block parse
  write (.endCase name hasRows)

/-- The rule of the declaration that a keyword begins. -/
def declarationRule? : TokenKind → Option (Parser Unit)
  | .varWord => some (varStatement parse)
  | .funWord | .localWord | .pureWord => some (functionDeclaration parse)
  | .classWord => some (typeDeclaration parse .classPolicy)
  | .dataWord => some (typeDeclaration parse .dataPolicy)
  | .systemWord => some (typeDeclaration parse .systemPolicy)
  | .enumWord => some (typeDeclaration parse .enumPolicy)
  | .testWord => some (testDeclaration parse)
  | .testcaseWord => some (caseDeclaration parse)
  | _ => none

def declaration : Parser Unit := do
  match declarationRule? parse (← currentKind) with
  | some rule =>
    advance
    rule
  | none => statement parse

/-- Reads a goal, with a bound on the nesting of goals. -/
def parseGoal : Nat → Goal → Parser Unit
  | 0, _ => failHere .exhausted
  | n + 1, .declaration => declaration (parseGoal n)
  | n + 1, .statement => statement (parseGoal n)
  | n + 1, .expression level => climb (parseGoal n) level
  | n + 1, .function kind name m fields => function (parseGoal n) kind name m fields

def program (bound : Nat) : Parser Unit := do
  repeatWhile do
    if ← check .eof then return false
    parseGoal bound .declaration
    return true
  write .endScript

end Grammar

/-- The directives of a token stream up to its end or its first fault. -/
structure Program where
  steps : Array Step
  fault : Option Grammar.SyntaxError

def Program.ofTokens (tokens : List Token) : Program :=
  match Grammar.program (4 * tokens.length + 8) (.ofTokens tokens) with
  | .ok _ c => ⟨c.steps, none⟩
  | .error e c => ⟨c.steps, some e⟩

end ScriptEngine
