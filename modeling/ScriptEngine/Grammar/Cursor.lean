import ScriptEngine.Compile.Directive

/-!
# Reading a token stream

A cursor holds the token read last, the one to be read next and those behind it,
together with the directives written so far. At the end of the stream the last
token stays in place. A grammar action may stop with a fault at the last or at
the next token; what it has written until then is kept.

Loops are bounded by the number of tokens left, since each round reads one.
-/
namespace ScriptEngine.Grammar

structure Cursor where
  previous : Token
  current : Token
  ahead : List Token
  steps : Array Step := #[]

/-- A stream always ends with the end of input, supplied if it is missing. -/
def Cursor.ofTokens (tokens : List Token) : Cursor :=
  let closing : List Token := match tokens.getLast? with
    | some t => if t.kind = .eof then [] else [.endOfInput t.line t.character 0]
    | none => [.endOfInput 1 1 0]
  match tokens ++ closing with
  | t :: ts => { previous := t, current := t, ahead := ts }
  | [] => { previous := .endOfInput 1 1 0, current := .endOfInput 1 1 0, ahead := [] }

structure SyntaxError where
  fault : CompileFault
  mark : Mark
  deriving DecidableEq, Repr

abbrev Parser := EStateM SyntaxError Cursor

def Cursor.advance (c : Cursor) : Cursor :=
  match c.ahead with
  | t :: ts => { c with previous := c.current, current := t, ahead := ts }
  | [] => { c with previous := c.current }

def advance : Parser Unit := modify Cursor.advance

def currentKind : Parser TokenKind := return (← get).current.kind

def previousToken : Parser Token := return (← get).previous

/-- The kind of the token after the next one. -/
def secondKind : Parser TokenKind := return ((← get).ahead.head?.map (·.kind)).getD .eof

def failBefore {α : Type} (fault : CompileFault) : Parser α := do
  throw ⟨fault, (← get).previous.mark⟩

def failHere {α : Type} (fault : CompileFault) : Parser α := do
  throw ⟨fault, (← get).current.mark⟩

def write (d : Directive) : Parser Unit :=
  modify fun c => { c with steps := c.steps.push ⟨c.previous.mark, d⟩ }

def check (kind : TokenKind) : Parser Bool := return (← currentKind) = kind

/-- Reads the next token if it is of a kind. -/
def accept (kind : TokenKind) : Parser Bool := do
  if ← check kind then
    advance
    return true
  else
    return false

def expect (kind : TokenKind) (what : String) : Parser Unit := do
  if ← accept kind then return () else failHere (.expected what)

def expectName (what : String) : Parser String := do
  expect .identifier what
  return (← previousToken).lexeme

/-- A member name; `init` is a keyword and a member name. -/
def expectMember (what : String) : Parser String := do
  if ← accept .initWord then return (← previousToken).lexeme else expectName what

/-- Runs a round until it asks to stop, for at most as many rounds as a list has tokens. -/
def rounds {σ : Type} (round : σ → Parser (σ × Bool)) : List Token → σ → Parser σ
  | [], _ => failHere .exhausted
  | _ :: left, s => do
    let (s, more) ← round s
    if more then rounds round left s else return s

def repeatFrom {σ : Type} (s : σ) (round : σ → Parser (σ × Bool)) : Parser σ := do
  let c ← get
  rounds round (c.previous :: c.current :: c.ahead) s

def repeatWhile (round : Parser Bool) : Parser Unit :=
  repeatFrom () fun _ => return ((), ← round)

/-- One item and more behind commas. -/
def commaSeparated (item : Parser Unit) : Parser Unit :=
  repeatWhile do
    item
    accept .comma

def isAssignment : TokenKind → Bool
  | .equal | .plusEqual | .minusEqual | .starEqual | .slashEqual | .percentEqual => true
  | _ => false

/-- What an assignment operator computes before it stores. -/
inductive Assignment where
  | plain
  | compound (operation : Directive)

def Assignment.ofKind? : TokenKind → Option Assignment
  | .equal => some .plain
  | .plusEqual => some (.compound (.plain .add))
  | .minusEqual => some (.compound (.plain .subtract))
  | .starEqual => some (.compound (.plain .multiply))
  | .slashEqual => some (.compound (.plain .divide))
  | .percentEqual => some (.compound (.plain .modulus))
  | _ => none

/-- Reads an assignment operator, if that is the next token. -/
def acceptAssignment : Parser (Option Assignment) := do
  let assignment := Assignment.ofKind? (← currentKind)
  if assignment.isSome then advance
  return assignment

end ScriptEngine.Grammar
