import ScriptEngine.Grammar.Statement
import ScriptEngine.Number.Rounding

/-!
# Type declarations

The elements of a type body come in stages. A declaration keyword allows some of
them, and the stages of a body must not decrease. The defaults of fields are
code of an init chain, which is open while field declarations follow each other
and is closed, with the names of all fields, before anything else.
-/
namespace ScriptEngine.Grammar

inductive Stage where
  | begin | static | mixin | signs | enumValue | var | init | method
  deriving DecidableEq, Repr

namespace Stage

def rank : Stage → Nat
  | begin => 0
  | static => 1
  | mixin => 2
  | signs => 3
  | enumValue => 4
  | var => 5
  | init => 6
  | method => 7

def name : Stage → String
  | begin => "Begin"
  | static => "Static"
  | mixin => "Mixin"
  | signs => "Signs"
  | enumValue => "EnumValue"
  | var => "Var"
  | init => "Init"
  | method => "Method"

end Stage

/-- A declaration keyword and the stages it allows. -/
structure StagePolicy where
  keyword : String
  kind : TypeKind
  stages : List Stage

namespace StagePolicy

def classPolicy : StagePolicy := ⟨"class", .classKind, [.static, .mixin, .signs, .var, .init, .method]⟩

def dataPolicy : StagePolicy := ⟨"data", .dataKind, [.mixin, .var]⟩

def systemPolicy : StagePolicy := ⟨"system", .systemKind, [.static, .mixin, .signs, .var, .method]⟩

def enumPolicy : StagePolicy := ⟨"enum", .enumKind, [.static, .enumValue, .method]⟩

def allows (p : StagePolicy) (s : Stage) : Bool := p.stages.contains s

end StagePolicy

/-- What is known of a type body in the middle of it. -/
structure TypeBody where
  name : String
  policy : StagePolicy
  stage : Stage := .begin
  hasInit : Bool := false
  fields : List String := []
  /-- The value of the next enum entry without an initializer. -/
  counter : Number := .zero
  chainOpen : Bool := false

variable (parse : Goal → Parser Unit)

/-- The stage of the element that begins at the next token. -/
def elementStage (policy : StagePolicy) : Parser Stage := do
  match ← currentKind with
  | .staticWord => return .static
  | .mixinWord => return .mixin
  | .signsWord => return .signs
  | .varWord => return .var
  | .initWord => return .init
  | .localWord | .pureWord => return .method
  | .identifier =>
    if policy.allows .enumValue && (← secondKind) ≠ .openParen then return .enumValue
    return .method
  | _ => failHere .unexpectedElement

/-- Closes the init chain, if one is open. -/
def closeInitChain (b : TypeBody) : Parser TypeBody := do
  if b.chainOpen then
    write (.endInitChain b.fields)
    return { b with chainOpen := false }
  return b

def enterStage (b : TypeBody) (stage : Stage) : Parser TypeBody := do
  unless b.policy.allows stage do
    failHere (.stageNotAllowed stage.name b.policy.keyword)
  if stage.rank < b.stage.rank then
    failHere (.stageOutOfOrder b.name b.stage.name stage.name)
  let mut b := b
  if b.stage = .var ∧ stage ≠ .var then
    b ← closeInitChain b
  if stage = .var ∧ b.stage ≠ .var then
    write .beginInitChain
    b := { b with chainOpen := true }
  return { b with stage := stage }

def staticElement : Parser Unit := do
  advance
  if ← accept .varWord then
    commaSeparated do
      let name ← expectName "static variable name"
      write (.reserve name)
      initializer parse
      write (.staticMember name)
    expect .semicolon "';' after static variables"
  else
    let m ← modifiers {}
    let name ← expectName "static method name"
    write (.reserve name)
    parse (.function .function name m [])
    write (.staticMember name)

/-- Names of types, each used up by one instruction. -/
def typeList (what after : String) (use : Directive) : Parser Unit := do
  advance
  commaSeparated do
    let name ← expectName (what ++ " name")
    write (.load name)
    write use
  expect .semicolon ("';' after " ++ after)

/-- The number that starts at the next token, with a sign or without. -/
def leadingNumber? : Parser (Option Number) := do
  let c ← get
  let literal (sign : Int) (t : Token) : Option Number :=
    match t.kind, t.literal with
    | .number, .number n => some (Number.mul (.ofInt sign) n)
    | _, _ => none
  if c.current.kind = .minus then return c.ahead.head?.bind (literal (-1))
  return literal 1 c.current

def enumValueElement (b : TypeBody) : Parser TypeBody := do
  let name ← expectName "enum value name"
  write (.reserve name)
  let mut b := b
  if ← accept .equal then
    if let some n ← leadingNumber? then
      b := { b with counter := n.add (.ofNat 1) }
    expression parse
  else
    write (.number b.counter)
    b := { b with counter := b.counter.add (.ofNat 1) }
  write (.enumValue name)
  unless ← accept .comma do
    let _ ← accept .semicolon
  return b

def varElement (b : TypeBody) : Parser TypeBody := do
  advance
  let b ← repeatFrom b fun b => do
    let name ← expectName "field name"
    if b.fields.contains name then failBefore (.duplicateField name b.name)
    write (.reserve name)
    write .receiver
    initializer parse
    write (.storeField name)
    return ({ b with fields := b.fields ++ [name] }, ← accept .comma)
  expect .semicolon "';' after field declarations"
  return b

def initElement (b : TypeBody) : Parser TypeBody := do
  advance
  if b.hasInit then failBefore (.duplicateInit b.name)
  write (.reserve "init")
  parse (.function .init "init" {} b.fields)
  write (.method "init")
  return { b with hasInit := true }

def methodElement : Parser Unit := do
  let m ← modifiers {}
  let name ← expectName "method name"
  write (.reserve name)
  parse (.function .method name m [])
  write (.method name)

def typeElement (b : TypeBody) : Parser TypeBody := do
  let stage ← elementStage b.policy
  let b ← enterStage b stage
  match stage with
  | .static =>
    staticElement parse
    return b
  | .mixin =>
    typeList "mixin" "mixins" (.plain .mixin)
    return b
  | .signs =>
    typeList "contract" "contracts" (.plain .signs)
    return b
  | .enumValue => enumValueElement parse b
  | .var => varElement parse b
  | .init => initElement parse b
  | .begin | .method =>
    methodElement parse
    return b

def supertype (name : String) (kind : TypeKind) : Parser Unit := do
  if ← accept .less then
    if kind = .enumKind then failBefore .enumParent
    let parent ← expectName "supertype name"
    if parent = name then failBefore .ownParent
    write (.inheritFrom parent name)

def typeDeclaration (policy : StagePolicy) : Parser Unit := do
  let name ← expectName "type name"
  write (.beginType policy.kind name)
  supertype name policy.kind
  write (.load name)
  expect .openBrace "'\x7b' before type body"
  let b ← repeatFrom { name := name, policy := policy : TypeBody } fun b => do
    let kind ← currentKind
    if kind = .closeBrace ∨ kind = .eof then return (b, false)
    return (← typeElement parse b, true)
  expect .closeBrace "'\x7d' after type body"
  let _ ← closeInitChain b
  write .endType

end ScriptEngine.Grammar
