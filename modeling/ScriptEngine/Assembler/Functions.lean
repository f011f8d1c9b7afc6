import ScriptEngine.Assembler.Resolve

/-!
# Functions

A function is assembled into a chunk of its own. When it ends, the chunk is
listed, and the enclosing function gets the instruction that makes a closure,
followed by one word for each captured variable.
-/
namespace ScriptEngine.Assembler

/-- A chunk is named within the type under declaration, if it belongs to one. -/
def chainName (a : Assembler) (name : String) : String :=
  let chain := a.body.chunk.chain
  match a.types.head? with
  | some t =>
    if t.level = a.level then chain ++ "." ++ t.name ++ "." ++ name else chain ++ "." ++ name
  | none => chain ++ "." ++ name

def beginFunction (kind : FunctionKind) (name : String) (modifiers : Modifiers) :
    Assembly Unit := do
  let a ← get
  if a.level + 1 ≥ 256 then throw .nestedTooDeeply
  let chunk : Chunk := {
    name := name
    source := a.scriptName
    chain := chainName a name
    kind := kind
    modifiers := modifiers }
  let receiver := if kind.hasReceiver then "this" else ""
  set { a with
    body := { chunk := chunk, locals := [⟨receiver, some 1, false⟩], depth := 1 }
    outer := a.body :: a.outer }

def parameter (name : String) : Assembly Unit := do
  declareLocal name
  complete
  let index ← nameConstant name
  modifyChunk fun c => { c with arguments := c.arguments.push index }

/-- A named result is a local that starts as null. -/
def resultName (name : String) : Assembly Unit := do
  emit .null
  declareLocal name
  complete
  let index ← nameConstant name
  modifyChunk fun c => { c with results := c.results.push index }

def storeMatching (fields : List String) : Assembly Unit := do
  let chunk := (← getBody).chunk
  chunk.arguments.toList.zipIdx.forM fun (index, i) => do
    match chunk.name? index with
    | some name =>
      if fields.contains name then
        emit (.getLocal 0)
        emit (.getLocal (UInt8.ofNat (i + 1)))
        emit (.setProperty index)
        emit .pop
    | none => return ()

/-- What a function returns when it names no value: the receiver from an `init`, the named
results if there are any, else null. -/
def implicitReturn : Assembly Unit := do
  let chunk := (← getBody).chunk
  if chunk.kind = .init then
    emit (.getLocal 0)
    emit (.ret 1)
  else if chunk.results.isEmpty then
    emit .null
    emit (.ret 1)
  else
    (List.range chunk.results.size).forM fun i =>
      emit (.getLocal (UInt8.ofNat (chunk.arity + 1 + i)))
    emit (.ret (UInt8.ofNat chunk.results.size))

/-- Leaves the current function for the one that encloses it. -/
def popBody : Assembly Body := do
  let a ← get
  match a.outer with
  | enclosing :: rest =>
    set { a with body := enclosing, outer := rest }
    return a.body
  | [] => throw .unbalanced

def endFunction : Assembly Unit := do
  implicitReturn
  let b ← popBody
  unless b.control.isEmpty do throw .unbalanced
  let chunk := { b.chunk with captureCount := UInt8.ofNat b.captures.size }
  let index := (← get).chunks.size
  modify fun a => { a with chunks := a.chunks.push chunk }
  emit (.closure (← constant (.chunk (.listed index))))
  b.captures.toList.forM fun c => emit (.capture c)

/-- Sets the current function aside for the one that encloses it. -/
def stepOut : Assembly Unit := do
  let b ← popBody
  modify fun a => { a with aside := b :: a.aside }

def stepIn : Assembly Unit := do
  let a ← get
  match a.aside with
  | b :: rest => set { a with body := b, outer := a.body :: a.outer, aside := rest }
  | [] => throw .unbalanced

/-! ## Types and tests -/

def beginType (kind : TypeKind) (name : String) : Assembly Unit := do
  let index ← nameConstant name
  declare name
  emit (.declareType kind index)
  define name
  modify fun a => { a with types := ⟨name, a.level, false⟩ :: a.types }

/-- The supertype is kept in a hidden local while the body is open. -/
def inheritFrom (parent name : String) : Assembly Unit := do
  load parent
  beginScope
  pushLocal "super"
  complete
  load name
  emit .inherit
  modify fun a =>
    match a.types with
    | t :: rest => { a with types := { t with hasSuper := true } :: rest }
    | [] => a

def checkSuper : Assembly Unit := do
  match (← get).types with
  | [] => throw .superOutsideType
  | t :: _ => unless t.hasSuper do throw .superWithoutParent

def endInitChain (fields : List String) : Assembly Unit := do
  endFunction
  emit .initChain
  fields.forM fun f => do emit (.field (← nameConstant f))

def endType : Assembly Unit := do
  emit .finishType
  emit .pop
  let a ← get
  match a.types with
  | t :: rest =>
    if t.hasSuper then endScope
    modify fun a => { a with types := rest }
  | [] => throw .unbalanced

def beginTest (name : String) : Assembly Unit := do
  let _ ← nameConstant name
  beginFunction .function name {}
  modify fun a => { a with testSets := a.level :: a.testSets }

def endTest (name : String) : Assembly Unit := do
  modify fun a => { a with testSets := a.testSets.tail }
  endFunction
  emit (.testSet (← nameConstant name))

/-- A test case stands directly in the body of a test set. -/
def caseCheck : Assembly Unit := do
  let a ← get
  unless a.testSets.head? = some a.level do throw .caseOutsideTest

end ScriptEngine.Assembler
