import ScriptEngine.Compile.Directive

/-!
# The state of an assembly

One `Body` is kept for every function that is open: its chunk so far, the locals
in scope, the variables it captures and its open control structures. Locals are
listed innermost first, so that the slot of a local is the number of locals
behind it. The enclosing functions follow the current one from the inside out.
-/
namespace ScriptEngine

namespace Assembler

/-- A local has no depth until its initializer is complete. -/
structure Local where
  name : String
  depth : Option Nat
  captured : Bool := false
  deriving DecidableEq, Repr

/-- A loop under construction. -/
structure Loop where
  start : UInt16
  exit : UInt16
  /-- Where `continue` goes. -/
  next : UInt16
  /-- Where a failing condition goes, if the loop has one. -/
  fail : Option UInt16 := none
  body : Option UInt16 := none
  /-- The scope depth outside the body. -/
  depth : Nat
  /-- Whether the body can leave the loop other than by its condition. -/
  leaves : Bool := false
  deriving DecidableEq, Repr

inductive Control where
  /-- A label to be placed at the end. -/
  | join (label : UInt16)
  /-- The labels of an alternative whose first arm is open. -/
  | branch (otherwise finish : UInt16)
  | loop (l : Loop)
  deriving DecidableEq, Repr

structure Body where
  chunk : Chunk
  locals : List Local
  captures : Array Capture := #[]
  depth : Nat := 0
  control : List Control := []
  deriving DecidableEq, Repr

/-- A type declaration that is open, and how many functions enclose it. -/
structure TypeScope where
  name : String
  level : Nat
  hasSuper : Bool := false
  deriving DecidableEq, Repr

end Assembler

open Assembler in
structure Assembler where
  scriptName : String
  mark : Mark
  body : Body
  outer : List Body := []
  /-- Functions stepped out of for a while. -/
  aside : List Body := []
  types : List TypeScope := []
  /-- The levels of the open test sets, innermost first. -/
  testSets : List Nat := []
  chunks : Array Chunk := #[]
  diagnostics : Array String := #[]
  deriving DecidableEq, Repr

namespace Assembler

abbrev Assembly := EStateM CompileFault Assembler

/-- The number of functions that enclose the current one. -/
def level (a : Assembler) : Nat := a.outer.length

def start (scriptName : String) : Assembler where
  scriptName := scriptName
  mark := default
  body := {
    chunk := { name := scriptName, source := scriptName, chain := scriptName, kind := .script }
    locals := [⟨"", some 0, false⟩] }

def getBody : Assembly Body := return (← get).body

def modifyBody (f : Body → Body) : Assembly Unit := modify fun a => { a with body := f a.body }

def Body.emit (b : Body) (i : Instruction) (line : UInt32) : Body :=
  { b with chunk := b.chunk.emit i line }

def emit (i : Instruction) : Assembly Unit :=
  modify fun a => { a with body := a.body.emit i (UInt32.ofNat a.mark.line) }

/-! ## Constants and labels -/

def modifyChunk (f : Chunk → Chunk) : Assembly Unit :=
  modifyBody fun b => { b with chunk := f b.chunk }

def constant (value : Constant) : Assembly UInt16 := do
  match (← get).body.chunk.constantIndex? value with
  | some index =>
    modifyChunk (·.putConstant index value)
    return index
  | none => throw (.tooMany "constants in one chunk")

def nameConstant (name : String) : Assembly UInt16 := constant (.string name)

def newLabel (name : String) : Assembly UInt16 := do
  match (← get).body.chunk.nextLabel? with
  | some label =>
    modifyChunk (·.addLabel name)
    return label
  | none => throw (.tooMany "labels in one chunk")

def placeLabel (label : UInt16) : Assembly Unit := modifyChunk (·.placeLabel label)

/-- A number is inlined when it is an integer of one byte. -/
def number (n : Number) : Assembly Unit := do
  match n.integer? with
  | some (.ofNat m) =>
    if m ≤ 255 ∧ n.negative = false then
      emit (.pushByte (UInt8.ofNat m))
    else
      emit (.pushConstant (← constant (.number n)))
  | _ => emit (.pushConstant (← constant (.number n)))

/-! ## Scopes -/

def beginScope : Assembly Unit := modifyBody fun b => { b with depth := b.depth + 1 }

def dropInstruction (l : Local) : Instruction := if l.captured then .closeUpvalue else .pop

/-- The locals deeper than a depth, innermost first. -/
def localsAbove (depth : Nat) (locals : List Local) : List Local :=
  locals.takeWhile fun l => l.depth.any (depth < ·)

/-- Emits the instructions that drop the locals deeper than a depth. -/
def emitDrops (depth : Nat) : Assembly Unit := do
  (localsAbove depth (← getBody).locals).forM fun l => emit (dropInstruction l)

def endScope : Assembly Unit := do
  modifyBody fun b => { b with depth := b.depth - 1 }
  let depth := (← getBody).depth
  emitDrops depth
  modifyBody fun b => { b with locals := b.locals.drop (localsAbove depth b.locals).length }

/-- Names are unique among the locals of one scope. -/
def declaredHere (depth : Nat) (locals : List Local) (name : String) : Bool :=
  (locals.takeWhile fun l => l.depth.all (depth ≤ ·)).any (·.name == name)

def pushLocal (name : String) : Assembly Unit := do
  if (← getBody).locals.length ≥ 256 then
    throw (.tooMany "local variables in function")
  modifyBody fun b => { b with locals := ⟨name, none, false⟩ :: b.locals }

/-- Declares a local in the current scope; there are none outside of scopes. -/
def declareLocal (name : String) : Assembly Unit := do
  let b ← getBody
  if b.depth = 0 then return ()
  if declaredHere b.depth b.locals name then throw (.duplicateVariable name)
  pushLocal name

/-- From here on the last local may be referred to. -/
def complete : Assembly Unit :=
  modifyBody fun b =>
    if b.depth = 0 then b
    else match b.locals with
      | l :: rest => { b with locals := { l with depth := some b.depth } :: rest }
      | [] => b

/-- Declares a variable: a local within a scope, else a global, whose name is entered. -/
def declare (name : String) : Assembly Unit := do
  if (← getBody).depth > 0 then
    declareLocal name
  else
    let _ ← nameConstant name

def define (name : String) : Assembly Unit := do
  if (← getBody).depth > 0 then
    complete
  else
    emit (.defineGlobal (← nameConstant name))

end Assembler

end ScriptEngine
