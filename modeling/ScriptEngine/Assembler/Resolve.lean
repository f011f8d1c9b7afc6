import ScriptEngine.Assembler.State

/-!
# Finding variables

A name denotes the innermost local of that name in the current function, else
one of an enclosing function, which is then captured by every function in
between, else a global. Captures of one function are pairwise distinct, so that
a variable keeps its index.
-/
namespace ScriptEngine.Assembler

/-- Where an instruction finds a variable. -/
inductive Place where
  | slot (n : UInt8)
  | capture (n : UInt8)
  | global (name : UInt16)
  deriving DecidableEq, Repr

def Place.getter : Place → Instruction
  | slot n => .getLocal n
  | capture n => .getUpvalue n
  | global n => .getGlobal n

def Place.setter : Place → Instruction
  | slot n => .setLocal n
  | capture n => .setUpvalue n
  | global n => .setGlobal n

/-- The innermost local of a name, with its slot. -/
def findLocal (name : String) : List Local → Option (Nat × Local)
  | [] => none
  | l :: rest => if l.name = name then some (rest.length, l) else findLocal name rest

def slotOf (name : String) (locals : List Local) : Except CompileFault (Option UInt8) :=
  match findLocal name locals with
  | none => .ok none
  | some (slot, l) =>
    if l.depth.isNone then .error (.ownInitializer name) else .ok (some (UInt8.ofNat slot))

def markCaptured (slot : Nat) : List Local → List Local
  | [] => []
  | l :: rest =>
    if rest.length = slot then { l with captured := true } :: rest
    else l :: markCaptured slot rest

/-- The index of a captured variable, which is added if it is new. -/
def addCapture (b : Body) (c : Capture) : Except CompileFault (UInt8 × Body) :=
  match b.captures.findIdx? (· == c) with
  | some i => .ok (UInt8.ofNat i, b)
  | none =>
    if b.captures.size ≥ 256 then .error (.tooMany "closure variables in function")
    else if b.chunk.modifiers.isLocal || b.chunk.modifiers.isPure then
      .error (.localCapture b.chunk.name)
    else .ok (UInt8.ofNat b.captures.size, { b with captures := b.captures.push c })

/-- Captures a variable of one of the enclosing functions, innermost first. -/
def captureFrom (name : String) (b : Body) :
    List Body → Except CompileFault (Option (UInt8 × Body × List Body))
  | [] => .ok none
  | enclosing :: rest => do
    match ← slotOf name enclosing.locals with
    | some slot =>
      let enclosing := { enclosing with locals := markCaptured slot.toNat enclosing.locals }
      let (i, b) ← addCapture b ⟨true, slot⟩
      return some (i, b, enclosing :: rest)
    | none =>
      match ← captureFrom name enclosing rest with
      | some (j, enclosing, rest) =>
        let (i, b) ← addCapture b ⟨false, j⟩
        return some (i, b, enclosing :: rest)
      | none => return none

def lift {α : Type} : Except CompileFault α → Assembly α
  | .ok a => pure a
  | .error e => throw e

/-- The place of a local or captured variable. -/
def findPlace (name : String) : Assembly (Option Place) := do
  let a ← get
  match ← lift (slotOf name a.body.locals) with
  | some slot => return some (.slot slot)
  | none =>
    match ← lift (captureFrom name a.body a.outer) with
    | some (i, body, outer) =>
      set { a with body := body, outer := outer }
      return some (.capture i)
    | none => return none

def place (name : String) : Assembly Place := do
  match ← findPlace name with
  | some p => return p
  | none => return .global (← nameConstant name)

def load (name : String) : Assembly Unit := do
  emit (← place name).getter

/-- A pure function stores to its own variables only. -/
def checkStore (name : String) : Assembly Place := do
  let p ← place name
  let chunk := (← getBody).chunk
  match p with
  | .global _ =>
    if chunk.modifiers.isPure then
      throw (.pureAssignment chunk.name ("global '" ++ name ++ "'"))
    return p
  | _ => return p

def store (name : String) : Assembly Unit := do
  emit (← checkStore name).setter

def checkImpure (target : String) : Assembly Unit := do
  let chunk := (← getBody).chunk
  if chunk.modifiers.isPure then throw (.pureAssignment chunk.name target)

/-- The receiver of the innermost method. -/
def loadThis : Assembly Unit := do
  match ← findPlace "this" with
  | some p => emit p.getter
  | none => throw .notInMethod

end ScriptEngine.Assembler
