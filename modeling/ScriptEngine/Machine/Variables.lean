import ScriptEngine.Machine.Run

/-!
# Variables

Locals are slots counted from the base of the frame, globals have names. A
captured variable is reached through a cell; while the cell is open, reading and
writing it means its slot. A slot has one cell, however many closures capture
it, and `closeFrom` gives every cell whose slot goes away a value of its own.
-/
namespace ScriptEngine.Run

def getLocal (index : UInt8) : Run Unit := do
  let f ← frame
  push (← slot (f.base + index.toNat))

def setLocal (index : UInt8) : Run Unit := do
  let f ← frame
  let v ← peek 0
  setSlot (f.base + index.toNat) v

/-! ## Captured variables -/

/-- The cell of a variable that the running closure has captured. -/
def captured (index : UInt8) : Run Nat := do
  let f ← frame
  match ((← heap).closure f.closure).cells[index.toNat]? with
  | some ref => return ref
  | none => failInternal (.noUpvalue index)

def getCaptured (index : UInt8) : Run Unit := do
  let ref ← captured index
  match (← heap).cell ref with
  | .opened i => push (← slot i)
  | .closed v => push v

def setCaptured (index : UInt8) : Run Unit := do
  let v ← peek 0
  let ref ← captured index
  match (← heap).cell ref with
  | .opened i => setSlot i v
  | .closed _ => modifyHeap (·.setCell ref (.closed v))

def isOpenAt (h : Heap) (i ref : Nat) : Bool := h.cell ref == .opened i

/-- The open cell of a slot, a new one if it has none. -/
def cellOf (i : Nat) : Run Nat := do
  let h ← heap
  match (← machine).openCells.find? (isOpenAt h i) with
  | some ref => return ref
  | none =>
    let ref ← allocate (·.addCell (.opened i))
    modifyMachine fun m => { m with openCells := ref :: m.openCells }
    return ref

/-- The cells that stay open, and the heap in which each of the others, whose slots are
`start` or above, holds the value of its slot. -/
def closeCells (stack : Array Value) (start : Nat) : List Nat → Heap → List Nat × Heap
  | [], h => ([], h)
  | ref :: rest, h =>
    match h.cell ref with
    | .closed _ => closeCells stack start rest h
    | .opened i =>
      if i < start then
        let (kept, h) := closeCells stack start rest h
        (ref :: kept, h)
      else closeCells stack start rest (h.setCell ref (.closed ((stack[i]?).getD .null)))

/-- Gives every captured variable at `start` or above a value of its own. -/
def closeFrom (start : Nat) : Run Unit := fun w =>
  if w.machine.openCells.isEmpty then .ok () w
  else
    let (kept, h) := closeCells w.machine.stack start w.machine.openCells w.heap
    .ok () { w with heap := h, machine.openCells := kept }

def closeTop : Run Unit := do
  let size ← stackSize
  if size = 0 then fail .stackUnderflow
  closeFrom (size - 1)
  let _ ← pop

/-! ## Closures -/

/-- The cells for so many captures, read from the instructions that follow. -/
def captures (chain : String) : Nat → Run (List Nat)
  | 0 => return []
  | n + 1 => do
    let ref ← match ← fetch with
      | .capture ⟨true, index⟩ => do cellOf ((← frame).base + index.toNat)
      | .capture ⟨false, index⟩ => captured index
      | other => failInternal (.noCapture chain other)
    return ref :: (← captures chain n)

def makeClosure (index : UInt16) : Run Unit := do
  match ← constant index with
  | .chunk id =>
    let c := (← heap).chunk id
    let cells ← captures c.chain c.captureCount.toNat
    push (← allocate (·.addClosure ⟨id, cells.toArray⟩))
  | _ => failInternal (.notAChunk index)

/-! ## Globals -/

def defineGlobal (index : UInt16) : Run Unit := do
  let name ← name index
  let v ← pop
  modifyMachine fun m => { m with globals := m.globals.insert name v }

def getGlobal (index : UInt16) : Run Unit := do
  let name ← name index
  match (← machine).globals.get? name with
  | some v => push v
  | none => fail (.undefinedGlobal name)

def setGlobal (index : UInt16) : Run Unit := do
  let name ← name index
  if (← machine).globals.contains name then
    let v ← peek 0
    modifyMachine fun m => { m with globals := m.globals.insert name v }
  else fail (.undefinedGlobal name)

end ScriptEngine.Run
