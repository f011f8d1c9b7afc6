import ScriptEngine.Code.Instruction
import ScriptEngine.Number.Basic

/-!
# Chunks of code and scripts

A chunk holds the instructions of one function with the tables its operands
point into: constants, labels, source lines and the names of arguments and
results. Lines are kept as runs; `Chunk.lineAt` reads the line of an instruction
back. Number and string constants are shared, chunk constants are not.

A script lists its chunks in the order in which they were completed, so that a
chunk comes after the chunks it refers to.
-/
namespace ScriptEngine

/-- What a chunk was compiled from; it decides whether slot 0 holds the receiver. -/
inductive FunctionKind where
  | script | function | method | init | initChain
  deriving DecidableEq, Repr, Inhabited

namespace FunctionKind

def hasReceiver : FunctionKind → Bool
  | method | init | initChain => true
  | script | function => false

def toByte : FunctionKind → UInt8
  | script => 0
  | function => 1
  | method => 2
  | init => 3
  | initChain => 4

def ofByte? : UInt8 → Option FunctionKind
  | 0 => some script
  | 1 => some function
  | 2 => some method
  | 3 => some init
  | 4 => some initChain
  | _ => none

theorem ofByte?_toByte (k : FunctionKind) : ofByte? k.toByte = some k := by cases k <;> rfl

end FunctionKind

/-- A local function captures no variable, a pure one also writes no global and no object. -/
structure Modifiers where
  isLocal : Bool := false
  isPure : Bool := false
  deriving DecidableEq, Repr, Inhabited

namespace Modifiers

def toByte (m : Modifiers) : UInt8 := m.isLocal.toUInt8 ||| (m.isPure.toUInt8 <<< 1)

def ofByte (b : UInt8) : Modifiers := ⟨b &&& 1 != 0, b &&& 2 != 0⟩

theorem ofByte_toByte (m : Modifiers) : ofByte m.toByte = m := by
  rcases m with ⟨_ | _, _ | _⟩ <;> rfl

end Modifiers

/-- A chunk by its place in the list that a script is made of. A chunk from elsewhere has
no place; only its name is known. -/
inductive ChunkRef where
  | listed (index : Nat)
  | stray (name : String)
  deriving DecidableEq, Repr, Inhabited

/-- A constant of a chunk. A value of any other kind is known by the kind alone. -/
inductive Constant where
  | number (value : Number)
  | string (value : String)
  | chunk (ref : ChunkRef)
  | other (kind : String)
  deriving DecidableEq, Repr, Inhabited

/-- So many instructions in a row come from one line. -/
structure LineRun where
  line : UInt32
  count : UInt32
  deriving DecidableEq, Repr, Inhabited

structure Chunk where
  name : String
  source : String
  /-- The names of the enclosing chunks and this one, joined by dots. -/
  chain : String
  kind : FunctionKind
  modifiers : Modifiers := {}
  code : Array Instruction := #[]
  constants : Array Constant := #[]
  lines : Array LineRun := #[]
  labels : Array UInt32 := #[]
  labelNames : Array String := #[]
  arguments : Array UInt16 := #[]
  results : Array UInt16 := #[]
  captureCount : UInt8 := 0
  deriving DecidableEq, Repr, Inhabited

namespace Chunk

/-- The offset of a label that has no place yet. -/
def unplaced : UInt32 := 0xFFFFFFFF

def addLine (lines : Array LineRun) (line : UInt32) : Array LineRun :=
  match lines.back? with
  | some run => if run.line = line then lines.pop.push ⟨line, run.count + 1⟩ else lines.push ⟨line, 1⟩
  | none => lines.push ⟨line, 1⟩

def emit (c : Chunk) (i : Instruction) (line : UInt32) : Chunk :=
  { c with code := c.code.push i, lines := addLine c.lines line }

/-- Constants that may share one entry. -/
def shares : Constant → Constant → Bool
  | .number x, .number y => x == y
  | .string s, .string t => s == t
  | _, _ => false

/-- The index of a constant to share, else that of a new entry; none when the table is full. -/
def constantIndex? (c : Chunk) (value : Constant) : Option UInt16 :=
  let i := (c.constants.findIdx? (shares · value)).getD c.constants.size
  if i < 65536 then some (UInt16.ofNat i) else none

/-- Puts a constant at its index, which is in the table already or next to it. -/
def putConstant (c : Chunk) (index : UInt16) (value : Constant) : Chunk :=
  if index.toNat = c.constants.size then { c with constants := c.constants.push value } else c

/-- The label to be made next; none when there are no more. -/
def nextLabel? (c : Chunk) : Option UInt16 :=
  if c.labels.size < 65536 then some (UInt16.ofNat c.labels.size) else none

/-- Makes a label that has no place yet. -/
def addLabel (c : Chunk) (name : String) : Chunk :=
  { c with labels := c.labels.push unplaced, labelNames := c.labelNames.push name }

/-- Binds a label to the next instruction. -/
def placeLabel (c : Chunk) (label : UInt16) : Chunk :=
  { c with labels := c.labels.setIfInBounds label.toNat (UInt32.ofNat c.code.size) }

def labelOffset? (c : Chunk) (label : UInt16) : Option Nat :=
  match c.labels[label.toNat]? with
  | some offset => if offset = unplaced then none else some offset.toNat
  | none => none

def lineIn : List LineRun → Nat → UInt32
  | [], _ => 0
  | run :: rest, offset =>
    if offset < run.count.toNat then run.line else lineIn rest (offset - run.count.toNat)

/-- The line of the instruction at an offset, zero when there is none. -/
def lineAt (c : Chunk) (offset : Nat) : UInt32 := lineIn c.lines.toList offset

def arity (c : Chunk) : Nat := c.arguments.size

def name? (c : Chunk) (index : UInt16) : Option String :=
  match c.constants[index.toNat]? with
  | some (.string s) => some s
  | _ => none

end Chunk

structure Script where
  /-- SHA-256 of the source, in hexadecimal. -/
  hash : String
  chunks : Array Chunk
  top : ChunkRef
  diagnostics : Array String
  deriving DecidableEq, Repr, Inhabited

end ScriptEngine
