import ScriptEngine.Code.Chunk
import ScriptEngine.Stored.Fault

/-!
# Reading a script

A reader takes bytes from the front of its input and leaves the rest. The
lengths in the input are not trusted: a sequence is read element by element and
ends with the input at the latest. Bytes after the last part are left over.

A chunk may refer only to chunks before it. That is checked once all chunks
have been read, and before the top chunk is chosen.
-/
namespace ScriptEngine.Stored

abbrev Reader := StateT Bytes (Except Fault)

namespace Reader

/-- Splits off so many bytes, none if there are fewer. -/
def split : Nat → Bytes → Option (Bytes × Bytes)
  | 0, rest => some ([], rest)
  | _ + 1, [] => none
  | n + 1, b :: rest => (split n rest).map fun (taken, left) => (b :: taken, left)

theorem split_append (taken rest : Bytes) :
    split taken.length (taken ++ rest) = some (taken, rest) := by
  induction taken with
  | nil => simp [split]
  | cons b bs ih => simp [split, ih]

def take (n : Nat) : Reader Bytes := fun input =>
  match split n input with
  | some (taken, rest) => .ok (taken, rest)
  | none => .error .truncated

def byte : Reader UInt8
  | [] => .error .truncated
  | b :: rest => .ok (b, rest)

/-- The number with these digits to the base 256, the lowest first. -/
def value : Bytes → Nat
  | [] => 0
  | b :: rest => b.toNat + 256 * value rest

def word16 : Reader UInt16 := do return UInt16.ofNat (value (← take 2))

def word32 : Reader UInt32 := do return UInt32.ofNat (value (← take 4))

def word64 : Reader UInt64 := do return UInt64.ofNat (value (← take 8))

def length : Reader Nat := do return (← word32).toNat

def text : Reader String := do
  let bytes ← take (← length)
  match String.fromUTF8? ⟨bytes.toArray⟩ with
  | some s => return s
  | none => throw .badText

/-- So many elements, one after the other. -/
def times {α : Type} (read : Reader α) : Nat → Reader (List α)
  | 0 => return []
  | n + 1 => do
    let x ← read
    return x :: (← times read n)

/-- A length, then so many elements. -/
def all {α : Type} (read : Reader α) : Reader (List α) := do times read (← length)

def constant : Reader Constant := do
  match ← byte with
  | 0 => return .number ⟨← word64⟩
  | 1 => return .string (← text)
  | 2 => return .chunk (.listed (← length))
  | tag => throw (.badTag .constant tag)

def lineRun : Reader LineRun := do
  let line ← word32
  return ⟨line, ← word32⟩

def instruction : Reader Instruction := do
  let op ← byte
  let a ← byte
  let b ← byte
  let word := Word.mk op a b (← byte)
  match Instruction.decode word with
  | some i => return i
  | none => throw (.badWord word)

def kind : Reader FunctionKind := do
  let tag ← byte
  match FunctionKind.ofByte? tag with
  | some k => return k
  | none => throw (.badTag .functionKind tag)

def chunk : Reader Chunk := do
  let name ← text
  let source ← text
  let chain ← text
  let kind ← kind
  let modifiers := Modifiers.ofByte (← byte)
  let captureCount ← byte
  let codeLength ← length
  let constants ← all constant
  let lines ← all lineRun
  let labels ← all word32
  let labelNames ← all text
  let code ← times instruction codeLength
  let arguments ← all word16
  let results ← all word16
  return {
    name, source, chain, kind, modifiers, captureCount
    code := code.toArray
    constants := constants.toArray
    lines := lines.toArray
    labels := labels.toArray
    labelNames := labelNames.toArray
    arguments := arguments.toArray
    results := results.toArray }

end Reader

/-- The first constant that refers to a chunk at this place or after it. -/
def forward? (position : Nat) : List Constant → Option Nat
  | [] => none
  | .chunk (.listed i) :: rest => if i < position then forward? position rest else some i
  | _ :: rest => forward? position rest

/-- Accepts chunks that refer only to chunks before them, the first being at `position`. -/
def checkForward (position : Nat) : List Chunk → Except Fault Unit
  | [] => .ok ()
  | c :: rest =>
    match forward? position c.constants.toList with
    | some i => .error (.badReference (.forward position i))
    | none => checkForward (position + 1) rest

namespace Reader

def header : Reader Unit := do
  if (← take 4) ≠ magic then throw .notAScript
  let found ← word32
  if found ≠ version then throw (.otherVersion version found)

def script : Reader Script := do
  header
  let hash ← text
  let chunks ← all chunk
  checkForward 0 chunks
  let top ← length
  if chunks.length ≤ top then throw (.badReference (.noTop top))
  let diagnostics ← all text
  return ⟨hash, chunks.toArray, .listed top, diagnostics.toArray⟩

end Reader

end Stored

/-- The script that the front of some bytes stores. -/
def Script.ofBytes (bytes : Stored.Bytes) : Except Stored.Fault Script :=
  (·.1) <$> Stored.Reader.script.run bytes

end ScriptEngine
