import ScriptEngine.Code.Chunk
import ScriptEngine.Stored.Fault

/-!
# Writing a script

Numbers are little-endian and every sequence is preceded by its length, except
that the number of instructions of a chunk stands with the facts about the
chunk. A chunk constant is written as the place of the chunk in the list.
-/
namespace ScriptEngine.Stored

def bytes16 (n : UInt16) : Bytes := [n.toUInt8, (n >>> 8).toUInt8]

def bytes32 (n : UInt32) : Bytes :=
  [n.toUInt8, (n >>> 8).toUInt8, (n >>> 16).toUInt8, (n >>> 24).toUInt8]

def bytes64 (n : UInt64) : Bytes :=
  bytes32 n.toUInt32 ++ bytes32 (n >>> 32).toUInt32

def writeLength (n : Nat) : Except Fault Bytes :=
  if n < 2 ^ 32 then .ok (bytes32 (UInt32.ofNat n)) else .error (.badReference (.tooLong n))

def writeText (s : String) : Except Fault Bytes := do
  let bytes := s.toUTF8.data.toList
  return (← writeLength bytes.length) ++ bytes

/-- A length, then the parts one after the other. -/
def writeAll {α : Type} (write : α → Except Fault Bytes) (xs : List α) : Except Fault Bytes := do
  let length ← writeLength xs.length
  let parts ← xs.mapM write
  return length ++ parts.flatten

/-- The place of a chunk in a list of so many chunks. -/
def place (count : Nat) : ChunkRef → Except Fault Bytes
  | .listed i =>
    if i < count then .ok (bytes32 (UInt32.ofNat i))
    else .error (.badReference (.notListed (toString i)))
  | .stray name => .error (.badReference (.notListed name))

def writeConstant (count : Nat) : Constant → Except Fault Bytes
  | .number x => .ok (0 :: bytes64 x.bits)
  | .string s => do return 1 :: (← writeText s)
  | .chunk ref => do return 2 :: (← place count ref)
  | .other kind => .error (.badReference (.notStorable kind))

def writeRun (run : LineRun) : Bytes := bytes32 run.line ++ bytes32 run.count

def writeChunk (count : Nat) (c : Chunk) : Except Fault Bytes := do
  let name ← writeText c.name
  let source ← writeText c.source
  let chain ← writeText c.chain
  let facts := [c.kind.toByte, c.modifiers.toByte, c.captureCount]
  let length ← writeLength c.code.size
  let constants ← writeAll (writeConstant count) c.constants.toList
  let lines ← writeAll (fun run => .ok (writeRun run)) c.lines.toList
  let labels ← writeAll (fun offset => .ok (bytes32 offset)) c.labels.toList
  let labelNames ← writeAll writeText c.labelNames.toList
  let code := (c.code.toList.map fun i => i.encode.bytes).flatten
  let arguments ← writeAll (fun i => .ok (bytes16 i)) c.arguments.toList
  let results ← writeAll (fun i => .ok (bytes16 i)) c.results.toList
  return name ++ source ++ chain ++ facts ++ length ++ constants ++ lines ++ labels ++
    labelNames ++ code ++ arguments ++ results

end Stored

/-- The stored form of a script. -/
def Script.toBytes (s : Script) : Except Stored.Fault Stored.Bytes := do
  let hash ← Stored.writeText s.hash
  let chunks ← Stored.writeAll (Stored.writeChunk s.chunks.size) s.chunks.toList
  let top ← Stored.place s.chunks.size s.top
  let diagnostics ← Stored.writeAll Stored.writeText s.diagnostics.toList
  return Stored.magic ++ Stored.bytes32 Stored.version ++ hash ++ chunks ++ top ++ diagnostics

end ScriptEngine
