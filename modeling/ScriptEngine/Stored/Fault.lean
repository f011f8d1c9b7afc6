import ScriptEngine.Code.Word
import ScriptEngine.Text.Hex

/-!
# What can be wrong with a stored script

A stored script is a sequence of bytes. `Fault` lists why a script has no stored
form and why bytes are no stored script; `Fault.message` words it.
-/
namespace ScriptEngine.Stored

/-- Why a reference from one part of a script to another cannot be kept. -/
inductive BadReference where
  | tooLong (length : Nat)
  | notListed (chunk : String)
  | notStorable (kind : String)
  | forward (holder target : Nat)
  | noTop (index : Nat)
  deriving DecidableEq, Repr

namespace BadReference

def message : BadReference → String
  | tooLong length => s!"length {length} too large"
  | notListed chunk => s!"chunk '{chunk}' is not part of the script"
  | notStorable kind => s!"{kind} constants cannot be serialized"
  | forward holder target => s!"chunk {holder} refers forward to chunk {target}"
  | noTop index => s!"top chunk {index}"

end BadReference

/-- The bytes that choose between several forms. -/
inductive Tag where
  | functionKind
  | constant
  deriving DecidableEq, Repr

namespace Tag

def name : Tag → String
  | functionKind => "function kind"
  | constant => "constant"

end Tag

inductive Fault where
  | truncated
  | notAScript
  | otherVersion (expected found : UInt32)
  | badTag (what : Tag) (tag : UInt8)
  | badWord (word : Word)
  | badReference (cause : BadReference)
  | badText
  deriving DecidableEq, Repr

namespace Fault

def hexByte (b : UInt8) : String := Text.Hex.encode [b]

def message : Fault → String
  | truncated => "Unexpected end of compiled script data"
  | notAScript => "Not a compiled Lumo script"
  | otherVersion expected found =>
    s!"Compiled script version {found} does not match runtime version {expected}"
  | badTag what tag => s!"Invalid {what.name} tag {tag}"
  | badWord word =>
    "Invalid instruction word [" ++ ", ".intercalate (word.bytes.map hexByte) ++ "]"
  | badReference cause => "Invalid reference: " ++ cause.message
  | badText => "Invalid UTF-8 in string data"

/-- A script of another version stays unreadable however often it is read. -/
def isFatal : Fault → Bool
  | otherVersion _ _ => true
  | _ => false

end Fault

abbrev Bytes := List UInt8

/-- The first four bytes of every stored script. -/
def magic : Bytes := [0x4C, 0x55, 0x4D, 0x4F]

/-- The number of the layout written and read here. -/
def version : UInt32 := 1

end ScriptEngine.Stored
