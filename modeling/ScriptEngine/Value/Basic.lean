import ScriptEngine.Code.Chunk
import ScriptEngine.Number.Rounding

/-!
# Values

A value is a plain datum or a reference to something on the heap. References are
numbers, and two of them are the same when they refer to the same thing, whatever
it holds; numbers are compared as numbers, so that not-a-number differs from
itself.

A map is keyed by `MapKey`, the values that have an equality of their own. The
two zeros are one key; each bit pattern of not-a-number is a key for itself.
-/
namespace ScriptEngine

/-- A chunk of one of the scripts that were loaded. -/
structure ChunkId where
  script : Nat
  index : Nat
  deriving DecidableEq, Repr, Inhabited

inductive Value where
  | null
  | bool (value : Bool)
  | number (value : Number)
  | string (value : String)
  | chunk (id : ChunkId)
  | closure (ref : Nat)
  | userType (ref : Nat)
  | object (ref : Nat)
  | native (ref : Nat) (name : String)
  | bound (ref : Nat)
  | combined (ref : Nat)
  | list (ref : Nat)
  | map (ref : Nat)
  deriving DecidableEq, Repr, Inhabited

namespace Value

def ofNat (n : Nat) : Value := number (Number.ofNat n)

/-- The name of a kind of value in messages. -/
def kindName : Value → String
  | null => "null"
  | bool _ => "bool"
  | number _ => "number"
  | string _ => "string"
  | chunk _ => "chunk"
  | closure _ => "closure"
  | userType _ => "type"
  | object _ => "instance"
  | native _ _ => "native function"
  | bound _ => "bound method"
  | combined _ => "combined closures"
  | list _ => "list"
  | map _ => "map"

/-- Null and false are falsy, everything else is truthy. -/
def isFalsy : Value → Bool
  | null | bool false => true
  | _ => false

def isCallable : Value → Bool
  | closure _ | userType _ | native _ _ | bound _ | combined _ => true
  | _ => false

/-- The values that `+` joins into one callable. -/
def isCombinable : Value → Bool
  | closure _ | native _ _ | bound _ | combined _ => true
  | _ => false

/-- The equality that scripts see. -/
def same : Value → Value → Bool
  | number x, number y => x.equal y
  | a, b => a == b

end Value

inductive MapKey where
  | null
  | bool (value : Bool)
  | number (bits : UInt64)
  | string (value : String)
  deriving DecidableEq, Repr, Inhabited

namespace MapKey

def ofValue? : Value → Option MapKey
  | .null => some null
  | .bool b => some (bool b)
  | .number x => some (number (if x.isZero then Number.zero.bits else x.bits))
  | .string s => some (string s)
  | _ => none

def toValue : MapKey → Value
  | null => .null
  | bool b => .bool b
  | number bits => .number ⟨bits⟩
  | string s => .string s

end MapKey

end ScriptEngine
