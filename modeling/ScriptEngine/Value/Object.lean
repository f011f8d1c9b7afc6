import ScriptEngine.Value.Basic
import ScriptEngine.Value.Table

/-!
# What values refer to

The things on the heap: closures with the variables they captured, types,
instances, bound methods. A frozen thing takes no new fields, a read-only one no
change at all; `Flags.refuses` is the only place where a write is judged.

A type is put together from parts: `UserType.inherit` copies its parent,
`UserType.absorb` adds what a mixin has and the type has not.
-/
namespace ScriptEngine

/-- A captured variable: still a slot of the stack, or a value of its own. -/
inductive Cell where
  | opened (slot : Nat)
  | closed (value : Value)
  deriving DecidableEq, Repr

instance : Inhabited Cell := ⟨.closed .null⟩

structure Closure where
  chunk : ChunkId
  cells : Array Nat := #[]
  deriving DecidableEq, Repr, Inhabited

structure BoundMethod where
  receiver : Value
  method : Value
  deriving DecidableEq, Repr, Inhabited

inductive Refusal where
  | readOnly
  | frozen
  deriving DecidableEq, Repr

structure Flags where
  frozen : Bool := false
  readOnly : Bool := false
  deriving DecidableEq, Repr, Inhabited

namespace Flags

def freeze (f : Flags) : Flags := { f with frozen := true }

def lock (_ : Flags) : Flags := ⟨true, true⟩

/-- Why a field that does or does not exist may not be written. -/
def refuses (f : Flags) (fieldExists : Bool) : Option Refusal :=
  if f.readOnly then some .readOnly
  else if f.frozen && !fieldExists then some .frozen
  else none

end Flags

structure UserType where
  name : String
  kind : TypeKind
  methods : Table String Value := ∅
  statics : Table String Value := ∅
  fields : List String := []
  /-- Closures that give fields their first values, run in order before `init`. -/
  initChains : List Value := []
  mixins : List Nat := []
  contracts : List Nat := []
  superType : Option Nat := none
  flags : Flags := {}
  deriving Inhabited

namespace UserType

/-- Names that are not there yet, added in order. -/
def addNames (names : List String) : List String → List String
  | [] => names
  | n :: rest => addNames (if n ∈ names then names else names ++ [n]) rest

def addFields (t : UserType) (names : List String) : UserType :=
  { t with fields := addNames t.fields names }

def method? (t : UserType) (name : String) : Option Value := t.methods.get? name

def static? (t : UserType) (name : String) : Option Value := t.statics.get? name

/-- Copies methods, fields and init chains of the type that `parent` refers to. -/
def inherit (t : UserType) (ref : Nat) (parent : UserType) : UserType :=
  { t.addFields parent.fields with
    methods := t.methods.insertAll parent.methods.toList
    initChains := t.initChains ++ parent.initChains
    superType := some ref }

/-- Takes over the members of a mixin that are not there yet, and all its contracts. -/
def absorb (t : UserType) (mixin : UserType) : UserType :=
  { t.addFields mixin.fields with
    methods := t.methods.insertAllNew mixin.methods.toList
    contracts := t.contracts ++ mixin.contracts }

end UserType

/-- An instance of a type, or a dynamic object when it has none. -/
structure Object where
  fromType : Option Nat
  fields : Table String Value := ∅
  flags : Flags := {}
  deriving Inhabited

end ScriptEngine
