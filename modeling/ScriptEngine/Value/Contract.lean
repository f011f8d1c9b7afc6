import ScriptEngine.Value.Heap

/-!
# Contracts

A callable stands in for another when it takes as many arguments and keeps the
promises `local` and `pure` that the other makes; `standsIn` gives the first
thing that is wrong. A type meets a contract when each method of the contract
has one that stands in for it. The operator `meets` compares any two values in
the same way, by all their members; values without members meet values of their
own kind.
-/
namespace ScriptEngine

/-- Why one callable cannot take the place of another. -/
inductive Mismatch where
  | notCallable
  | arity (provided required : Nat)
  | notLocal
  | notPure
  deriving DecidableEq, Repr

/-- Why a method of a contract is not met. -/
inductive Unmet where
  | missing
  | mismatch (cause : Mismatch)
  deriving DecidableEq, Repr

namespace Unmet

def message (method : String) : Unmet → String
  | missing => s!"missing method '{method}'"
  | mismatch .notCallable => s!"'{method}' is not callable"
  | mismatch (.arity provided required) =>
    s!"method '{method}' takes {provided} arguments but {required} are required"
  | mismatch .notLocal => s!"method '{method}' must be marked local"
  | mismatch .notPure => s!"method '{method}' must be marked pure"

end Unmet

namespace Heap

def keepsPromises (required provided : Modifiers) : Except Mismatch Unit :=
  if required.isLocal && !provided.isLocal then .error .notLocal
  else if required.isPure && !provided.isPure then .error .notPure
  else .ok ()

def standsIn (h : Heap) (required provided : Value) : Except Mismatch Unit :=
  if !provided.isCallable then .error .notCallable
  else
    match h.arity? required, h.arity? provided with
    | some want, some given =>
      if want ≠ given then .error (.arity given want)
      else keepsPromises (h.modifiers required) (h.modifiers provided)
    | _, _ => keepsPromises (h.modifiers required) (h.modifiers provided)

/-- The first method of a contract that a type does not meet, and why. -/
def unmet? (h : Heap) (t : UserType) : List (String × Value) → Option (String × Unmet)
  | [] => none
  | (name, required) :: rest =>
    match t.method? name with
    | none => some (name, .missing)
    | some provided =>
      match h.standsIn required provided with
      | .error cause => some (name, .mismatch cause)
      | .ok () => h.unmet? t rest

/-! ## Members -/

inductive Member where
  | field
  | callable (value : Value)
  deriving DecidableEq, Repr

def fieldMember (v : Value) : Member := if v.isCallable then .callable v else .field

/-- Fields and methods of a type, added to what an instance has itself. -/
def typeMembers (t : UserType) (own : Table String Member) : Table String Member :=
  let withFields := own.insertAllNew (t.fields.map fun name => (name, .field))
  withFields.insertAllNew (t.methods.toList.map fun (name, method) => (name, .callable method))

def members? (h : Heap) : Value → Option (Table String Member)
  | .object ref =>
    let o := h.object ref
    let own := Table.ofList (o.fields.toList.map fun (name, v) => (name, fieldMember v))
    match o.fromType with
    | some t => some (typeMembers (h.userType t) own)
    | none => some own
  | .userType ref => some (typeMembers (h.userType ref) ∅)
  | _ => none

def memberMeets (h : Heap) (required : Member) : Option Member → Bool
  | none => false
  | some provided =>
    match required, provided with
    | .field, _ => true
    | .callable want, .callable v => (h.standsIn want v).isOk
    | .callable _, .field => false

def meets (h : Heap) (candidate required : Value) : Bool :=
  match h.members? candidate, h.members? required with
  | some provided, some wanted =>
    wanted.toList.all fun (name, member) => h.memberMeets member (provided.get? name)
  | _, _ => candidate.kindName == required.kindName

end Heap

end ScriptEngine
