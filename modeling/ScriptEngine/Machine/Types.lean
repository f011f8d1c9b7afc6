import ScriptEngine.Machine.Run

/-!
# Declaring types

A type under construction lies on the stack and every instruction of its body
adds one part to it. `finishType` adds what the mixins bring, whose init chains
run before the type's own, and then checks the contracts.
-/
namespace ScriptEngine.Run

def asType (op : String) : Value → Run Nat
  | .userType ref => return ref
  | v => fail (.invalidTarget op "a type" v.kindName)

def popType (op : String) : Run Nat := do asType op (← pop)

def peekType (op : String) : Run Nat := do asType op (← peek 0)

def updateType (ref : Nat) (f : UserType → UserType) : Run Unit :=
  modifyHeap (·.updateType ref f)

def userType (ref : Nat) : Run UserType := return (← heap).userType ref

def declareType (kind : TypeKind) (index : UInt16) : Run Unit := do
  let name ← name index
  push (← allocate (·.addType { name, kind }))

def inherit : Run Unit := do
  let sub ← popType "inherit"
  let parent ← peekType "inherit"
  let t ← userType parent
  if t.kind = .enumKind then
    fail (.invalidTarget "inherit" "a class, data or system type" "enum")
  else updateType sub fun s => s.inherit parent t

def addMixin : Run Unit := do
  let mixin ← popType "mixin"
  updateType (← peekType "mixin") fun t => { t with mixins := t.mixins ++ [mixin] }

def addContract : Run Unit := do
  let contract ← popType "signs"
  updateType (← peekType "signs") fun t => { t with contracts := t.contracts ++ [contract] }

def addField (index : UInt16) : Run Unit := do
  let name ← name index
  updateType (← peekType "field") (·.addFields [name])

def addMethod (index : UInt16) : Run Unit := do
  let name ← name index
  let method ← pop
  updateType (← peekType "method") fun t => { t with methods := t.methods.insert name method }

def addStatic (index : UInt16) : Run Unit := do
  let name ← name index
  let v ← pop
  updateType (← peekType "static") fun t => { t with statics := t.statics.insert name v }

def addInitChain : Run Unit := do
  let chain ← pop
  updateType (← peekType "init chain") fun t => { t with initChains := t.initChains ++ [chain] }

/-- An entry of an enumeration: a sealed instance that knows its name and its value. -/
def entry (owner : Nat) (name : String) (v : Value) : Object where
  fromType := some owner
  fields := Table.ofList [("Key", .string name), ("Value", v)]
  flags := .lock {}

def addEntry (index : UInt16) : Run Unit := do
  let name ← name index
  let v ← pop
  let owner ← peekType "enum value"
  let made ← allocate (·.addObject (entry owner name v))
  updateType owner fun t => { t with statics := t.statics.insert name made }

/-- Adds the members of all mixins in order, and their init chains in front. -/
def absorbAll (mixins : List UserType) (t : UserType) : UserType :=
  let t := mixins.foldl UserType.absorb t
  { t with initChains := (mixins.map (·.initChains)).flatten ++ t.initChains }

/-- The first contract that is not met, with the method and the reason. -/
def violation? (h : Heap) (t : UserType) : List UserType → Option RuntimeError
  | [] => none
  | contract :: rest =>
    match h.unmet? t contract.methods.toList with
    | some (method, cause) => some (.contractViolation t.name contract.name method cause)
    | none => violation? h t rest

def finishType : Run Unit := do
  let ref ← peekType "finish"
  let before ← heap
  let mixins := (before.userType ref).mixins.map before.userType
  updateType ref (absorbAll mixins)
  let h ← heap
  let t := h.userType ref
  match violation? h t (t.contracts.map h.userType) with
  | some e => fail e
  | none =>
    updateType ref fun t =>
      { t with flags := if t.kind = .enumKind then t.flags.lock else t.flags.freeze }

def restrict (op : String) (change : Flags → Flags) : Run Unit := do
  match ← pop with
  | .object ref => modifyHeap (·.updateObject ref fun o => { o with flags := change o.flags })
  | .userType ref => updateType ref fun t => { t with flags := change t.flags }
  | v => fail (.invalidTarget op "an instance or type" v.kindName)

end ScriptEngine.Run
