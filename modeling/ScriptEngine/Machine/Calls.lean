import ScriptEngine.Machine.Natives
import ScriptEngine.Machine.Variables

/-!
# Calls and returns

A call finds its callee below its arguments. A closure gets a frame that begins
at the callee; a native runs at once and leaves its results there; a type leaves
a new instance there, with frames for its init chains above the frame of `init`,
so that the chains run first.

A call leaves one value in place of the callee. Any other number is accepted
only where a region for several results begins at that very slot.
-/
namespace ScriptEngine

/-- Why the execution of instructions stops. -/
inductive Exit where
  | returned
  | yielded
  deriving DecidableEq, Repr

inductive Control where
  | next
  | exit (how : Exit)
  deriving DecidableEq, Repr

namespace Run

def calleeSlot (argc : Nat) : Run Nat := do
  let size ← stackSize
  if argc < size then return size - (argc + 1) else fail .stackUnderflow

/-- Hands over the results of a call that began at a slot. -/
def pushResults (results : List Value) (start : Nat) : Run Unit := do
  if results.length = 1 ∨ (← machine).marks.head? = some start then pushAll results
  else fail (.multiReturnMismatch 1 results.length)

def callClosure (ref argc base : Nat) : Run Unit := do
  let c := (← heap).code ref
  if argc = c.arity then pushFrame { closure := ref, base }
  else fail (.arity c.name c.arity argc)

/-- Runs a native in its window and moves its results to the callee's slot. -/
def callNative (body : Window → Run NativeResult) (argc base : Nat) : Run Unit := do
  let outcome ← body ⟨base, argc⟩
  let results ← takeFrom (base + argc + 1)
  truncate base
  if outcome = .success ∨ results.isEmpty then pushResults [.null] base
  else pushResults results base

def native (again : Reentry) (ref : Nat) : Run (Window → Run NativeResult) := fun w =>
  .ok (Native.run again (w.native ref)) w

/-- Calls all parts with the same arguments; the answer is the last one's. -/
def callParts (again : Reentry) (args : List Value) (last : Value) : List Value → Run Value
  | [] => return last
  | part :: rest => do
    let results ← again.call part args
    callParts again args (Native.first results) rest

def callCombined (again : Reentry) (parts : List Value) (base : Nat) : Run Unit := do
  let args ← takeFrom (base + 1)
  truncate base
  push (← callParts again args .null parts)

/-- Frames for init chains, the first chain on top. -/
def pushChains (made : Value) (type : String) : List Value → Run Unit
  | [] => return
  | chain :: rest => do
    match chain with
    | .closure ref =>
      let base ← stackSize
      push made
      pushFrame { closure := ref, base, discards := true }
      pushChains made type rest
    | _ => failInternal (.notAnInitChain type)

def instantiate (ref argc base : Nat) : Run Unit := do
  let t ← userType ref
  if t.kind = .enumKind then
    fail (.invalidTarget "instantiate" "a class, data or system type" "enum")
  let made ← allocate (·.addObject ⟨some ref, ∅, {}⟩)
  setSlot base made
  match t.method? "init" with
  | some (.closure init) => callClosure init argc base
  | _ => if argc ≠ 0 then fail (.arity t.name 0 argc)
  pushChains made t.name t.initChains.reverse

/-- Calls what lies below so many arguments. -/
def callTop (again : Reentry) (argc : Nat) : Run Unit := do
  let base ← calleeSlot argc
  match ← slot base with
  | .closure ref => callClosure ref argc base
  | .bound ref =>
    let b := (← heap).boundMethod ref
    setSlot base b.receiver
    match b.method with
    | .closure ref => callClosure ref argc base
    | .native ref _ => callNative (← native again ref) argc base
    | v => fail (.notCallable v.kindName)
  | .userType ref => instantiate ref argc base
  | .native ref _ => callNative (← native again ref) argc base
  | .combined ref => callCombined again ((← heap).combination ref) base
  | v => fail (.notCallable v.kindName)

def undefinedMethod {α : Type} (receiver : Value) (name : String) : Run α := do
  fail (.undefinedMethod name ((← heap).text receiver))

/-- Puts something else in the place of the receiver and calls it. -/
def callInstead (again : Reentry) (callee : Value) (argc base : Nat) : Run Unit := do
  setSlot base callee
  callTop again argc

/-- The call `receiver.name(arguments)`; a field of that name comes before a method. -/
def invoke (again : Reentry) (index : UInt16) (argc : Nat) : Run Unit := do
  let name ← name index
  let base ← calleeSlot argc
  let receiver ← slot base
  let h ← heap
  match receiver with
  | .object ref =>
    let o := h.object ref
    match o.fields.get? name with
    | some v => callInstead again v argc base
    | none =>
      match h.method? o name with
      | some (.closure ref) => callClosure ref argc base
      | some (.native ref _) => callNative (← native again ref) argc base
      | some v => callInstead again v argc base
      | none => undefinedMethod receiver name
  | .userType ref =>
    match (h.userType ref).static? name with
    | some v => callInstead again v argc base
    | none => undefinedMethod receiver name
  | .list ref =>
    match Native.listMethod? again ref name with
    | some method => callNative method argc base
    | none => undefinedMethod receiver name
  | .map ref =>
    match Native.mapMethod? ref name with
    | some method => callNative method argc base
    | none => undefinedMethod receiver name
  | _ => undefinedMethod receiver name

/-- The call `super.name(arguments)`; the supertype lies above the arguments. -/
def superInvoke (index : UInt16) (argc : Nat) : Run Unit := do
  let name ← name index
  let ref ← popType "super"
  let base ← calleeSlot argc
  match (← userType ref).method? name with
  | some (.closure method) => callClosure method argc base
  | _ => undefinedInSuper ref name

def popFrame : Run Frame := fun w =>
  match w.machine.frames.back? with
  | some f => .ok f { w with machine.frames := w.machine.frames.pop }
  | none => .error (.failed { error := .internal .returnWithoutFrame }) w

/-- Leaves the innermost frame with so many results; ends the run at the depth where it began. -/
def returnFrom (count stop : Nat) : Run Control := do
  let results ← popMany count
  let f ← popFrame
  closeFrom f.base
  truncate f.base
  if !f.discards then pushResults results f.base
  return if (← depth) ≤ stop then .exit .returned else .next

end Run

end ScriptEngine
