import ScriptEngine.Machine.Fields

/-!
# Native functions

A native works on a window of the stack: the callee or receiver and the
arguments above it. It pushes its results on top of the window. The methods of
lists that call back work on the elements that the list had when the method was
called.

`Reentry` is what a native may ask of the machine that runs it.
-/
namespace ScriptEngine

/-- Ways back into the machine: a call that runs to its end, and a whole script. -/
structure Reentry where
  call : Value → List Value → Run (List Value)
  interpret : Script → Run Unit

/-- The callee or receiver at `base` and so many arguments above it. -/
structure Window where
  base : Nat
  count : Nat
  deriving DecidableEq, Repr

namespace Window

def argument (w : Window) (index : Nat) : Run Value :=
  if w.count < index then Run.failInternal (.noArgument index w.count)
  else Run.slot (w.base + index)

def arguments (w : Window) : Run (List Value) :=
  (List.range w.count).mapM fun i => w.argument (i + 1)

def expect (w : Window) (name : String) (expected : Nat) : Run Unit :=
  if w.count = expected then return else Run.fail (.arity name expected w.count)

end Window

namespace Native

def give (v : Value) : Run NativeResult := do
  Run.push v
  return .expression

/-- The first result of a call, null if there is none. -/
def first (results : List Value) : Value := results.head?.getD .null

/-! ## The core library -/

def print (args : Window) : Run NativeResult := do
  let values ← args.arguments
  let h ← Run.heap
  let text := String.join (values.map h.text)
  Run.modifyMachine fun m => { m with output := m.output ++ text }
  return .success

def str (args : Window) : Run NativeResult := do
  args.expect "str" 1
  let v ← args.argument 1
  give (.string ((← Run.heap).text v))

def newList (args : Window) : Run NativeResult := do
  let items ← args.arguments
  give (← Run.allocate (·.addList items.toArray))

def newMap (args : Window) : Run NativeResult := do
  args.expect "Map" 0
  give (← Run.allocate (·.addMap ∅))

def core : CoreFunction → Window → Run NativeResult
  | .print => print
  | .str => str
  | .list => newList
  | .map => newMap

/-! ## Methods of lists -/

def items (ref : Nat) : Run (List Value) := return ((← Run.heap).list ref).toList

def listAdd (ref : Nat) (args : Window) : Run NativeResult := do
  args.expect "Add" 1
  let v ← args.argument 1
  Run.modifyHeap (·.updateList ref (·.push v))
  return .success

def listCount (ref : Nat) (args : Window) : Run NativeResult := do
  args.expect "Count" 0
  give (.ofNat ((← Run.heap).list ref).size)

def listGet (ref : Nat) (args : Window) : Run NativeResult := do
  args.expect "Get" 1
  let items := (← Run.heap).list ref
  let i ← Run.position (← args.argument 1) items.size
  give ((items[i]?).getD .null)

def listMap (again : Reentry) (ref : Nat) (args : Window) : Run NativeResult := do
  args.expect "Map" 1
  let items ← items ref
  let f ← args.argument 1
  let mapped ← items.mapM fun item => first <$> again.call f [item]
  give (← Run.allocate (·.addList mapped.toArray))

def listFilter (again : Reentry) (ref : Nat) (args : Window) : Run NativeResult := do
  args.expect "Filter" 1
  let items ← items ref
  let f ← args.argument 1
  let kept ← items.filterM fun item => return !(first (← again.call f [item])).isFalsy
  give (← Run.allocate (·.addList kept.toArray))

def listReduce (again : Reentry) (ref : Nat) (args : Window) : Run NativeResult := do
  args.expect "Reduce" 2
  let items ← items ref
  let f ← args.argument 1
  let start ← args.argument 2
  give (← items.foldlM (fun acc item => first <$> again.call f [acc, item]) start)

def listMethod? (again : Reentry) (ref : Nat) : String → Option (Window → Run NativeResult)
  | "Add" => some (listAdd ref)
  | "Count" => some (listCount ref)
  | "Get" => some (listGet ref)
  | "Map" => some (listMap again ref)
  | "Filter" => some (listFilter again ref)
  | "Reduce" => some (listReduce again ref)
  | _ => none

/-! ## Methods of maps -/

def mapCount (ref : Nat) (args : Window) : Run NativeResult := do
  args.expect "Count" 0
  give (.ofNat ((← Run.heap).map ref).size)

def mapHas (ref : Nat) (args : Window) : Run NativeResult := do
  args.expect "Has" 1
  let k ← Run.mapKey (← args.argument 1)
  give (.bool (((← Run.heap).map ref).contains k))

def mapRemove (ref : Nat) (args : Window) : Run NativeResult := do
  args.expect "Remove" 1
  let k ← Run.mapKey (← args.argument 1)
  let removed := ((← Run.heap).map ref).get? k
  Run.modifyHeap (·.updateMap ref (·.erase k))
  give (removed.getD .null)

def mapMethod? (ref : Nat) : String → Option (Window → Run NativeResult)
  | "Count" => some (mapCount ref)
  | "Has" => some (mapHas ref)
  | "Remove" => some (mapRemove ref)
  | _ => none

/-! ## Functions of the host -/

def perform (again : Reentry) (args : Window) : NativeProgram → Run NativeResult
  | .finish result => return result
  | .raise failure => Run.raise failure
  | .count next => perform again args (next args.count)
  | .argument index next => do perform again args (next (← args.argument index))
  | .read next => do perform again args (next (← Run.heap))
  | .allocate make next => do perform again args (next (← Run.allocate make))
  | .push v next => do
    Run.push v
    perform again args next
  | .call callee values next => do
    perform again args (next (← Run.attempt (again.call callee values)))
  | .interpret script next => do
    again.interpret script
    perform again args next

def run (again : Reentry) (body : NativeBody) (args : Window) : Run NativeResult :=
  match body with
  | .core function => core function args
  | .program steps => perform again args steps

end Native

end ScriptEngine
