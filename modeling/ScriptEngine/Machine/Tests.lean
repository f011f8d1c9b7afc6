import ScriptEngine.Compile.Script
import ScriptEngine.Machine.Calls

/-!
# Tests and services

A test set runs its body, and a test case runs once or once for each row of
data. Whatever goes wrong in a case is noted in the test record and the next
case runs; only an internal fault ends the run. Sources handed to `build` are
compiled at once and run after the current script.
-/
namespace ScriptEngine.Run

def modifyTests (f : TestRecord → TestRecord) : Run Unit :=
  modifyMachine fun m => { m with tests := f m.tests }

/-- Notes how a case went; an internal fault goes on instead. -/
def recordCase (set case : String) : Except Failure (List Value) → Run Unit
  | .ok _ => modifyTests (·.record set case none)
  | .error f => do
    if f.isFatal then raise f
    let h ← heap
    modifyTests (·.record set case (some (f.message h)))

/-- The name under which an error in the body of a set is noted. -/
def fixture : String := "<fixture>"

def setCurrent (set : Option String) : Run Unit :=
  modifyMachine fun m => { m with currentSet := set }

def testSet (again : Reentry) (index : UInt16) : Run Unit := do
  let name ← name index
  let body ← pop
  modifyTests (·.beginSet name)
  let m ← machine
  if m.settings.testsEnabled then
    let previous := m.currentSet
    setCurrent (some name)
    let outcome ← attempt (again.call body [])
    setCurrent previous
    if let .error f := outcome then recordCase name fixture (.error f)

/-- The arguments that a row of data stands for: its elements if it is a list. -/
def rowArguments (h : Heap) : Value → List Value
  | .list ref => (h.list ref).toList
  | v => [v]

def runRows (again : Reentry) (set name : String) (case : Value) : Nat → List Value → Run Unit
  | _, [] => return
  | i, row :: rest => do
    let h ← heap
    let outcome ← attempt (again.call case (rowArguments h row))
    recordCase set s!"{name}[{i}]" outcome
    runRows again set name case (i + 1) rest

def dataRows : Value → Run (List Value)
  | .list ref => Native.items ref
  | v => fail (.invalidTarget "testcase data" "a list of rows" v.kindName)

def testCase (again : Reentry) (index : UInt16) (hasRows : Bool) : Run Unit := do
  let name ← name index
  let case ← pop
  let rows ← if hasRows then some <$> pop else pure none
  match (← machine).currentSet with
  | none => failInternal (.caseOutsideSet name)
  | some set =>
    match rows with
    | none => recordCase set name (← attempt (again.call case []))
    | some data => runRows again set name case 0 (← dataRows data)

/-! ## Services -/

/-- The name of scripts that a script builds. -/
def buildName : String := "build"

def build : Run Unit := do
  match ← pop with
  | .string source =>
    match Script.ofSource source buildName with
    | .ok script => modifyMachine fun m => { m with queue := m.queue ++ [script] }
    | .error e => fail (.build e.message)
  | v => fail (.invalidTarget "build" "a string of source code" v.kindName)

def register (index : UInt16) : Run Unit := do
  let name ← name index
  let v ← pop
  modifyMachine fun m => { m with registry := m.registry.insert name v }

def inject (index : UInt16) : Run Unit := do
  let name ← name index
  match (← machine).registry.get? name with
  | some v => push v
  | none => fail (.unregistered name)

end ScriptEngine.Run
