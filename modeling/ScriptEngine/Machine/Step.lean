import ScriptEngine.Machine.Arithmetic
import ScriptEngine.Machine.Tests

/-!
# One instruction

`Run.step` carries out one instruction and says whether execution goes on.
-/
namespace ScriptEngine.Run

/-! ## Several results -/

def beginSeveral : Run Unit := do
  let size ← stackSize
  modifyMachine fun m => { m with marks := size :: m.marks }

/-- Ends a region and pushes the number of values that it left. -/
def endSeveral : Run Unit := do
  match (← machine).marks with
  | mark :: rest =>
    modifyMachine fun m => { m with marks := rest }
    push (.ofNat ((← stackSize) - mark))
  | [] => failInternal .noMultiVar

/-- The largest count that is told apart from larger ones. -/
def maxCount : Nat := 2 ^ 64 - 1

def popCount : Run Nat := do
  let v ← pop
  let whole : Option Int := match v with
    | .number x => x.integer?
    | _ => none
  match whole with
  | some (.ofNat n) => return min n maxCount
  | _ => failInternal (.notACount ((← heap).text v))

def validate : Check → Run Unit
  | .multiReturnMatches => do
    let expected ← popCount
    let produced ← popCount
    if expected ≠ produced then fail (.multiReturnMismatch expected produced)

/-! ## The stack -/

def duplicatePair : Run Unit := do
  let below ← peek 1
  let top ← peek 0
  push below
  push top

def swap : Run Unit := do
  let top ← pop
  let below ← pop
  push top
  push below

/-! ## Control -/

def gotoIfFalse (label : UInt16) : Run Unit := do
  if (← peek 0).isFalsy then goto label

def yield : Run Control := do
  if (← machine).hostCalls = 0 then return .exit .yielded else fail .yieldInHostCall

def throwTop {α : Type} : Run α := do fail (.thrown (← pop))

/-- An instruction that leaves control alone. -/
def plain (again : Reentry) : Instruction → Run Unit
  | .pushConstant n => do push (← constant n)
  | .pushByte n => push (.ofNat n.toNat)
  | .pushBool value => push (.bool value)
  | .null => push .null
  | .pop => do let _ ← pop
  | .duplicate => do push (← peek 0)
  | .duplicatePair => duplicatePair
  | .swap => swap
  | .add => binary .add
  | .subtract => binary .subtract
  | .multiply => binary .multiply
  | .divide => binary .divide
  | .modulus => binary .modulus
  | .negate => negate
  | .not => complement
  | .equal => binary .equal
  | .less => binary .less
  | .greater => binary .greater
  | .meets => binary .meets
  | .getLocal slot => getLocal slot
  | .setLocal slot => setLocal slot
  | .getUpvalue index => getCaptured index
  | .setUpvalue index => setCaptured index
  | .defineGlobal name => defineGlobal name
  | .getGlobal name => getGlobal name
  | .setGlobal name => setGlobal name
  | .goto label => goto label
  | .gotoIfFalse label => gotoIfFalse label
  | .call argc => callTop again argc.toNat
  | .invoke name argc => invoke again name argc.toNat
  | .superInvoke name argc => superInvoke name argc.toNat
  | .throw => throwTop
  | .closure n => makeClosure n
  | .capture _ => failInternal .strayCapture
  | .closeUpvalue => closeTop
  | .declareType kind name => declareType kind name
  | .inherit => inherit
  | .mixin => addMixin
  | .signs => addContract
  | .field name => addField name
  | .method name => addMethod name
  | .staticMember name => addStatic name
  | .initChain => addInitChain
  | .enumValue name => addEntry name
  | .finishType => finishType
  | .freeze => restrict "freeze" Flags.freeze
  | .readOnly => restrict "readonly" Flags.lock
  | .getProperty name => getProperty name
  | .setProperty name => setProperty name
  | .getIndex => getIndex
  | .setIndex => setIndex
  | .getSuper name => getSuper name
  | .buildList n => buildList n
  | .buildMap n => buildMap n
  | .newDynamic => newDynamic
  | .multiVarStart => beginSeveral
  | .multiVarEnd => endSeveral
  | .validate check => validate check
  | .testSet name => testSet again name
  | .testCase name hasRows => testCase again name hasRows
  | .build => build
  | .register name => register name
  | .inject name => inject name
  | .ret _ | .yield => return

def step (again : Reentry) (stop : Nat) : Instruction → Run Control
  | .ret count => returnFrom count.toNat stop
  | .yield => yield
  | i => do
    plain again i
    return .next

/-- Fetches an instruction and carries it out; a failure of the latter is located. -/
def cycle (again : Reentry) (stop : Nat) : Run Control := do
  let i ← fetch
  located (step again stop i)

end ScriptEngine.Run
