import ScriptEngine.Assembler.Functions

/-!
# Control structures

Each directive that opens a structure allocates its labels, those that divide it
emit the jumps, and the one that closes it places what is left. A structure that
is open is on top of the control stack of its function.
-/
namespace ScriptEngine.Assembler

def pushControl (c : Control) : Assembly Unit :=
  modifyBody fun b => { b with control := c :: b.control }

def popControl : Assembly Control := do
  match (← getBody).control with
  | c :: rest =>
    modifyBody fun b => { b with control := rest }
    return c
  | [] => throw .unbalanced

def popJoin : Assembly UInt16 := do
  match ← popControl with
  | .join label => return label
  | _ => throw .unbalanced

def popLoop : Assembly Loop := do
  match ← popControl with
  | .loop l => return l
  | _ => throw .unbalanced

/-! ## Short circuits and alternatives -/

def andThen : Assembly Unit := do
  let finish ← newLabel "and_end"
  emit (.gotoIfFalse finish)
  emit .pop
  pushControl (.join finish)

def orElse : Assembly Unit := do
  let right ← newLabel "or_rhs"
  let finish ← newLabel "or_end"
  emit (.gotoIfFalse right)
  emit (.goto finish)
  placeLabel right
  emit .pop
  pushControl (.join finish)

def endJoin : Assembly Unit := do
  placeLabel (← popJoin)

def branch : Assembly Unit := do
  let otherwise ← newLabel "if_else"
  let finish ← newLabel "if_end"
  emit (.gotoIfFalse otherwise)
  emit .pop
  pushControl (.branch otherwise finish)

def branchElse : Assembly Unit := do
  match ← popControl with
  | .branch otherwise finish =>
    emit (.goto finish)
    placeLabel otherwise
    emit .pop
    pushControl (.join finish)
  | _ => throw .unbalanced

/-! ## Loops -/

def whileStart : Assembly Unit := do
  let start ← newLabel "while_start"
  let fail ← newLabel "while_fail"
  let exit ← newLabel "while_exit"
  placeLabel start
  let depth := (← getBody).depth
  pushControl (.loop { start, exit, next := start, fail := some fail, depth })

/-- Leaves the loop when the condition on the stack does not hold. -/
def whileBody : Assembly Unit := do
  let l ← popLoop
  match l.fail with
  | some fail =>
    emit (.gotoIfFalse fail)
    emit .pop
    pushControl (.loop l)
  | none => throw .unbalanced

def placeFail (l : Loop) : Assembly Unit := do
  match l.fail with
  | some fail =>
    placeLabel fail
    emit .pop
  | none => return ()

def endLoop : Assembly Unit := do
  let l ← popLoop
  emit (.goto l.next)
  placeFail l
  placeLabel l.exit

def forStart : Assembly Unit := do
  let start ← newLabel "for_start"
  let body ← newLabel "for_body"
  let exit ← newLabel "for_exit"
  placeLabel start
  let depth := (← getBody).depth
  pushControl (.loop { start, exit, next := start, body := some body, depth })

def forCondition : Assembly Unit := do
  let l ← popLoop
  let fail ← newLabel "for_fail"
  emit (.gotoIfFalse fail)
  emit .pop
  pushControl (.loop { l with fail := some fail })

/-- The step stands ahead of the body in the code and is run behind it. -/
def forStep : Assembly Unit := do
  let l ← popLoop
  match l.body with
  | some body =>
    emit (.goto body)
    let step ← newLabel "for_step"
    placeLabel step
    pushControl (.loop { l with next := step })
  | none => throw .unbalanced

def forStepEnd : Assembly Unit := do
  let l ← popLoop
  emit .pop
  emit (.goto l.start)
  pushControl (.loop l)

def forBody : Assembly Unit := do
  let l ← popLoop
  match l.body with
  | some body =>
    placeLabel body
    pushControl (.loop l)
  | none => throw .unbalanced

def loopStart : Assembly Unit := do
  let start ← newLabel "loop_start"
  let exit ← newLabel "loop_exit"
  placeLabel start
  let depth := (← getBody).depth
  pushControl (.loop { start, exit, next := start, depth })

/-- A loop without a condition must have a way out. -/
def loopEnd : Assembly Unit := do
  let l ← popLoop
  unless l.leaves do throw .endlessLoop
  emit (.goto l.next)
  placeLabel l.exit

/-! ## Leaving loops -/

def innermostLoop? : List Control → Option Loop
  | [] => none
  | .loop l :: _ => some l
  | _ :: rest => innermostLoop? rest

def Control.leave : Control → Control
  | .loop l => .loop { l with leaves := true }
  | c => c

/-- Notes that the innermost loop is left. -/
def leaveInnermost : List Control → List Control
  | [] => []
  | .loop l :: rest => .loop { l with leaves := true } :: rest
  | c :: rest => c :: leaveInnermost rest

def leaveLoops : Assembly Unit :=
  modifyBody fun b => { b with control := b.control.map Control.leave }

def currentLoop (keyword : String) : Assembly Loop := do
  match innermostLoop? (← getBody).control with
  | some l => return l
  | none => throw (.outsideLoop keyword)

def breakLoop : Assembly Unit := do
  let l ← currentLoop "break"
  emitDrops l.depth
  emit (.goto l.exit)
  modifyBody fun b => { b with control := leaveInnermost b.control }

def continueLoop : Assembly Unit := do
  let l ← currentLoop "continue"
  emitDrops l.depth
  emit (.goto l.next)

/-- A return leaves every loop of its function. -/
def returnCheck : Assembly Unit := do
  if (← getBody).chunk.kind = .script then throw .topLevelReturn
  leaveLoops

def returnValueCheck : Assembly Unit := do
  if (← getBody).chunk.kind = .init then throw .valueFromInit

end ScriptEngine.Assembler
