import ScriptEngine.Assembler.Control

/-!
# Carrying out directives

`perform` gives every directive its meaning. `assemble` carries out the steps of
a program in order; the first one that fails decides the error, and a fault of
the grammar comes after all steps before it.
-/
namespace ScriptEngine.Assembler

def defineMany (names : List String) : Assembly Unit := do
  if (← getBody).depth > 0 then
    names.forM fun name => do
      declareLocal name
      complete
  else
    let indices ← names.mapM nameConstant
    indices.reverse.forM fun index => emit (.defineGlobal index)

/-- An instruction that names a member. -/
def emitNamed (make : UInt16 → Instruction) (name : String) : Assembly Unit := do
  emit (make (← nameConstant name))

def note (keyword : String) (line : Nat) : Assembly Unit :=
  modify fun a =>
    let text := "Unreachable code after '" ++ keyword ++ "' in '" ++ a.body.chunk.chain ++
      "' at line " ++ toString line
    { a with diagnostics := a.diagnostics.push text }

def endScript : Assembly Unit := do
  emit .null
  emit (.ret 1)
  let a ← get
  unless a.outer.isEmpty && a.body.control.isEmpty do throw .unbalanced
  set { a with chunks := a.chunks.push a.body.chunk }

def perform : Directive → Assembly Unit
  | .plain i _ => emit i
  | .number n => number n
  | .string s => do emit (.pushConstant (← constant (.string s)))
  | .reserve name => do let _ ← nameConstant name
  | .resolve name => do let _ ← place name
  | .checkStore name => do let _ ← checkStore name
  | .load name => load name
  | .store name => store name
  | .receiver => emit (.getLocal 0)
  | .this => loadThis
  | .checkSuper => checkSuper
  | .getSuper name => emitNamed .getSuper name
  | .superInvoke name argc => emitNamed (.superInvoke · argc) name
  | .getProperty name => emitNamed .getProperty name
  | .invoke name argc => emitNamed (.invoke · argc) name
  | .checkImpure target => checkImpure target
  | .setProperty name => do
    checkImpure "object fields"
    emitNamed .setProperty name
  | .setIndex => do
    checkImpure "indexed elements"
    emit .setIndex
  | .storeField name => do
    emitNamed .setProperty name
    emit .pop
  | .inject name => emitNamed .inject name
  | .register name => emitNamed .register name
  | .beginScope => beginScope
  | .endScope => endScope
  | .declare name => declare name
  | .define name => define name
  | .defineMany names => defineMany names
  | .declareFunction name => do
    declare name
    complete
  | .beginFunction kind name modifiers => beginFunction kind name modifiers
  | .parameter name => parameter name
  | .resultName name => resultName name
  | .storeMatching fields => storeMatching fields
  | .endFunction => endFunction
  | .returnCheck => returnCheck
  | .returnValueCheck => returnValueCheck
  | .implicitReturn => implicitReturn
  | .leaveLoops => leaveLoops
  | .andThen => andThen
  | .orElse => orElse
  | .shortEnd => endJoin
  | .branch => branch
  | .branchElse => branchElse
  | .branchEnd => endJoin
  | .whileStart => whileStart
  | .whileBody => whileBody
  | .whileEnd => endLoop
  | .forStart => forStart
  | .forCondition => forCondition
  | .forStep => forStep
  | .forStepEnd => forStepEnd
  | .forBody => forBody
  | .forEnd => endLoop
  | .loopStart => loopStart
  | .loopEnd => loopEnd
  | .loopCheck keyword => do let _ ← currentLoop keyword
  | .breakLoop => breakLoop
  | .continueLoop => continueLoop
  | .beginType kind name => beginType kind name
  | .inheritFrom parent name => inheritFrom parent name
  | .beginInitChain => beginFunction .initChain "InitChain" {}
  | .endInitChain fields => endInitChain fields
  | .staticMember name => emitNamed .staticMember name
  | .method name => emitNamed .method name
  | .enumValue name => emitNamed .enumValue name
  | .endType => endType
  | .beginTest name => beginTest name
  | .endTest name => endTest name
  | .caseCheck => caseCheck
  | .beginCase name => do
    let _ ← nameConstant name
    beginFunction .function name {}
  | .stepOut => stepOut
  | .stepIn => stepIn
  | .endCase name hasRows => do
    endFunction
    emitNamed (.testCase · hasRows) name
  | .unreachable keyword line => note keyword line
  | .endScript => endScript

def performStep (s : Step) : Assembly Unit := do
  modify fun a => { a with mark := s.mark }
  perform s.directive

def performAll : List Step → Assembly Unit
  | [] => pure ()
  | s :: rest => do
    performStep s
    performAll rest

/-- The state after all steps, or the first error. -/
def assemble (scriptName : String) (steps : List Step) : Except CompileError Assembler :=
  match performAll steps (start scriptName) with
  | .ok _ a => .ok a
  | .error fault a => .error ⟨fault, a.mark, a.body.chunk.chain⟩

end ScriptEngine.Assembler
