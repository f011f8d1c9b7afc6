import ScriptEngine.CommandLine.Options
import ScriptEngine.CommandLine.Path
import ScriptEngine.Engine.Basic

/-!
# The command

What the command does, over any system that can read and write files, print and
read lines: it runs files one after the other in one engine, compiles files to
files beside them, or evaluates lines as they come. The first file that fails
ends the command. With tests turned on a report follows, and a test that did
not complete makes the command fail.
-/
namespace ScriptEngine.CommandLine

/-- What the command needs of the world; a failure comes with its reason. -/
structure System (m : Type → Type) where
  readFile : String → m (Except String Stored.Bytes)
  writeFile : String → Stored.Bytes → m (Except String Unit)
  print : String → m Unit
  complain : String → m Unit
  /-- The next line with its end, or none at the end of the input. -/
  readLine : m (Except String (Option String))

def sourceExtension : String := "lumo"

def compiledExtension : String := "lumoc"

def decodeText (bytes : Stored.Bytes) : Except String String :=
  match String.fromUTF8? ⟨bytes.toArray⟩ with
  | some s => .ok s
  | none => .error "stream did not contain valid UTF-8"

section
variable {m : Type → Type} [Monad m] (sys : System m)

abbrev Shell (m : Type → Type) := StateT Engine m

def printLine (text : String) : Shell m Unit := sys.print (text ++ "\n")

def complainLine (text : String) : Shell m Unit := sys.complain (text ++ "\n")

/-- Lets the engine work and prints what the script printed. -/
def perform {α : Type} (x : Hosted α) : Shell m (Except EngineError α) := do
  let (answer, e) := match x (← get) with
    | .ok a e => (Except.ok a, e)
    | .error err e => (Except.error err, e)
  sys.print e.world.machine.output
  set (e.mapMachine fun m => { m with output := "" })
  return answer

def message (e : EngineError) : Shell m String := return e.message (← get).world.heap

def readText (path : String) : Shell m (Except String String) := do
  return (← sys.readFile path) >>= decodeText

def scriptName (path : String) : String := (Path.stem? path).getD "main"

/-! ## Running files -/

/-- Nothing else waits for the engine, so a script that yields goes on at once. -/
def toEnd (fuel : Nat) : Nat → Except EngineError Status →
    Shell m (Except EngineError Unit)
  | _, .error e => return .error e
  | _, .ok .completed => return .ok ()
  | 0, .ok .suspended => return .error .outOfFuel
  | n + 1, .ok .suspended => do toEnd fuel n (← perform sys (Engine.resume fuel))

def startSource (fuel : Nat) (path : String) : Shell m (Except EngineError Status) := do
  match ← readText sys path with
  | .ok source => perform sys (Engine.run fuel source (scriptName path))
  | .error reason => return .error (.unreadable "run_file" path reason)

def runStarted (fuel : Nat) (path : String) (started : Except EngineError Status) :
    Shell m (Except String Unit) := do
  match ← toEnd sys fuel fuel started with
  | .ok () => return .ok ()
  | .error e => return .error s!"Error in '{path}': {← message e}"

def runFile (fuel : Nat) (path : String) : Shell m (Except String Unit) := do
  match Path.extension? path with
  | none =>
    return .error (s!"Error: file '{path}' has no extension " ++
      s!"(expected .{sourceExtension} or .{compiledExtension})")
  | some extension =>
    if extension = sourceExtension then runStarted sys fuel path (← startSource sys fuel path)
    else if extension = compiledExtension then
      match ← sys.readFile path with
      | .ok bytes => runStarted sys fuel path (← perform sys (Engine.runBytes fuel bytes))
      | .error reason => return .error s!"Error reading '{path}': {reason}"
    else return .error s!"Error: unsupported file extension '.{extension}' for '{path}'"

/-! ## Compiling files -/

def writeCompiled (path : String) (bytes : Stored.Bytes) : Shell m (Except String Unit) := do
  let target := Path.withExtension path compiledExtension
  match ← sys.writeFile target bytes with
  | .ok () => do
    printLine sys s!"Compiled '{path}' -> '{target}'"
    return .ok ()
  | .error reason => return .error s!"Error writing '{target}': {reason}"

def compileFile (path : String) : Shell m (Except String Unit) := do
  match ← readText sys path with
  | .error reason => return .error s!"Error reading '{path}': {reason}"
  | .ok source =>
    match Engine.compileToBytes source (scriptName path) with
    | .ok bytes => writeCompiled sys path bytes
    | .error e => return .error s!"Error in '{path}': {← message e}"

/-! ## Lines -/

/-- Runs a line that is no single expression. -/
def runLine (fuel : Nat) (line : String) : Shell m Unit := do
  match ← toEnd sys fuel fuel (← perform sys (Engine.run fuel line "repl")) with
  | .ok () => return
  | .error e => complainLine sys (← message e)

def withoutSemicolon (line : String) : String :=
  match line.toList.reverse with
  | ';' :: rest => String.ofList rest.reverse
  | _ => line

/-- Prints the value of an expression, unless it is null. -/
def evalLine (fuel : Nat) (line : String) : Shell m Unit := do
  match ← perform sys (Engine.eval fuel (withoutSemicolon line)) with
  | .ok .null => return
  | .ok v => printLine sys ((← get).world.heap.text v)
  | .error (.compile _) => runLine sys fuel line
  | .error e => complainLine sys (← message e)

def interact (fuel : Nat) : Nat → Shell m Unit
  | 0 => return
  | n + 1 => do
    sys.print "lumo> "
    match ← sys.readLine with
    | .error reason => complainLine sys s!"Read error: {reason}"
    | .ok none => printLine sys ""
    | .ok (some input) => do
      let line := Text.trim input
      if !line.isEmpty then evalLine sys fuel line
      interact fuel n

/-! ## The whole command -/

/-- Handles files in order; says whether all went well. -/
def eachFile (handle : String → Shell m (Except String Unit)) : List String → Shell m Bool
  | [] => return true
  | path :: rest => do
    match ← handle path with
    | .ok () => eachFile handle rest
    | .error text => do
      complainLine sys text
      return false

def runMode (fuel : Nat) : Mode → Shell m Bool
  | .version => do
    printLine sys version
    return true
  | .help => do
    printLine sys usage
    return true
  | .interactive => do
    printLine sys version
    interact sys fuel fuel
    return true
  | .run files => eachFile sys (runFile sys fuel) files
  | .compile files => eachFile sys (compileFile sys) files

def Mode.isCompile : Mode → Bool
  | compile _ => true
  | _ => false

/-- Prints the test report; says whether all tests completed. -/
def report : Shell m Bool := do
  let tests := (← get).world.machine.tests
  printLine sys tests.report
  return tests.allPassed

def runOptions (fuel : Nat) (o : Options) : Shell m Bool := do
  if ← runMode sys fuel o.mode then
    if o.tests && !o.mode.isCompile then report sys else return true
  else return false

/-- The exit code of the command: 2 for a wrong use, 1 for a failure. -/
def command (fuel : Nat) (args : List String) (setting : Option String) : m UInt32 := do
  match Options.ofArguments args setting with
  | .error e => do
    sys.complain (e.message ++ "\n\n" ++ usage ++ "\n")
    return 2
  | .ok o => do
    let (passed, _) ← (runOptions sys fuel o).run (Engine.new { testsEnabled := o.tests })
    return if passed then 0 else 1

end

end ScriptEngine.CommandLine
