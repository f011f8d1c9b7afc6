import ScriptEngine.CommandLine.Command

/-!
# The program

The command over the files and streams of the operating system.
-/
namespace ScriptEngine.CommandLine

def reason : IO.Error → String
  | .noFileOrDirectory _ _ _ => "No such file or directory (os error 2)"
  | .permissionDenied _ _ _ => "Permission denied (os error 13)"
  | .inappropriateType _ _ _ => "Is a directory (os error 21)"
  | e => toString e

def guarded {α : Type} (x : IO α) : IO (Except String α) := do
  try return .ok (← x) catch e => return .error (reason e)

/-- The next line of the standard input; only the end of the input gives an empty one. -/
def nextLine : IO (Option String) := do
  let line ← (← IO.getStdin).getLine
  return if line.isEmpty then none else some line

def osSystem : System IO where
  readFile path := guarded do return (← IO.FS.readBinFile path).data.toList
  writeFile path bytes := guarded (IO.FS.writeBinFile path ⟨bytes.toArray⟩)
  print text := do
    let out ← IO.getStdout
    out.putStr text
    out.flush
  complain text := do (← IO.getStderr).putStr text
  readLine := guarded nextLine

end ScriptEngine.CommandLine

def main (args : List String) : IO UInt32 := do
  let setting ← IO.getEnv ScriptEngine.CommandLine.testsVariable
  ScriptEngine.CommandLine.command ScriptEngine.CommandLine.osSystem (10 ^ 18) args setting
