import ScriptEngine.Text.Blank

/-!
# Options of the command line

Arguments that begin with a hyphen are options, all others are files. The first
request for the version or the help decides and nothing after it is read; an
unknown option before it is an error. Tests can also be turned on by a variable
of the environment.
-/
namespace ScriptEngine.CommandLine

inductive Mode where
  | version
  | help
  | interactive
  | run (files : List String)
  | compile (files : List String)
  deriving DecidableEq, Repr

structure Options where
  mode : Mode
  tests : Bool := false
  deriving DecidableEq, Repr

inductive UsageError where
  | unknownOption (option : String)
  | nothingToCompile
  deriving DecidableEq, Repr

def UsageError.message : UsageError → String
  | unknownOption option => s!"Error: unknown option '{option}'"
  | nothingToCompile => "Error: --compile needs at least one file"

/-- The variable that turns tests on. -/
def testsVariable : String := "LUMO_TESTS"

/-- Whether the value of a variable means yes. -/
def isYes (value : String) : Bool :=
  ["1", "true", "yes", "on"].contains ((Text.trim value).map Char.toLower)

/-- What the arguments read so far ask for. -/
structure Request where
  tests : Bool
  compile : Bool := false
  files : List String := []

def Request.options (r : Request) : Except UsageError Options :=
  match r.compile, r.files with
  | true, [] => .error .nothingToCompile
  | true, files => .ok ⟨.compile files, r.tests⟩
  | false, [] => .ok ⟨.interactive, r.tests⟩
  | false, files => .ok ⟨.run files, r.tests⟩

def Request.read (r : Request) : List String → Except UsageError Options
  | [] => r.options
  | arg :: rest =>
    if arg = "--version" ∨ arg = "-v" then .ok { mode := .version }
    else if arg = "--help" ∨ arg = "-h" then .ok { mode := .help }
    else if arg = "--test" ∨ arg = "-t" then { r with tests := true }.read rest
    else if arg = "--compile" ∨ arg = "-c" then { r with compile := true }.read rest
    else if arg.toList.head? = some '-' then .error (.unknownOption arg)
    else { r with files := r.files ++ [arg] }.read rest

/-- The options that arguments and the value of the variable stand for. -/
def Options.ofArguments (args : List String) (setting : Option String) :
    Except UsageError Options :=
  ({ tests := setting.any isYes } : Request).read args

def usage : String :=
  "\n".intercalate [
    "Usage: lumo [OPTIONS] [FILES...]",
    "",
    "With no files, starts an interactive session.",
    "",
    "Options:",
    "  -t, --test      Run test blocks and print a report",
    "  -c, --compile   Compile each .lumo file to a .lumoc file",
    "  -v, --version   Print the version",
    "  -h, --help      Print this help",
    "",
    "Environment:",
    "  LUMO_TESTS      Set to 1 to run test blocks",
    "  RUST_LOG        Log level (error, warn, info, debug, trace)"]

def version : String := "Lumo v0.1.0"

end ScriptEngine.CommandLine
