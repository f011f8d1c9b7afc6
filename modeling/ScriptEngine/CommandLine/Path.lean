/-!
# File names

A path is a sequence of parts between slashes. Its file name is the last part,
empty parts and single dots at the end left aside; two dots name no file. The
extension is what follows the last dot of the file name, unless that dot is its
first character.
-/
namespace ScriptEngine.CommandLine.Path

/-- The file name and the parts before it, the last part first. -/
def fileName? : List String → Option (String × List String)
  | [] => none
  | part :: rest =>
    if part = "" ∨ part = "." then fileName? rest
    else if part = ".." then none
    else some (part, rest)

def parts (path : String) : List String := (path.splitOn "/").reverse

/-- What stands before the last dot and after it. -/
def splitName (name : String) : String × Option String :=
  let reversed := name.toList.reverse
  let after := reversed.takeWhile (· ≠ '.')
  match reversed.dropWhile (· ≠ '.') with
  | [] | [_] => (name, none)
  | _ :: before => (String.ofList before.reverse, some (String.ofList after.reverse))

def extension? (path : String) : Option String := do
  let (name, _) ← fileName? (parts path)
  (splitName name).2

def stem? (path : String) : Option String := do
  let (name, _) ← fileName? (parts path)
  return (splitName name).1

/-- The path with another extension; a path without a file name stays as it is. -/
def withExtension (path extension : String) : String :=
  match fileName? (parts path) with
  | some (name, before) =>
    "/".intercalate (((splitName name).1 ++ "." ++ extension) :: before).reverse
  | none => path

end ScriptEngine.CommandLine.Path
