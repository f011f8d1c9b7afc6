import ScriptEngine.Text.Ranges

/-!
# Blank characters

The characters with the Unicode property White_Space.
-/
namespace ScriptEngine.Text

def blankRanges : Ranges := [
  (9, 13), (32, 32), (133, 133), (160, 160), (5760, 5760), (8192, 8202), (8232, 8233),
   (8239, 8239), (8287, 8287), (12288, 12288)]

example : blankRanges.isIncreasing = true := by decide

def isBlank (c : Char) : Bool := blankRanges.has c

/-- The text without blank characters at its ends. -/
def trim (s : String) : String :=
  String.ofList ((s.toList.dropWhile isBlank).reverse.dropWhile isBlank).reverse

example : [' ', '\t', '\n', '\r'].all isBlank = true := by decide

end ScriptEngine.Text
