import ScriptEngine.Number.Text
import ScriptEngine.Value.Heap

/-!
# The text of a value

What a script sees when it prints a value. Lists and maps show what they hold,
the entries of a map in the order of their texts; other things show a name
between angle brackets. A list or map that holds itself has no text, so the
depth is bounded by the number of things that can hold others.
-/
namespace ScriptEngine.Heap

def bracketed (parts : List String) : String := "[" ++ ", ".intercalate parts ++ "]"

def sorted (parts : List String) : List String := parts.mergeSort fun a b => decide (a ≤ b)

def keyText : MapKey → String
  | .null => "null"
  | .bool b => toString b
  | .number bits => Number.text ⟨bits⟩
  | .string s => s

def mapText (entries : List (MapKey × String)) : String :=
  if entries.isEmpty then "[:]"
  else bracketed (sorted (entries.map fun (k, v) => keyText k ++ ": " ++ v))

def objectText (h : Heap) (o : Object) : String :=
  match o.fromType with
  | some t => s!"<inst {(h.userType t).name}>"
  | none => "<inst dynamic>"

def textWithin (h : Heap) : Nat → Value → String
  | _, .null => "null"
  | _, .bool b => toString b
  | _, .number x => x.text
  | _, .string s => s
  | _, .chunk id => s!"<chunk {(h.chunk id).name}>"
  | _, .closure ref => s!"<closure {(h.code ref).name}>"
  | _, .userType ref => s!"<{(h.userType ref).kind.name} {(h.userType ref).name}>"
  | _, .object ref => h.objectText (h.object ref)
  | _, .native _ name => s!"<native {name}>"
  | _, .combined ref => s!"<combined {(h.combination ref).length}>"
  | 0, .bound _ | 0, .list _ | 0, .map _ => ""
  | fuel + 1, .bound ref => s!"<bound {h.textWithin fuel (h.boundMethod ref).method}>"
  | fuel + 1, .list ref => bracketed ((h.list ref).toList.map (h.textWithin fuel))
  | fuel + 1, .map ref => mapText ((h.map ref).toList.map fun (k, v) => (k, h.textWithin fuel v))

/-- The number of things that can hold values whose text shows. -/
def depth (h : Heap) : Nat := h.lists.size + h.maps.size + h.bounds.size

def text (h : Heap) (v : Value) : String := h.textWithin (h.depth + 1) v

end ScriptEngine.Heap
