/-!
# Sets of characters given by ranges

A table lists the closed ranges of code points of a character property, in
increasing order. Membership is a scan of the table.
-/
namespace ScriptEngine.Text

abbrev Ranges := List (Nat × Nat)

def Ranges.has (table : Ranges) (c : Char) : Bool :=
  table.any fun (first, last) => decide (first ≤ c.toNat) && decide (c.toNat ≤ last)

/-- No range is empty, and a gap lies before the next one. -/
def Ranges.isIncreasing : Ranges → Bool
  | [] => true
  | [(first, last)] => decide (first ≤ last)
  | (first, last) :: (next, stop) :: rest =>
    decide (first ≤ last) && decide (last + 1 < next) && Ranges.isIncreasing ((next, stop) :: rest)

end ScriptEngine.Text
