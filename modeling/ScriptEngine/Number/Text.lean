import ScriptEngine.Number.Rounding
import ScriptEngine.Number.Shortest

/-!
# The written form of numbers

A number is written without an exponent. An integer below `10 ^ 15` in
magnitude is written as that integer, so that negative zero reads `0`; any other
finite number has the fewest digits that read back.
-/
namespace ScriptEngine.Number

/-- The words for the numbers that have no digits. -/
structure Layout where
  notANumber : String
  infinite : String
  wholeBelow : Nat

def layout : Layout := ⟨"NaN", "inf", 10 ^ 15⟩

/-- A decimal with a point where it is needed and no exponent. -/
def positional (d : Shortest.Decimal) : String :=
  let digits := (Nat.toDigits 10 d.digits)
  if 0 ≤ d.exponent then
    String.ofList (digits ++ List.replicate d.exponent.toNat '0')
  else
    let places := (-d.exponent).toNat
    let padded := List.replicate (places + 1 - digits.length) '0' ++ digits
    let whole := padded.length - places
    String.ofList (padded.take whole ++ '.' :: padded.drop whole)

/-- The text of a number by its digits alone. -/
def digitsText (x : Number) : String :=
  let sign := if x.negative then "-" else ""
  if x.isNaN then layout.notANumber
  else if x.isInfinite then sign ++ layout.infinite
  else if x.isZero then sign ++ "0"
  else sign ++ positional (Shortest.decimal x.significand x.scale)

def text (x : Number) : String :=
  match x.integer? with
  | some n => if n.natAbs < layout.wholeBelow then toString n else x.digitsText
  | none => x.digitsText

end ScriptEngine.Number
