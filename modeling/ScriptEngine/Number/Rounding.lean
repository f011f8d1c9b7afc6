import ScriptEngine.Number.Basic

/-!
# Rounding exact quotients to a binary format

`BinaryFormat.nearest` takes a quotient of natural numbers to the nearest number
of a format, a tie going to the even significand. Reading a decimal, converting
an integer, narrowing to 32 bits and the remainder of a division all come down
to it, since each has an exact rational value.
-/
namespace ScriptEngine

/-- Numbers `m * 2 ^ e` with `m < 2 ^ precision` and `minScale ≤ e ≤ maxScale`. -/
structure BinaryFormat where
  precision : Nat
  minScale : Int
  maxScale : Int

namespace BinaryFormat

def double : BinaryFormat := ⟨53, -1074, 971⟩

def single : BinaryFormat := ⟨24, -149, 104⟩

/-- The quotient `num / (den * 2 ^ e)` as numerator and denominator. -/
def scaled (num den : Nat) (e : Int) : Nat × Nat :=
  (num <<< (-e).toNat, den <<< e.toNat)

/-- Quotient rounded to the nearest integer, a tie to the even one. -/
def roundHalfEven (num den : Nat) : Nat :=
  let q := num / den
  let r := num % den
  if den < 2 * r || (2 * r == den && q % 2 == 1) then q + 1 else q

/-- The scale at which a positive quotient has `precision` significant bits. -/
def scaleFor (f : BinaryFormat) (num den : Nat) : Int :=
  let e : Int := (Nat.log2 num : Int) - Nat.log2 den - f.precision
  let s := scaled num den e
  max f.minScale (if s.1 / s.2 < 2 ^ f.precision then e else e + 1)

/-- Significand and scale of the nearest number, none beyond the largest one. -/
def nearest (f : BinaryFormat) (num den : Nat) : Option (Nat × Int) :=
  let e := f.scaleFor num den
  let s := scaled num den e
  let m := roundHalfEven s.1 s.2
  let (m, e) := if m < 2 ^ f.precision then (m, e) else (m / 2, e + 1)
  if e ≤ f.maxScale then some (m, e) else none

end BinaryFormat

namespace Number

/-- The word of `m * 2 ^ e`, for `m < 2 ^ 53` and a scale within the format. -/
def compose (negative : Bool) (m : Nat) (e : Int) : Number :=
  if m = 0 then signed negative 0
  else
    let shift := min (52 - Nat.log2 m) (e + 1074).toNat
    let m := m <<< shift
    let field := (e - shift + 1075).toNat
    signed negative (UInt64.ofNat (if m < 2 ^ 52 then m else (field - 1) <<< 52 + m))

def roundTo (f : BinaryFormat) (negative : Bool) (num den : Nat) : Number :=
  if num = 0 then signed negative 0
  else match f.nearest num den with
    | some (m, e) => compose negative m e
    | none => infinity negative

def ofNat (n : Nat) : Number := roundTo .double false n 1

def ofInt (n : Int) : Number := roundTo .double (n < 0) n.natAbs 1

/-- The decimal `digits / 10 ^ places`. -/
def ofDecimal (digits places : Nat) : Number := roundTo .double false digits (10 ^ places)

/-- The nearest 32-bit number, as the 64-bit number of the same value. -/
def narrow (x : Number) : Number :=
  if x.isFinite then
    roundTo .single x.negative (x.significand <<< x.scale.toNat) (1 <<< (-x.scale).toNat)
  else x

/-- The remainder of the division that truncates, with the sign of the dividend. -/
def rem (x y : Number) : Number :=
  if x.isNaN then x.quiet
  else if y.isNaN then y.quiet
  else if x.isInfinite || y.isZero then undefined
  else if y.isInfinite then x
  else
    let e := min x.scale y.scale
    let r := (x.significand <<< (x.scale - e).toNat) % (y.significand <<< (y.scale - e).toNat)
    roundTo .double x.negative (r <<< e.toNat) (1 <<< (-e).toNat)

example : ofNat 1 = ⟨0x3FF0000000000000⟩ := by decide +kernel
example : ofDecimal 1 1 = ⟨0x3FB999999999999A⟩ := by decide +kernel
example : ofNat (2 ^ 53 + 1) = ofNat (2 ^ 53) := by decide +kernel
example : ofNat (2 ^ 53 + 3) = ofNat (2 ^ 53 + 4) := by decide +kernel
example : ofNat (10 ^ 400) = infinity false := by decide +kernel
example : rem (ofInt (-7)) (ofNat 3) = ofInt (-1) := by decide +kernel
example : rem (ofDecimal 55 1) (ofNat 2) = ofDecimal 15 1 := by decide +kernel

end Number

end ScriptEngine
