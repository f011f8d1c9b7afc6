/-!
# Numbers as binary64 words

A number of the language is its 64-bit pattern, so that two not-a-number
patterns stay apart and a constant keeps every bit. The fields of the word give
a finite number as `significand * 2 ^ scale` over exact integers; `integer?`
reads off the integer it is equal to, if any.

Sums, products and quotients are those of binary64. A not-a-number operand is
passed on, the left one first; an operation without a value gives `undefined`.
-/
namespace ScriptEngine

-- Powers are those of the core library, whatever else is in view.
attribute [instance (2000), default_instance (20000)] instPowNat

structure Number where
  bits : UInt64
  deriving DecidableEq, Repr, Inhabited

namespace Number

def negative (x : Number) : Bool := x.bits >>> 63 == 1

def exponentField (x : Number) : Nat := ((x.bits >>> 52) &&& 0x7FF).toNat

def fraction (x : Number) : Nat := (x.bits &&& 0xFFFFFFFFFFFFF).toNat

def isNaN (x : Number) : Bool := x.exponentField == 0x7FF && x.fraction != 0

def isInfinite (x : Number) : Bool := x.exponentField == 0x7FF && x.fraction == 0

def isFinite (x : Number) : Bool := x.exponentField != 0x7FF

/-- The leading bit is hidden except in the lowest binade. -/
def significand (x : Number) : Nat :=
  if x.exponentField = 0 then x.fraction else x.fraction + 2 ^ 52

def scale (x : Number) : Int := (max x.exponentField 1 : Nat) - 1075

def isZero (x : Number) : Bool := x.isFinite && x.significand == 0

def zero : Number := ⟨0⟩

def signed (negative : Bool) (magnitude : UInt64) : Number :=
  ⟨if negative then magnitude ||| 0x8000000000000000 else magnitude⟩

def infinity (negative : Bool) : Number := signed negative 0x7FF0000000000000

/-- What an operation without a value gives. -/
def undefined : Number := ⟨0xFFF8000000000000⟩

/-- The not-a-number that a host hands in when it has no pattern in mind. -/
def nan : Number := ⟨0x7FF8000000000000⟩

def quiet (x : Number) : Number := ⟨x.bits ||| 0x8000000000000⟩

/-- The integer that a finite number without a fraction is equal to. -/
def integer? (x : Number) : Option Int :=
  if x.isFinite then
    let magnitude : Option Nat :=
      if 0 ≤ x.scale then some (x.significand <<< x.scale.toNat)
      else if x.significand % 2 ^ (-x.scale).toNat = 0 then
        some (x.significand >>> (-x.scale).toNat)
      else none
    magnitude.map fun m => if x.negative then -(m : Int) else m
  else none

/-! ## Arithmetic -/

def toFloat (x : Number) : Float := Float.ofBits x.bits

def ofFloat (f : Float) : Number := if f.isNaN then undefined else ⟨f.toBits⟩

def lift (op : Float → Float → Float) (x y : Number) : Number :=
  if x.isNaN then x.quiet
  else if y.isNaN then y.quiet
  else ofFloat (op x.toFloat y.toFloat)

def add : Number → Number → Number := lift (· + ·)

def sub : Number → Number → Number := lift (· - ·)

def mul : Number → Number → Number := lift (· * ·)

def div : Number → Number → Number := lift (· / ·)

def neg (x : Number) : Number := ⟨x.bits ^^^ 0x8000000000000000⟩

/-- The bits without the sign; they order numbers of one sign. -/
def magnitude (x : Number) : UInt64 := x.bits &&& 0x7FFFFFFFFFFFFFFF

/-- Equality of the values: the two zeros are equal, a not-a-number equals nothing. -/
def equal (x y : Number) : Bool :=
  !x.isNaN && !y.isNaN && x.magnitude == y.magnitude &&
    (x.negative == y.negative || x.magnitude == 0)

def less (x y : Number) : Bool :=
  !x.isNaN && !y.isNaN &&
    match x.negative, y.negative with
    | false, false => decide (x.magnitude < y.magnitude)
    | true, true => decide (y.magnitude < x.magnitude)
    | true, false => x.magnitude != 0 || y.magnitude != 0
    | false, true => false

theorem neg_neg (x : Number) : x.neg.neg = x := by
  cases x; simp only [neg, UInt64.xor_assoc, UInt64.xor_self, UInt64.xor_zero]

end Number

end ScriptEngine
