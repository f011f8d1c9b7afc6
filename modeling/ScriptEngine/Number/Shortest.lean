/-!
# The fewest decimal digits that read back

A positive number `m * 2 ^ q` stands for the interval of reals that round to it;
the ends belong to it when `m` is even. For one digit, two digits and so on the
two neighbours of the number on that decimal grid are tried, and the first grid
with a neighbour inside the interval wins, the nearer of two. An exact tie goes
up. All is exact arithmetic over natural numbers.
-/
namespace ScriptEngine.Shortest

/-- A decimal `digits * 10 ^ exponent`. -/
structure Decimal where
  digits : Nat
  exponent : Int
  deriving DecidableEq, Repr

/-- The reals that round to a number, over one denominator. -/
structure Interval where
  low : Nat
  value : Nat
  high : Nat
  den : Nat
  closed : Bool

/-- Below a power of two the neighbours are closer, except in the lowest binade. -/
def interval (m : Nat) (q : Int) : Interval :=
  let up := q.toNat
  let down := (-q).toNat
  let below := if m = 2 ^ 52 && decide (-1074 < q) then 1 else 2
  { low := (4 * m - below) <<< up
    value := (4 * m) <<< up
    high := (4 * m + 2) <<< up
    den := 4 <<< down
    closed := m % 2 == 0 }

/-- Whether `n * 10 ^ k` lies in the interval. -/
def Interval.holds (i : Interval) (n : Nat) (k : Int) : Bool :=
  let x := n * 10 ^ k.toNat * i.den
  let grid := 10 ^ (-k).toNat
  if i.closed then decide (i.low * grid ≤ x) && decide (x ≤ i.high * grid)
  else decide (i.low * grid < x) && decide (x < i.high * grid)

/-- How many of `den`, `10 * den`, `100 * den`, … lie at or below `num`. -/
def powersBelow (num den : Nat) : Nat → Nat
  | 0 => 0
  | n + 1 => if den ≤ num then powersBelow num (den * 10) n + 1 else 0

/-- How many factors of ten bring `num` to `den`. -/
def powersToReach (num den : Nat) : Nat → Nat
  | 0 => 0
  | n + 1 => if den ≤ num then 0 else powersToReach (num * 10) den n + 1

/-- The exponent of the leading decimal digit of a positive quotient. -/
def leadingExponent (num den : Nat) : Int :=
  if den ≤ num then (powersBelow num den 310 : Int) - 1
  else -(powersToReach num den 330 : Int)

/-- The neighbour of the number on the grid of `10 ^ k` that reads back, if any. -/
def onGrid (i : Interval) (k : Int) : Option Nat :=
  let num := i.value * 10 ^ (-k).toNat
  let den := i.den * 10 ^ k.toNat
  let n := num / den
  match i.holds n k, i.holds (n + 1) k with
  | true, true => some (if 2 * (num % den) < den then n else n + 1)
  | true, false => some n
  | false, true => some (n + 1)
  | false, false => none

/-- Takes zeros off the end: a neighbour above may have carried into a new digit. -/
def Decimal.trim (d : Decimal) : Nat → Decimal
  | 0 => d
  | more + 1 =>
    if d.digits ≠ 0 ∧ d.digits % 10 = 0 then trim ⟨d.digits / 10, d.exponent + 1⟩ more else d

def search (i : Interval) (k : Int) : Nat → Decimal
  | 0 => ⟨i.value / i.den, 0⟩
  | more + 1 => match onGrid i k with
    | some n => ⟨n, k⟩
    | none => search i (k - 1) more

def decimal (m : Nat) (q : Int) : Decimal :=
  let i := interval m q
  (search i (leadingExponent i.value i.den) 18).trim 18

example : decimal 1 (-1074) = ⟨5, -324⟩ := by decide +kernel
example : decimal 2 (-1074) = ⟨1, -323⟩ := by decide +kernel
example : decimal (2 ^ 52) (-52) = ⟨1, 0⟩ := by decide +kernel

end ScriptEngine.Shortest
