import ScriptEngine.Engine.Convert
import ScriptEngine.Proofs.Rounding

/-!
# Host integers as numbers

A host integer is made the nearest number, and a number is read back as the integer that
it is equal to, where that lies within the bounds of the type. So what is read is never
another value than that of the number; and what was made of an integer of at most 2 ^ 53
is that integer again.

One step beyond, the number is 2 ^ 53 already, and it lies within the bounds for signed
64-bit integers: the two integers next to them come back as other integers.
-/
namespace ScriptEngine

namespace Number

/-! ## Reading an integer off a number -/

/-- Shifting a significand by its scale gives the whole number that it stands for, if any. -/
theorem shifted_eq_some_iff {significand m : Nat} {e : ℤ} :
    (if 0 ≤ e then some (significand <<< e.toNat)
      else if significand % 2 ^ (-e).toNat = 0 then some (significand >>> (-e).toNat) else none) = some m ↔
      (significand * 2 ^ e : ℚ) = m := by
  rcases le_or_gt 0 e with up | down
  · obtain ⟨d, rfl⟩ := Int.eq_ofNat_of_zero_le up
    rw [if_pos up, Int.toNat_natCast, Nat.shiftLeft_eq, zpow_natCast, Option.some_inj]
    norm_cast
  · obtain ⟨d, rfl⟩ : ∃ d : Nat, e = -d := ⟨e.natAbs, by omega⟩
    have power : (0 : ℚ) < 2 ^ d := by positivity
    rw [if_neg (by omega), Int.neg_neg, Int.toNat_natCast, Nat.shiftRight_eq_div_pow, zpow_neg, zpow_natCast,
      ← div_eq_mul_inv, div_eq_iff power.ne']
    norm_cast
    constructor
    · intro whole
      split at whole
      next multiple =>
        cases whole
        exact (Nat.div_mul_cancel (Nat.dvd_of_mod_eq_zero multiple)).symm
      next => cases whole
    · rintro rfl
      rw [Nat.mul_mod_left, if_pos rfl, Nat.mul_div_cancel _ (Nat.two_pow_pos d)]

/-- The integer that is read is the value, and every value that is an integer is read. -/
theorem integer?_eq_some_iff {x : Number} {i : ℤ} : x.integer? = some i ↔ x.isFinite = true ∧ x.value = i := by
  by_cases finite : x.isFinite = true
  swap
  · unfold integer?
    rw [if_neg finite]
    simp [finite]
  have read : x.integer? = some i ↔ ∃ m : Nat, (x.significand * (2 : ℚ) ^ x.scale = m) ∧ sign x.negative * m = i := by
    unfold integer?
    rw [if_pos finite]
    simp only [Option.map_eq_some_iff, Option.bind_eq_bind, Option.bind_eq_some_iff, Option.pure_def, Option.some_inj,
      shifted_eq_some_iff]
    constructor
    · rintro ⟨-, ⟨m, same, rfl⟩, rfl⟩
      exact ⟨m, same, by cases x.negative <;> simp [sign]⟩
    · rintro ⟨m, same, rfl⟩
      exact ⟨m, ⟨m, same, rfl⟩, by cases x.negative <;> simp [sign]⟩
  rw [read, value_eq]
  constructor
  · rintro ⟨m, same, rfl⟩
    exact ⟨finite, by rw [same]; push_cast; rfl⟩
  · rintro ⟨-, same⟩
    have size : x.significand * (2 : ℚ) ^ x.scale = (sign x.negative * i : ℤ) := by
      push_cast
      rw [← same, ← mul_assoc, ← Int.cast_mul, sign_mul_sign, Int.cast_one, one_mul]
    have nonneg : 0 ≤ sign x.negative * i := by
      have : (0 : ℚ) ≤ x.significand * (2 : ℚ) ^ x.scale := by positivity
      rw [size] at this
      exact_mod_cast this
    obtain ⟨m, whole⟩ := Int.eq_ofNat_of_zero_le nonneg
    refine ⟨m, by rw [size, whole]; rfl, ?_⟩
    rw [← whole, ← mul_assoc, sign_mul_sign, one_mul]

/-! ## The number that an integer is made -/

theorem ofNat_eq_ofInt (k : Nat) : ofNat k = ofInt k := by
  unfold ofNat ofInt
  rw [decide_eq_false (by omega), Int.natAbs_natCast]

/-- Integers of at most 53 bits, and the next power of two, keep their value. -/
theorem value_ofInt {n : ℤ} (small : n.natAbs ≤ 2 ^ 53) : (ofInt n).value = n := by
  have signed := sign_mul_natAbs n
  unfold ofInt
  generalize decide (n < 0) = negative, n.natAbs = k at *
  rw [← signed]
  rcases Nat.eq_zero_or_pos k with rfl | pos
  · have zero : (roundTo .double negative 0 1).significand = 0 := by cases negative <;> decide +kernel
    rw [value_eq, zero]
    simp
  rcases Nat.lt_or_eq_of_le small with less | rfl
  · have few : Nat.log2 k < 53 := (Nat.log2_lt pos.ne').mpr less
    rw [(roundTo_small (Nat.log2_self_le pos.ne') Nat.lt_log2_self negative (by omega)).2]
    push_cast
    rfl
  · rw [(roundTo_large (Nat.le_refl (2 ^ 53)) (by decide) negative (show 53 = 1 + 52 from rfl) (by decide)).2.1,
      show BinaryFormat.roundHalfEven (2 ^ 53) (2 ^ 1) = 2 ^ 52 by decide +kernel]
    push_cast
    ring

/-- The integers next to 2 ^ 53 and its opposite are made these numbers. -/
theorem value_ofInt_edge {n : ℤ} (edge : n.natAbs = 2 ^ 53 + 1) :
    (ofInt n).value = (max (-2 ^ 53) (min (2 ^ 53) n) : ℤ) := by
  have signed : sign (decide (n < 0)) * 2 ^ 53 = max (-2 ^ 53) (min (2 ^ 53) n) := by
    have := sign_mul_natAbs n
    unfold sign at this ⊢
    split at this <;> simp_all <;> omega
  unfold ofInt
  rw [← signed, edge, (roundTo_large (show 2 ^ 53 ≤ 2 ^ 53 + 1 by decide) (by decide) _ (show 53 = 1 + 52 from rfl)
      (by decide)).2.1, show BinaryFormat.roundHalfEven (2 ^ 53 + 1) (2 ^ 1) = 2 ^ 52 by decide +kernel]
  push_cast
  ring

/-- All others are made numbers beyond 2 ^ 53. -/
theorem value_ofInt_large {n i : ℤ} (large : 2 ^ 53 + 1 < n.natAbs) (bound : Nat.log2 n.natAbs ≤ 1022)
    (value : (ofInt n).value = i) : 2 ^ 53 < i.natAbs := by
  suffices beyond : (2 : ℚ) ^ 53 < |(ofInt n).value| by
    rw [value, ← Int.cast_abs, Int.abs_eq_natAbs] at beyond
    exact_mod_cast beyond
  clear value
  unfold ofInt
  generalize decide (n < 0) = negative, n.natAbs = k at *
  have nonzero : k ≠ 0 := by omega
  have many : 53 ≤ Nat.log2 k := (Nat.le_log2 nonzero).mpr (by omega)
  obtain ⟨s, log⟩ : ∃ s, Nat.log2 k = s + 1 + 52 := ⟨Nat.log2 k - 53, by omega⟩
  have low := Nat.log2_self_le nonzero
  have value := (roundTo_large low Nat.lt_log2_self negative log bound).2.1
  have least := le_roundHalfEven k (2 ^ (s + 1))
  rw [value, abs_sign_mul, abs_of_nonneg (by positivity)]
  have beyond : 2 ^ 53 < BinaryFormat.roundHalfEven k (2 ^ (s + 1)) * 2 ^ (s + 1) := by
    cases s with
    | zero => omega
    | succ s =>
      rw [log, Nat.pow_add, Nat.mul_comm, ← Nat.le_div_iff_mul_le (Nat.two_pow_pos _)] at low
      calc 2 ^ 53 < 2 ^ 52 * 2 ^ (1 + 1) := by decide
        _ ≤ BinaryFormat.roundHalfEven k (2 ^ (s + 1 + 1)) * 2 ^ (s + 1 + 1) :=
          Nat.mul_le_mul (low.trans least) (Nat.pow_le_pow_right (by decide) (by omega))
  exact_mod_cast beyond

end Number

/-! ## Between the host and the script -/

namespace Convert

open Number

/-- What an integer comes to when it is made a value and read back. -/
def roundTrip {ι : Type} [ToValue ι] [OfValue ι] (n : ι) (h : Heap) : Except EngineError ι :=
  ofValue (toValue n h).2 (toValue n h).1

/-- Every host integer is made the nearest number. -/
def WritesNearest (ι : Type) [ToValue ι] (integer : ι → ℤ) : Prop :=
  ∀ (n : ι) (h : Heap), ∃ x : Number, toValue n h = (.number x, h) ∧ x.Nearest (integer n)

/-- Just the numbers that are equal to an integer within the bounds are read, as that integer. -/
def ReadsEqual (ι : Type) [OfValue ι] (integer : ι → ℤ) (low high : ℤ) : Prop :=
  ∀ (h : Heap) (v : Value) (n : ι), (ofValue h v : Except EngineError ι) = .ok n ↔
    ∃ x : Number, v = .number x ∧ x.isFinite = true ∧ x.value = integer n ∧ low ≤ integer n ∧ integer n ≤ high

theorem integerOf_number (expected : String) (low high : ℤ) (x : Number) :
    integerOf expected low high (.number x) =
      match x.integer? with
      | some n => if low ≤ n ∧ n ≤ high then .ok n else .error (EngineError.type expected x.text)
      | none => .error (EngineError.type expected x.text) := rfl

theorem integerOf_eq_ok_iff {expected : String} {low high n : ℤ} {v : Value} :
    integerOf expected low high v = .ok n ↔
      ∃ x : Number, v = .number x ∧ x.isFinite = true ∧ x.value = n ∧ low ≤ n ∧ n ≤ high := by
  constructor
  · intro read
    cases v with
    | number x =>
      rw [integerOf_number] at read
      split at read
      next i whole =>
        split at read
        next within =>
          cases read
          obtain ⟨finite, value⟩ := integer?_eq_some_iff.mp whole
          exact ⟨x, rfl, finite, value, within⟩
        next => cases read
      next => cases read
    | _ => cases read
  · rintro ⟨x, rfl, finite, value, within⟩
    rw [integerOf_number, integer?_eq_some_iff.mpr ⟨finite, value⟩]
    exact if_pos within

/-- A number that is equal to no integer within the bounds is refused, with its text. -/
theorem integerOf_eq_error {expected : String} {low high : ℤ} {x : Number}
    (beyond : ∀ i : ℤ, x.value = i → ¬ (low ≤ i ∧ i ≤ high)) :
    integerOf expected low high (.number x) = .error (EngineError.type expected x.text) := by
  rw [integerOf_number]
  split
  next i whole => exact if_neg (beyond i (integer?_eq_some_iff.mp whole).2)
  next => rfl

/-- A type whose integers are read within bounds that it has: exactly the numbers equal to one of them. -/
theorem readsEqual {ι : Type} [OfValue ι] {integer : ι → ℤ} {expected : String} {low high : ℤ} (ofInt : ℤ → ι)
    (reads : ∀ h v, (ofValue h v : Except EngineError ι) = ofInt <$> integerOf expected low high v)
    (left : ∀ n, ofInt (integer n) = n) (right : ∀ i, low ≤ i → i ≤ high → integer (ofInt i) = i) :
    ReadsEqual ι integer low high := by
  intro h v n
  rw [reads]
  constructor
  · intro read
    cases result : integerOf expected low high v with
    | error e => rw [result] at read; cases read
    | ok i =>
      rw [result] at read
      cases read
      obtain ⟨x, same, finite, value, within⟩ := integerOf_eq_ok_iff.mp result
      rw [right i within.1 within.2]
      exact ⟨x, same, finite, value, within⟩
  · intro equal
    rw [integerOf_eq_ok_iff.mpr equal]
    exact congrArg Except.ok (left n)

/-! ## The three types -/

theorem log2_natAbs_le {n : ℤ} (bound : n.natAbs < 2 ^ 64) : Nat.log2 n.natAbs ≤ 1022 := by
  rcases Nat.eq_zero_or_pos n.natAbs with zero | pos
  · rw [zero]
    decide
  · have := (Nat.log2_lt pos.ne').mpr bound
    omega

theorem integerOf_ofInt {expected : String} {low high n i : ℤ} (bound : n.natAbs < 2 ^ 64)
    (value : (ofInt n).value = i) (within : low ≤ i ∧ i ≤ high) :
    integerOf expected low high (.number (ofInt n)) = .ok i :=
  integerOf_eq_ok_iff.mpr ⟨_, rfl, (nearest_ofInt (log2_natAbs_le bound)).finite, value, within⟩

/-- Integers of 32 bits come back as they are. -/
theorem roundTrip_int32 (n : Int32) (h : Heap) : roundTrip n h = .ok n := by
  have low := n.le_toInt
  have high := n.toInt_lt
  show Int32.ofInt <$> integerOf "i32 integer" (-(2 ^ 31)) (2 ^ 31 - 1) (.number (ofInt n.toInt)) = _
  rw [integerOf_ofInt (by omega) (value_ofInt (by omega)) (by omega)]
  exact congrArg Except.ok n.ofInt_toInt

/-- Signed integers of 64 bits come back within one step beyond 2 ^ 53, where that step is lost. -/
theorem roundTrip_int64 (n : Int64) (h : Heap) : roundTrip n h =
    if n.toInt.natAbs ≤ 2 ^ 53 + 1 then .ok (Int64.ofInt (max (-2 ^ 53) (min (2 ^ 53) n.toInt)))
    else .error (.type "integer" (ofInt n.toInt).text) := by
  have low := n.le_toInt
  have high := n.toInt_lt
  show Int64.ofInt <$> integerOf "integer" (-(2 ^ 53)) (2 ^ 53) (.number (ofInt n.toInt)) = _
  split
  next small =>
    have value : (ofInt n.toInt).value = (max (-2 ^ 53) (min (2 ^ 53) n.toInt) : ℤ) := by
      rcases Nat.lt_or_eq_of_le small with less | edge
      · rw [value_ofInt (by omega), show max (-2 ^ 53) (min (2 ^ 53) n.toInt) = n.toInt by omega]
      · exact value_ofInt_edge edge
    rw [integerOf_ofInt (by omega) value (by omega)]
    rfl
  next large =>
    rw [integerOf_eq_error]
    · rfl
    · intro i value
      have := value_ofInt_large (by omega) (log2_natAbs_le (by omega)) value
      omega

/-- Unsigned integers come back up to 32 bits. -/
theorem roundTrip_uint64 (n : UInt64) (h : Heap) : roundTrip n h =
    if n.toNat < 2 ^ 32 then .ok n else .error (.type "non-negative integer" (ofNat n.toNat).text) := by
  have high := n.toNat_lt
  show (fun i => UInt64.ofNat i.toNat) <$> integerOf "non-negative integer" 0 (2 ^ 32 - 1) (.number (ofNat n.toNat)) = _
  rw [ofNat_eq_ofInt]
  split
  next small =>
    rw [integerOf_ofInt (by omega) (value_ofInt (by omega)) (by omega)]
    exact congrArg Except.ok UInt64.ofNat_toNat
  next large =>
    rw [integerOf_eq_error]
    · rfl
    · intro i value
      obtain small | edge | beyond : n.toNat ≤ 2 ^ 53 ∨ n.toNat = 2 ^ 53 + 1 ∨ 2 ^ 53 + 1 < n.toNat := by omega
      · rw [value_ofInt (by omega), Int.cast_inj] at value
        omega
      · rw [value_ofInt_edge (by omega), Int.cast_inj] at value
        omega
      · have := value_ofInt_large (by omega) (log2_natAbs_le (by omega)) value
        omega

/-- Every integer of the three types is made the nearest number. The numbers that are read are those equal to an
integer within the bounds, and each is read as that integer. So an integer that is made a number and read back comes
back or is refused, except for the two signed ones that are one step beyond 2 ^ 53: they come back without that step. -/
theorem integers_converted (i : Int32) (j : Int64) (k : UInt64) (h : Heap) :
    (WritesNearest Int32 Int32.toInt ∧ WritesNearest Int64 Int64.toInt ∧ WritesNearest UInt64 (fun n => n.toNat)) ∧
    (ReadsEqual Int32 Int32.toInt (-2 ^ 31) (2 ^ 31 - 1) ∧ ReadsEqual Int64 Int64.toInt (-2 ^ 53) (2 ^ 53) ∧
      ReadsEqual UInt64 (fun n => n.toNat) 0 (2 ^ 32 - 1)) ∧
    roundTrip i h = .ok i ∧
    (roundTrip j h =
      if j.toInt.natAbs ≤ 2 ^ 53 + 1 then .ok (Int64.ofInt (max (-2 ^ 53) (min (2 ^ 53) j.toInt)))
      else .error (.type "integer" (ofInt j.toInt).text)) ∧
    roundTrip k h =
      if k.toNat < 2 ^ 32 then .ok k else .error (.type "non-negative integer" (ofNat k.toNat).text) := by
  refine ⟨⟨?_, ?_, ?_⟩, ⟨?_, ?_, ?_⟩, roundTrip_int32 i h, roundTrip_int64 j h, roundTrip_uint64 k h⟩
  · intro n h
    have := n.le_toInt
    have := n.toInt_lt
    exact ⟨_, rfl, nearest_ofInt (log2_natAbs_le (by omega))⟩
  · intro n h
    have := n.le_toInt
    have := n.toInt_lt
    exact ⟨_, rfl, nearest_ofInt (log2_natAbs_le (by omega))⟩
  · intro n h
    have := n.toNat_lt
    refine ⟨_, rfl, ?_⟩
    rw [ofNat_eq_ofInt]
    exact nearest_ofInt (n := n.toNat) (log2_natAbs_le (by omega))
  · exact readsEqual Int32.ofInt (fun _ _ => rfl) Int32.ofInt_toInt fun i low high => Int32.toInt_ofInt_of_le low (by omega)
  · exact readsEqual Int64.ofInt (fun _ _ => rfl) Int64.ofInt_toInt fun i low high =>
      Int64.toInt_ofInt_of_le (by omega) (by omega)
  · refine readsEqual (fun i => UInt64.ofNat i.toNat) (fun _ _ => rfl) (fun n => ?_) fun i low high => ?_
    · exact UInt64.ofNat_toNat
    · show ((UInt64.ofNat i.toNat).toNat : ℤ) = i
      rw [UInt64.toNat_ofNat']
      omega

end Convert

end ScriptEngine
