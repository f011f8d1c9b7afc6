import Mathlib.Tactic
import ScriptEngine.Proofs.Counting

/-!
# Whole numbers rounded to the nearest number

A finite number has a rational value, its significand times a power of two. A whole
number is turned into a number whose value no other finite number is nearer to, and of
two that are equally near it is the one with the even significand.

Where the whole number has more than 53 bits, every number at least as large as its
highest bit is a multiple of the same power of two, so that rounding its quotient by
that power is rounding to a number; every smaller number is further away than that bit.
-/
namespace ScriptEngine

/-! ## Quotients -/

namespace BinaryFormat

/-- Rounding a quotient leaves a remainder of half the divisor at most, and of half only from an even one. -/
theorem roundHalfEven_half (num : Nat) {den : Nat} (pos : 0 < den) :
    2 * |(roundHalfEven num den * den : ℤ) - num| ≤ den ∧
      (2 * |(roundHalfEven num den * den : ℤ) - num| = den → roundHalfEven num den % 2 = 0) := by
  have split : (num : ℤ) = (num / den : ℕ) * den + (num % den : ℕ) := by
    exact_mod_cast (Nat.div_add_mod' num den).symm
  have below := Nat.mod_lt num pos
  have rounded : roundHalfEven num den =
      if den < 2 * (num % den) ∨ 2 * (num % den) = den ∧ num / den % 2 = 1 then num / den + 1 else num / den := by
    unfold roundHalfEven
    simp only [Bool.or_eq_true, decide_eq_true_eq, Bool.and_eq_true, beq_iff_eq]
  generalize num / den = q, num % den = r at *
  rw [rounded, split]
  split_ifs with up
  · have distance : |(((q + 1 : ℕ) * den : ℤ) - (q * den + r))| = den - r := by
      rw [show (((q + 1 : ℕ) * den : ℤ) - (q * den + r)) = den - r by push_cast; ring, abs_of_nonneg (by omega)]
    rw [distance]
    omega
  · have distance : |((q * den : ℤ) - (q * den + r))| = r := by
      rw [show ((q * den : ℤ) - (q * den + r)) = -r by ring, abs_neg, abs_of_nonneg (by omega)]
    rw [distance]
    omega

/-- No multiple of the divisor is nearer than the rounded one. -/
theorem roundHalfEven_nearest (num : Nat) {den : Nat} (pos : 0 < den) (j : ℤ) :
    |(roundHalfEven num den * den : ℤ) - num| ≤ |j * den - num| ∧
      (j ≠ roundHalfEven num den → |(roundHalfEven num den * den : ℤ) - num| = |j * den - num| →
        roundHalfEven num den % 2 = 0) := by
  obtain ⟨half, even⟩ := roundHalfEven_half num pos
  generalize roundHalfEven num den = m at *
  rcases eq_or_ne j m with rfl | other
  · exact ⟨le_rfl, fun other => absurd rfl other⟩
  have apart : (den : ℤ) ≤ |j * den - m * den| := by
    rw [← sub_mul, abs_mul, Nat.abs_cast]
    exact le_mul_of_one_le_left (by omega) (Int.one_le_abs (sub_ne_zero.mpr other))
  have triangle : |j * den - m * den| ≤ |j * den - num| + |(m * den : ℤ) - num| := by
    rw [abs_sub_comm (m * den : ℤ)]
    exact abs_sub_le ..
  exact ⟨by omega, fun _ same => even (by omega)⟩

end BinaryFormat

namespace Number

/-! ## The fields of a signed word -/

theorem exponentField_eq (x : Number) : x.exponentField = x.bits.toNat / 2 ^ 52 % 2 ^ 11 := by
  unfold exponentField
  have mask : (0x7FF : UInt64).toNat = 2 ^ 11 - 1 := by decide
  have shift : (52 : UInt64).toNat % 64 = 52 := by decide
  rw [UInt64.toNat_and, UInt64.toNat_shiftRight, mask, Nat.and_two_pow_sub_one_eq_mod, Nat.shiftRight_eq_div_pow, shift]

theorem fraction_eq (x : Number) : x.fraction = x.bits.toNat % 2 ^ 52 := by
  unfold fraction
  have mask : (0xFFFFFFFFFFFFF : UInt64).toNat = 2 ^ 52 - 1 := by decide
  rw [UInt64.toNat_and, mask, Nat.and_two_pow_sub_one_eq_mod]

theorem negative_iff (x : Number) : x.negative = true ↔ 2 ^ 63 ≤ x.bits.toNat := by
  unfold negative
  have shift : (63 : UInt64).toNat % 64 = 63 := by decide
  have bound := x.bits.toNat_lt
  rw [beq_iff_eq, ← UInt64.toNat_inj, UInt64.toNat_shiftRight, Nat.shiftRight_eq_div_pow, shift,
    show (1 : UInt64).toNat = 1 from rfl]
  omega

theorem toNat_signed (negative : Bool) {n : Nat} (short : n < 2 ^ 63) :
    (signed negative (UInt64.ofNat n)).bits.toNat = (if negative then 2 ^ 63 else 0) + n := by
  cases negative with
  | false =>
    show (UInt64.ofNat n).toNat = _
    rw [UInt64.toNat_ofNat', Nat.mod_eq_of_lt (by omega)]
    simp
  | true =>
    show (UInt64.ofNat n ||| 0x8000000000000000).toNat = _
    have bit : (0x8000000000000000 : UInt64).toNat = 2 ^ 63 * 1 := by decide
    rw [UInt64.toNat_or, UInt64.toNat_ofNat', Nat.mod_eq_of_lt (by omega), bit, Nat.or_comm,
      ← Nat.two_pow_add_eq_or_of_lt short 1]
    simp

/-! ## The value of a number -/

/-- The value of a finite number. -/
def value (x : Number) : ℚ := (if x.negative then -1 else 1) * (x.significand * 2 ^ x.scale)

theorem significand_lt (x : Number) : x.significand < 2 ^ 53 := by
  have bound : x.fraction < 2 ^ 52 := by
    rw [fraction_eq]
    exact Nat.mod_lt _ (by decide)
  unfold significand
  split <;> omega

/-- The value of a number that is given by its sign, a full significand and its scale. -/
theorem compose_fields (negative : Bool) {m field : Nat} (low : 2 ^ 52 ≤ m) (high : m < 2 ^ 53) (least : 1 ≤ field)
    (most : field ≤ 2046) :
    let x := compose negative m (field - 1075 : Int)
    x.isFinite = true ∧ x.negative = negative ∧ x.significand = m ∧ x.scale = (field : ℤ) - 1075 := by
  have positive := compose_eq low high least
  have short : field * 2 ^ 52 + (m - 2 ^ 52) < 2 ^ 63 := by
    have := Nat.mul_le_mul_right (2 ^ 52) most
    omega
  have word : compose negative m (field - 1075 : Int) =
      signed negative (UInt64.ofNat (field * 2 ^ 52 + (m - 2 ^ 52))) := by
    have nonzero : m ≠ 0 := by omega
    unfold compose at positive ⊢
    rw [if_neg nonzero] at positive ⊢
    exact congrArg (signed negative) (congrArg Number.bits positive)
  intro x
  have bits : x.bits.toNat = (if negative then 2 ^ 63 else 0) + (field * 2 ^ 52 + (m - 2 ^ 52)) := by
    show (compose negative m (field - 1075 : Int)).bits.toNat = _
    rw [word, toNat_signed negative short]
  have exponent : x.exponentField = field := by
    rw [exponentField_eq, bits]
    cases negative <;> simp only [Bool.false_eq_true, if_true, if_false] <;> omega
  have fraction : x.fraction = m - 2 ^ 52 := by
    rw [fraction_eq, bits]
    cases negative <;> simp only [Bool.false_eq_true, if_true, if_false] <;> omega
  refine ⟨?_, ?_, ?_, ?_⟩
  · unfold isFinite
    rw [exponent, bne_iff_ne]
    omega
  · rw [Bool.eq_iff_iff, negative_iff, bits]
    cases negative <;> simp only [Bool.false_eq_true, if_true, if_false, iff_true, iff_false] <;> omega
  · unfold significand
    rw [exponent, fraction, if_neg (by omega), Nat.sub_add_cancel low]
  · unfold scale
    rw [exponent]
    omega

/-! ## Nearest numbers -/

/-- The nearest one of all finite numbers, of two nearest ones the one with the even significand. -/
structure Nearest (n : ℤ) (x : Number) : Prop where
  finite : x.isFinite = true
  least : ∀ y : Number, y.isFinite = true → |x.value - n| ≤ |y.value - n|
  even : ∀ y : Number, y.isFinite = true → y.value ≠ x.value → |x.value - n| = |y.value - n| → x.significand % 2 = 0

theorem Nearest.of_eq {n : ℤ} {x : Number} (finite : x.isFinite = true) (same : x.value = n) : Nearest n x where
  finite := finite
  least y _ := by rw [same, sub_self, abs_zero]; exact abs_nonneg _
  even y _ other tie := by
    rw [same, sub_self, abs_zero, eq_comm, abs_eq_zero, sub_eq_zero] at tie
    exact absurd (tie.trans same.symm) other

/-- The sign of a number as a factor of its value. -/
def sign (negative : Bool) : ℤ := if negative then -1 else 1

theorem value_eq (x : Number) : x.value = sign x.negative * (x.significand * (2 : ℚ) ^ x.scale) := by
  unfold value sign
  split <;> norm_num

theorem sign_mul_sign (negative : Bool) : sign negative * sign negative = 1 := by
  cases negative <;> rfl

theorem sign_mul_natAbs (n : ℤ) : sign (decide (n < 0)) * n.natAbs = n := by
  rcases lt_or_ge n 0 with neg | nonneg
  · rw [decide_eq_true neg, Int.ofNat_natAbs_of_nonpos neg.le]
    exact (neg_one_mul (-n)).trans (Int.neg_neg n)
  · rw [decide_eq_false nonneg.not_gt, Int.natAbs_of_nonneg nonneg]
    exact one_mul n

theorem abs_sign_mul (negative : Bool) (q : ℚ) : |(sign negative : ℚ) * q| = |q| := by
  cases negative <;> simp [sign]

theorem abs_value (x : Number) : |x.value| = x.significand * (2 : ℚ) ^ x.scale := by
  rw [value_eq, abs_sign_mul, abs_of_nonneg (by positivity)]

/-- A number at least as large as one with a full significand is a multiple of the same power of two. -/
theorem multiple_of_le {y : Number} {s : ℤ} (large : (2 : ℚ) ^ (52 + s) ≤ |y.value|) :
    ∃ j : ℤ, y.value = j * (2 : ℚ) ^ s := by
  have short : (y.significand : ℚ) < 2 ^ (53 : ℤ) := by exact_mod_cast y.significand_lt
  have above : s ≤ y.scale := by
    have : (2 : ℚ) ^ (52 + s) < 2 ^ (53 + y.scale) := by
      calc (2 : ℚ) ^ (52 + s) ≤ y.significand * 2 ^ y.scale := y.abs_value ▸ large
        _ < 2 ^ (53 : ℤ) * 2 ^ y.scale := by gcongr
        _ = 2 ^ (53 + y.scale) := (zpow_add₀ two_ne_zero ..).symm
    have := (zpow_lt_zpow_iff_right₀ one_lt_two).mp this
    omega
  obtain ⟨d, gap⟩ := Int.le.dest above
  refine ⟨sign y.negative * (y.significand * 2 ^ d), ?_⟩
  rw [value_eq, ← gap, zpow_add₀ two_ne_zero, zpow_natCast]
  push_cast
  ring

/-- A number that is given by its sign, a full significand and its scale. -/
theorem compose_value (negative : Bool) {m field : Nat} (low : 2 ^ 52 ≤ m) (high : m < 2 ^ 53) (least : 1 ≤ field)
    (most : field ≤ 2046) {e : ℤ} (scale : e = field - 1075) :
    (compose negative m e).isFinite = true ∧ (compose negative m e).significand = m ∧
      (compose negative m e).value = sign negative * (m * (2 : ℚ) ^ e) := by
  subst scale
  obtain ⟨finite, signed, significand, scale⟩ := compose_fields negative low high least most
  exact ⟨finite, significand, by rw [value_eq, signed, significand, scale]⟩

/-! ## Whole numbers -/

section

variable {k L : Nat} (low : 2 ^ L ≤ k) (high : k < 2 ^ (L + 1))

include low high

/-- Up to 53 bits the value is kept. -/
theorem roundTo_small (negative : Bool) (few : L ≤ 52) :
    (roundTo .double negative k 1).isFinite = true ∧ (roundTo .double negative k 1).value = sign negative * k := by
  have nonzero : k ≠ 0 := by
    have := Nat.two_pow_pos L
    omega
  have quotient : BinaryFormat.scaled k 1 ((L : ℤ) - 52) = (k * 2 ^ (52 - L), 1) := by
    unfold BinaryFormat.scaled
    rw [Nat.shiftLeft_eq, Nat.shiftLeft_eq, show (-((L : ℤ) - 52)).toNat = 52 - L by omega,
      show ((L : ℤ) - 52).toNat = 0 by omega]
  have full : 2 ^ 52 ≤ k * 2 ^ (52 - L) := by
    calc 2 ^ 52 = 2 ^ L * 2 ^ (52 - L) := by rw [← Nat.pow_add]; congr 1; omega
      _ ≤ k * 2 ^ (52 - L) := Nat.mul_le_mul_right _ low
  have short : k * 2 ^ (52 - L) < 2 ^ 53 := by
    calc k * 2 ^ (52 - L) < 2 ^ (L + 1) * 2 ^ (52 - L) := Nat.mul_lt_mul_of_pos_right high (Nat.two_pow_pos _)
      _ = 2 ^ 53 := by rw [← Nat.pow_add]; congr 1; omega
  have nearest : BinaryFormat.double.nearest k 1 = some (k * 2 ^ (52 - L), (L : ℤ) - 52) := by
    unfold BinaryFormat.nearest
    rw [scaleFor_one low high]
    dsimp only
    rw [quotient, roundHalfEven_one, if_pos (show _ < 2 ^ BinaryFormat.double.precision from short)]
    exact if_pos (show (L : ℤ) - 52 ≤ 971 by omega)
  unfold roundTo
  rw [if_neg nonzero, nearest]
  obtain ⟨finite, -, value⟩ := compose_value negative full short (show 1 ≤ L + 1023 by omega) (by omega)
    (show (L : ℤ) - 52 = (L + 1023 : ℕ) - 1075 by omega)
  refine ⟨finite, value.trans ?_⟩
  have scale : (2 : ℚ) ^ (52 - L) * 2 ^ ((L : ℤ) - 52) = 1 := by
    rw [← zpow_natCast, ← zpow_add₀ two_ne_zero, show ((52 - L : ℕ) : ℤ) + (L - 52) = 0 by omega, zpow_zero]
  push_cast
  rw [mul_assoc (k : ℚ), scale, mul_one]

/-- From there on it is the nearest multiple of a power of two. -/
theorem roundTo_large (negative : Bool) {s : Nat} (many : L = s + 52) (within : L ≤ 1022) :
    (roundTo .double negative k 1).isFinite = true ∧
      (roundTo .double negative k 1).value =
        sign negative * (BinaryFormat.roundHalfEven k (2 ^ s) * (2 : ℚ) ^ s) ∧
      (BinaryFormat.roundHalfEven k (2 ^ s) % 2 = 0 → (roundTo .double negative k 1).significand % 2 = 0) := by
  subst many
  have nonzero : k ≠ 0 := by
    have := Nat.two_pow_pos (s + 52)
    omega
  have quotient : BinaryFormat.scaled k 1 s = (k, 2 ^ s) := by
    unfold BinaryFormat.scaled
    rw [Nat.shiftLeft_eq, Nat.shiftLeft_eq, show (-(s : ℤ)).toNat = 0 by omega, Int.toNat_natCast, Nat.pow_zero,
      Nat.mul_one, Nat.one_mul]
  have full : 2 ^ 52 ≤ k / 2 ^ s := by
    rw [Nat.le_div_iff_mul_le (Nat.two_pow_pos s), ← Nat.pow_add, Nat.add_comm]
    exact low
  have short : k / 2 ^ s < 2 ^ 53 := by
    rw [Nat.div_lt_iff_lt_mul (Nat.two_pow_pos s), ← Nat.pow_add]
    exact lt_of_lt_of_eq high (by congr 1; omega)
  have least := le_roundHalfEven k (2 ^ s)
  have most := roundHalfEven_le k (2 ^ s)
  have scale : BinaryFormat.scaleFor .double k 1 = s := by
    rw [scaleFor_one low high]
    omega
  have nearest : BinaryFormat.double.nearest k 1 =
      some (if BinaryFormat.roundHalfEven k (2 ^ s) < 2 ^ 53 then (BinaryFormat.roundHalfEven k (2 ^ s), (s : ℤ))
        else (BinaryFormat.roundHalfEven k (2 ^ s) / 2, s + 1)) := by
    unfold BinaryFormat.nearest
    rw [scale]
    dsimp only
    rw [quotient]
    dsimp only
    have precision : BinaryFormat.double.precision = 53 := rfl
    have maxScale : BinaryFormat.double.maxScale = 971 := rfl
    rw [precision, maxScale]
    split_ifs <;> first | rfl | omega
  unfold roundTo
  rw [if_neg nonzero, nearest]
  generalize BinaryFormat.roundHalfEven k (2 ^ s) = m at *
  by_cases fits : m < 2 ^ 53
  · rw [if_pos fits]
    obtain ⟨finite, significand, value⟩ := compose_value negative (by omega) fits (show 1 ≤ s + 1075 by omega)
      (by omega) (show (s : ℤ) = (s + 1075 : ℕ) - 1075 by omega)
    exact ⟨finite, by rw [value, zpow_natCast], fun even => by rw [significand, even]⟩
  · -- All 53 bits were ones and the last one is carried.
    have carried : m = 2 ^ 53 := by omega
    subst carried
    rw [if_neg fits, show 2 ^ 53 / 2 = 2 ^ 52 from rfl]
    obtain ⟨finite, significand, value⟩ := compose_value negative (Nat.le_refl (2 ^ 52)) (by omega)
      (show 1 ≤ s + 1076 by omega) (by omega) (show (s : ℤ) + 1 = (s + 1076 : ℕ) - 1075 by omega)
    refine ⟨finite, ?_, fun _ => (congrArg (· % 2) significand).trans rfl⟩
    rw [value, zpow_add_one₀ two_ne_zero, zpow_natCast]
    push_cast
    ring

end

/-- Multiples of a power of two are as far from a whole number as its quotient is from a whole one. -/
theorem distance_eq (negative : Bool) (s k : Nat) (j : ℤ) :
    |sign negative * (j * (2 : ℚ) ^ s) - (sign negative * k : ℤ)| = (|j * (2 ^ s : ℕ) - (k : ℤ)| : ℤ) := by
  push_cast
  rw [← mul_sub, abs_sign_mul]

/-- A whole number is turned into the nearest number. -/
theorem nearest_roundTo (negative : Bool) {k : Nat} (bound : Nat.log2 k ≤ 1022) :
    Nearest (sign negative * k) (roundTo .double negative k 1) := by
  rcases Nat.eq_zero_or_pos k with rfl | pos
  · have zero : (roundTo .double negative 0 1).significand = 0 := by cases negative <;> decide +kernel
    refine .of_eq (by cases negative <;> decide +kernel) ?_
    rw [value_eq, zero]
    simp
  have low := Nat.log2_self_le pos.ne'
  have high := Nat.lt_log2_self (n := k)
  generalize Nat.log2 k = L at *
  by_cases few : L ≤ 52
  · obtain ⟨finite, value⟩ := roundTo_small low high negative few
    exact .of_eq finite (by rw [value]; push_cast; rfl)
  obtain ⟨s, rfl⟩ : ∃ s, L = s + 52 := ⟨L - 52, by omega⟩
  obtain ⟨finite, value, even⟩ := roundTo_large low high negative rfl (by omega)
  have nearest := BinaryFormat.roundHalfEven_nearest k (Nat.two_pow_pos s)
  generalize BinaryFormat.roundHalfEven k (2 ^ s) = m at *
  generalize roundTo .double negative k 1 = x at *
  have reached : |x.value - (sign negative * k : ℤ)| = (|m * (2 ^ s : ℕ) - (k : ℤ)| : ℤ) := by
    rw [value]
    exact_mod_cast distance_eq negative s k m
  -- A number that is less than the highest bit is further away than that bit, which is a multiple.
  have smaller {y : Number} (less : |y.value| < (2 : ℚ) ^ (52 + (s : ℤ))) :
      |x.value - (sign negative * k : ℤ)| < |y.value - (sign negative * k : ℤ)| := by
    have highest : (2 : ℚ) ^ (52 + (s : ℤ)) = (2 ^ 52 : ℤ) * (2 ^ s : ℕ) := by
      rw [zpow_add₀ two_ne_zero, zpow_natCast]
      norm_num
    have bit : ((2 ^ 52 : ℤ) * (2 ^ s : ℕ) : ℤ) ≤ k := by
      rw [Nat.pow_add, Nat.mul_comm] at low
      exact_mod_cast low
    have size : |((sign negative * k : ℤ) : ℚ)| = k := by
      push_cast
      rw [abs_sign_mul, Nat.abs_cast]
    calc |x.value - (sign negative * k : ℤ)| ≤ (|(2 ^ 52 : ℤ) * (2 ^ s : ℕ) - (k : ℤ)| : ℤ) := by
          rw [reached]
          exact Int.cast_le.mpr (nearest (2 ^ 52)).1
      _ = k - (2 : ℚ) ^ (52 + (s : ℤ)) := by
          rw [abs_sub_comm, abs_of_nonneg (by omega), highest]
          push_cast
          rfl
      _ < |((sign negative * k : ℤ) : ℚ)| - |y.value| := by rw [size]; linarith
      _ ≤ |y.value - (sign negative * k : ℤ)| := by
          rw [abs_sub_comm]
          exact abs_sub_abs_le_abs_sub ..
  have larger {y : Number} (le : (2 : ℚ) ^ (52 + (s : ℤ)) ≤ |y.value|) : ∃ j : ℤ,
      y.value = sign negative * (j * (2 : ℚ) ^ s) ∧
        |y.value - (sign negative * k : ℤ)| = (|j * (2 ^ s : ℕ) - (k : ℤ)| : ℤ) := by
    obtain ⟨j, multiple⟩ := multiple_of_le le
    have same : y.value = sign negative * ((sign negative * j : ℤ) * (2 : ℚ) ^ s) := by
      rw [multiple, zpow_natCast, ← mul_assoc, ← Int.cast_mul, ← mul_assoc, sign_mul_sign, one_mul]
    exact ⟨_, same, by rw [same]; exact distance_eq negative s k _⟩
  refine ⟨finite, fun y _ => ?_, fun y _ other tie => ?_⟩
  · rcases lt_or_ge |y.value| ((2 : ℚ) ^ (52 + (s : ℤ))) with less | le
    · exact (smaller less).le
    · obtain ⟨j, -, away⟩ := larger le
      rw [reached, away]
      exact_mod_cast (nearest j).1
  · rcases lt_or_ge |y.value| ((2 : ℚ) ^ (52 + (s : ℤ))) with less | le
    · exact absurd tie (smaller less).ne
    · obtain ⟨j, same, away⟩ := larger le
      rw [reached, away] at tie
      refine even ((nearest j).2 (fun h => other ?_) (by exact_mod_cast tie))
      rw [same, value, h]
      push_cast
      rfl

/-- Whole numbers of either sign are turned into the nearest number. -/
theorem nearest_ofInt {n : ℤ} (bound : Nat.log2 n.natAbs ≤ 1022) : Nearest n (ofInt n) := by
  have rounded := nearest_roundTo (decide (n < 0)) bound
  rwa [sign_mul_natAbs] at rounded

end Number

end ScriptEngine
