import Mathlib.Tactic
import ScriptEngine.Number.Rounding

/-!
# Numbers that count

A whole number that is turned into a word is read off it again if it has at most 53
bits, and a larger one does not come down to a smaller one. So two counts of which one
is small are told apart.
-/
namespace ScriptEngine.Number

/-! ## The fields of a word -/

theorem exponentField_ofNat {n : Nat} (h : n < 2 ^ 63) : exponentField ⟨UInt64.ofNat n⟩ = n / 2 ^ 52 := by
  unfold exponentField
  rw [UInt64.toNat_and, UInt64.toNat_shiftRight, UInt64.toNat_ofNat', Nat.mod_eq_of_lt (by omega)]
  have : (0x7FF : UInt64).toNat = 2 ^ 11 - 1 := by decide
  rw [this, Nat.and_two_pow_sub_one_eq_mod, Nat.shiftRight_eq_div_pow]
  have : (52 : UInt64).toNat % 64 = 52 := by decide
  rw [this]
  omega

theorem fraction_ofNat {n : Nat} (h : n < 2 ^ 63) : fraction ⟨UInt64.ofNat n⟩ = n % 2 ^ 52 := by
  unfold fraction
  rw [UInt64.toNat_and, UInt64.toNat_ofNat', Nat.mod_eq_of_lt (by omega)]
  have : (0xFFFFFFFFFFFFF : UInt64).toNat = 2 ^ 52 - 1 := by decide
  rw [this, Nat.and_two_pow_sub_one_eq_mod]

theorem negative_ofNat {n : Nat} (h : n < 2 ^ 63) : negative ⟨UInt64.ofNat n⟩ = false := by
  unfold negative
  rw [beq_eq_false_iff_ne]
  intro same
  have := congrArg UInt64.toNat same
  rw [UInt64.toNat_shiftRight, UInt64.toNat_ofNat', Nat.mod_eq_of_lt (by omega), Nat.shiftRight_eq_div_pow] at this
  have one : (63 : UInt64).toNat % 64 = 63 := by decide
  rw [one] at this
  have : n / 2 ^ 63 = 1 := this
  omega
/-! ## Words of whole numbers -/

/-- The word of a number with a full significand. -/
theorem compose_eq {m field : Nat} (low : 2 ^ 52 ≤ m) (high : m < 2 ^ 53) (least : 1 ≤ field) :
    compose false m (field - 1075 : Int) = ⟨UInt64.ofNat (field * 2 ^ 52 + (m - 2 ^ 52))⟩ := by
  have log : Nat.log2 m = 52 := by
    rw [Nat.log2_eq_iff (by omega)]
    omega
  have hidden : (field - 1) * 2 ^ 52 + m = field * 2 ^ 52 + (m - 2 ^ 52) := by
    omega
  have shift : min (52 - Nat.log2 m) ((field : Int) - 1075 + 1074).toNat = 0 := by rw [log, Nat.sub_self, Nat.zero_min]
  have same : ((field : Int) - 1075 - (0 : Nat) + 1075).toNat = field := by omega
  unfold compose signed
  rw [if_neg (show m ≠ 0 by omega)]
  dsimp only
  rw [shift, same, Nat.shiftLeft_zero, if_neg (Nat.not_lt.mpr low), Nat.shiftLeft_eq, hidden]
  rfl

/-- A number with a full significand, read off its word. -/
theorem integer?_compose {m field : Nat} (low : 2 ^ 52 ≤ m) (high : m < 2 ^ 53) (least : 1 ≤ field)
    (most : field ≤ 2046) :
    (compose false m (field - 1075 : Int)).integer? =
      if 1075 ≤ field then some ((m * 2 ^ (field - 1075) : Nat) : Int)
      else if m % 2 ^ (1075 - field) = 0 then some ((m / 2 ^ (1075 - field) : Nat) : Int) else none := by
  have word := compose_eq low high least
  have bound : field * 2 ^ 52 + (m - 2 ^ 52) < 2 ^ 63 := by
    have := Nat.mul_le_mul_right (2 ^ 52) most
    omega
  generalize compose false m (field - 1075 : Int) = x at word ⊢
  have exponent : x.exponentField = field := by
    rw [word, exponentField_ofNat bound]
    omega
  have fraction : x.fraction = m - 2 ^ 52 := by
    rw [word, fraction_ofNat bound]
    omega
  have negative : x.negative = false := by rw [word, negative_ofNat bound]
  have significand : x.significand = m := by
    unfold Number.significand
    rw [exponent, fraction, if_neg (show field ≠ 0 by omega), Nat.sub_add_cancel low]
  have scale : x.scale = (field : Int) - 1075 := by
    unfold Number.scale
    rw [exponent]
    omega
  have finite : x.isFinite = true := by
    unfold isFinite
    rw [exponent, bne_iff_ne]
    omega
  have shifted : ((field : Int) - 1075).toNat = field - 1075 := by omega
  have shifted' : (-((field : Int) - 1075)).toNat = 1075 - field := by omega
  unfold integer?
  rw [finite, significand, scale, negative]
  have sign : 0 ≤ (field : Int) - 1075 ↔ 1075 ≤ field := by omega
  simp only [shifted, shifted', sign, Nat.shiftLeft_eq, Nat.shiftRight_eq_div_pow, Bool.false_eq_true, if_false,
    if_true]
  generalize m * 2 ^ (field - 1075) = up
  generalize m / 2 ^ (1075 - field) = down
  split
  · rfl
  · split <;> rfl

/-- So many bits are significant. -/
theorem scaled_log {k L : Nat} (low : 2 ^ L ≤ k) (high : k < 2 ^ (L + 1)) (d : Nat) :
    2 ^ d ≤ (BinaryFormat.scaled k 1 (L - d : Int)).1 / (BinaryFormat.scaled k 1 (L - d : Int)).2 ∧
      (BinaryFormat.scaled k 1 (L - d : Int)).1 / (BinaryFormat.scaled k 1 (L - d : Int)).2 < 2 ^ (d + 1) := by
  unfold BinaryFormat.scaled
  dsimp only
  rw [Nat.shiftLeft_eq, Nat.shiftLeft_eq, Nat.one_mul, Nat.le_div_iff_mul_le (Nat.two_pow_pos _),
    Nat.div_lt_iff_lt_mul (Nat.two_pow_pos _), ← Nat.pow_add, ← Nat.pow_add]
  rcases Nat.le_total L d with le | le
  · have up : (-((L : Int) - d)).toNat = d - L := by omega
    have down : ((L : Int) - d).toNat = 0 := by omega
    rw [up, down, show d + 0 = L + (d - L) by omega, show d + 1 + 0 = L + 1 + (d - L) by omega, Nat.pow_add,
      Nat.pow_add]
    exact ⟨Nat.mul_le_mul_right _ low, Nat.mul_lt_mul_of_pos_right high (Nat.two_pow_pos _)⟩
  · have up : (-((L : Int) - d)).toNat = 0 := by omega
    have down : ((L : Int) - d).toNat = L - d := by omega
    rw [up, down, show d + (L - d) = L by omega, show d + 1 + (L - d) = L + 1 by omega, Nat.pow_zero, Nat.mul_one]
    exact ⟨low, high⟩

theorem scaleFor_one {k L : Nat} (low : 2 ^ L ≤ k) (high : k < 2 ^ (L + 1)) :
    BinaryFormat.scaleFor .double k 1 = (L : Int) - 52 := by
  have log : Nat.log2 k = L := (Nat.log2_eq_iff (by have := Nat.two_pow_pos L; omega)).mpr ⟨low, high⟩
  have one : Nat.log2 1 = 0 := by decide
  unfold BinaryFormat.scaleFor BinaryFormat.double
  dsimp only
  rw [one, log]
  have same : (L : Int) - (0 : Nat) - (53 : Nat) = L - (53 : Nat) := by omega
  have full := (scaled_log low high 53).1
  rw [same, if_neg (Nat.not_lt.mpr full)]
  omega

theorem roundHalfEven_one (k : Nat) : BinaryFormat.roundHalfEven k 1 = k := by
  unfold BinaryFormat.roundHalfEven
  simp [Nat.mod_one]

theorem le_roundHalfEven (k den : Nat) : k / den ≤ BinaryFormat.roundHalfEven k den := by
  unfold BinaryFormat.roundHalfEven
  dsimp only
  split <;> omega

theorem roundHalfEven_le (k den : Nat) : BinaryFormat.roundHalfEven k den ≤ k / den + 1 := by
  unfold BinaryFormat.roundHalfEven
  dsimp only
  split <;> omega

/-- The number nearest to a whole number: its significand is full, and its scale is off by one at most. -/
theorem ofNat_eq {k L : Nat} (low : 2 ^ L ≤ k) (high : k < 2 ^ (L + 1)) : (ofNat k = infinity false ∧ 52 < L) ∨
    ∃ m field : Nat, ofNat k = compose false m (field - 1075 : Int) ∧ 2 ^ 52 ≤ m ∧ m < 2 ^ 53 ∧ field ≤ 2046 ∧
      (field = L + 1023 ∧ (L ≤ 52 → m = k * 2 ^ (52 - L)) ∨ 52 < L ∧ field = L + 1024) := by
  have pos : k ≠ 0 := by
    have := Nat.two_pow_pos L
    omega
  have bits := scaled_log low high 52
  have exact_ (le : L ≤ 52) : BinaryFormat.scaled k 1 ((L : Int) - (52 : Nat)) = (k * 2 ^ (52 - L), 1) := by
    unfold BinaryFormat.scaled
    rw [Nat.shiftLeft_eq, Nat.shiftLeft_eq, show (-((L : Int) - (52 : Nat))).toNat = 52 - L by omega,
      show ((L : Int) - (52 : Nat)).toNat = 0 by omega]
  have scale : (L : Int) - 52 = L - (52 : Nat) := rfl
  unfold ofNat roundTo
  rw [if_neg pos]
  unfold BinaryFormat.nearest
  rw [scaleFor_one low high, scale]
  dsimp only
  generalize BinaryFormat.scaled k 1 ((L : Int) - (52 : Nat)) = q at bits exact_ ⊢
  have least := le_roundHalfEven q.1 q.2
  have most := roundHalfEven_le q.1 q.2
  have exact_ (le : L ≤ 52) : BinaryFormat.roundHalfEven q.1 q.2 = k * 2 ^ (52 - L) := by
    rw [exact_ le]
    exact roundHalfEven_one _
  generalize BinaryFormat.roundHalfEven q.1 q.2 = m at least most exact_ ⊢
  have precision : BinaryFormat.double.precision = 53 := rfl
  have maxScale : BinaryFormat.double.maxScale = 971 := rfl
  rw [precision, maxScale]
  by_cases fits : m < 2 ^ 53
  · rw [if_pos fits]
    dsimp only
    by_cases within : (L : Int) - (52 : Nat) ≤ 971
    · rw [if_pos within]
      refine .inr ⟨m, L + 1023, ?_, by omega, fits, by omega, .inl ⟨rfl, exact_⟩⟩
      exact congrArg (compose false m) (by omega)
    · rw [if_neg within]
      exact .inl ⟨rfl, by omega⟩
  · rw [if_neg fits]
    dsimp only
    have half : m / 2 = 2 ^ 52 := by omega
    have large : 52 < L := by
      by_contra small
      have := exact_ (by omega)
      have : k * 2 ^ (52 - L) < 2 ^ (L + 1) * 2 ^ (52 - L) := Nat.mul_lt_mul_of_pos_right high (Nat.two_pow_pos _)
      rw [← Nat.pow_add, show L + 1 + (52 - L) = 53 by omega] at this
      omega
    by_cases within : (L : Int) - (52 : Nat) + 1 ≤ 971
    · rw [if_pos within, half]
      refine .inr ⟨2 ^ 52, L + 1024, ?_, Nat.le_refl _, by omega, by omega, .inr ⟨large, rfl⟩⟩
      exact congrArg (compose false (2 ^ 52)) (by omega)
    · rw [if_neg within]
      exact .inl ⟨rfl, by omega⟩

/-- Whole numbers of at most 53 bits keep their value. -/
theorem integer?_ofNat {k : Nat} (small : k < 2 ^ 53) : (ofNat k).integer? = some (k : Int) := by
  by_cases zero : k = 0
  · subst zero
    decide +kernel
  have low := Nat.log2_self_le zero
  have high := Nat.lt_log2_self (n := k)
  have bits : Nat.log2 k < 53 := (Nat.log2_lt zero).mpr small
  generalize Nat.log2 k = L at *
  obtain ⟨-, large⟩ | ⟨m, field, same, full, short, most, ⟨rfl, exact_⟩ | ⟨large, -⟩⟩ := ofNat_eq low high
  · omega
  · have shift : 1075 - (L + 1023) = 52 - L := by omega
    rw [same, integer?_compose full short (by omega) most, shift, exact_ (by omega)]
    split
    · have last : L = 52 := by omega
      subst last
      simp
    · rw [Nat.mul_mod_left, if_pos rfl, Nat.mul_div_cancel _ (Nat.two_pow_pos _)]
  · omega

/-- Larger numbers do not come down to smaller ones. -/
theorem integer?_ofNat_large {k : Nat} {i : Int} (large : 2 ^ 53 ≤ k) (whole : (ofNat k).integer? = some i) :
    2 ^ 53 ≤ i := by
  have zero : k ≠ 0 := by omega
  have low := Nat.log2_self_le zero
  have high := Nat.lt_log2_self (n := k)
  have bits : 53 ≤ Nat.log2 k := (Nat.le_log2 zero).mpr large
  generalize Nat.log2 k = L at *
  obtain ⟨infinite, -⟩ | ⟨m, field, same, full, short, most, scale⟩ := ofNat_eq low high
  · rw [infinite, show (infinity false).integer? = none by decide +kernel] at whole
    cases whole
  · have beyond : 1076 ≤ field := by omega
    rw [same, integer?_compose full short (by omega) most, if_pos (by omega)] at whole
    cases whole
    have : 2 ^ 52 * 2 ^ 1 ≤ m * 2 ^ (field - 1075) := Nat.mul_le_mul full (Nat.pow_le_pow_right (by omega) (by omega))
    exact_mod_cast this

end ScriptEngine.Number
