import Mathlib
import Abacus.Decimal

/-!
The reading of a decimal is correctly rounded. Doubles are counted by their bits, which run through
the numbers of the grid in order; the bits of infinity stand for the number after the largest finite
one, so that overflow is no case of its own. What is closest is said of rational numbers and of all
bits at once; `toBits` only ever looks at two neighbours.
-/

namespace Abacus.Decimal

def value (d : Decimal) : ℚ :=
  d.digits * (10 : ℚ) ^ d.exponent

/-- The number with the given bits, without its sign. -/
def gridValue (bits : ℕ) : ℚ :=
  units bits / unitsInOne

/-- Of all doubles the one with these bits is closest to `v`, and even if it is not the only one. -/
structure RoundsTo (v : ℚ) (bits : ℕ) : Prop where
  inRange : bits ≤ infinityBits
  closest : ∀ other ≤ infinityBits, |gridValue bits - v| ≤ |gridValue other - v|
  even : ∀ other ≤ infinityBits, other ≠ bits →
    |gridValue bits - v| = |gridValue other - v| → bits % 2 = 0

def IsNearest (d : Decimal) (x : Float) : Prop :=
  ∃ bits, RoundsTo d.value bits ∧ x = Float.ofBits (UInt64.ofNat bits)

theorem unitsInOne_eq : unitsInOne = 2 ^ 1074 := by
  unfold unitsInOne
  generalize 1074 = e
  rfl

theorem units_eq (bits : ℕ) : units bits =
    if bits < 2 ^ 52 then bits else (bits % 2 ^ 52 + 2 ^ 52) * 2 ^ (bits / 2 ^ 52 - 1) := rfl

theorem unitsInOne_pos : 0 < unitsInOne := by
  rw [unitsInOne_eq]
  positivity

theorem units_scaled {k m : ℕ} (large : k = 0 ∨ 2 ^ 52 ≤ m) (small : m ≤ 2 ^ 53) :
    units (k * 2 ^ 52 + m) = m * 2 ^ k := by
  rw [units_eq]
  by_cases hm : m < 2 ^ 52
  · obtain rfl : k = 0 := by omega
    rw [if_pos (by omega)]
    simp
  · rw [if_neg (by omega)]
    obtain lt | rfl := Nat.lt_or_eq_of_le small
    · have quotient : (k * 2 ^ 52 + m) / 2 ^ 52 = k + 1 := by omega
      have remainder : (k * 2 ^ 52 + m) % 2 ^ 52 + 2 ^ 52 = m := by omega
      rw [quotient, remainder, Nat.add_sub_cancel]
    · have quotient : (k * 2 ^ 52 + 2 ^ 53) / 2 ^ 52 = k + 2 := by omega
      have remainder : (k * 2 ^ 52 + 2 ^ 53) % 2 ^ 52 = 0 := by omega
      rw [quotient, remainder, show k + 2 - 1 = k + 1 by omega]
      ring

theorem exists_scaled (bits : ℕ) :
    ∃ k m, bits = k * 2 ^ 52 + m ∧ (k = 0 ∨ 2 ^ 52 ≤ m) ∧ m < 2 ^ 53 := by
  by_cases h : bits < 2 ^ 52
  · exact ⟨0, bits, by omega, .inl rfl, by omega⟩
  · exact ⟨bits / 2 ^ 52 - 1, bits % 2 ^ 52 + 2 ^ 52, by omega, .inr (by omega), by omega⟩

theorem units_strictMono : StrictMono units := by
  refine strictMono_nat_of_lt_succ fun bits => ?_
  obtain ⟨k, m, rfl, large, small⟩ := exists_scaled bits
  rw [units_scaled large small.le, Nat.add_assoc, units_scaled (by omega) (by omega)]
  exact Nat.mul_lt_mul_of_pos_right (Nat.lt_succ_self m) (by positivity)

theorem gridValue_strictMono : StrictMono gridValue := by
  intro a b h
  have units_lt : (units a : ℚ) < units b := by exact_mod_cast units_strictMono h
  have pos : (0 : ℚ) < unitsInOne := by exact_mod_cast unitsInOne_pos
  exact div_lt_div_of_pos_right units_lt pos

theorem RoundsTo.of_lower {v : ℚ} {b : ℕ} (inRange : b ≤ infinityBits) (low : gridValue b ≤ v)
    (near : 2 * v ≤ gridValue b + gridValue (b + 1))
    (tie : 2 * v = gridValue b + gridValue (b + 1) → b % 2 = 0) : RoundsTo v b := by
  have here : |gridValue b - v| = v - gridValue b := by
    rw [abs_of_nonpos (by linarith)]
    ring
  have below : ∀ other < b, |gridValue b - v| < |gridValue other - v| := by
    intro other h
    have lt := gridValue_strictMono h
    rw [here, abs_of_neg (by linarith)]
    linarith
  have above : ∀ other > b, gridValue (b + 1) - v ≤ |gridValue other - v| := by
    intro other h
    have le := gridValue_strictMono.monotone (Nat.succ_le_of_lt h)
    have := le_abs_self (gridValue other - v)
    linarith
  refine ⟨inRange, fun other _ => ?_, fun other _ different equal => ?_⟩
  · obtain h | rfl | h := Nat.lt_trichotomy other b
    · exact (below other h).le
    · exact le_rfl
    · have := above other h
      linarith
  · obtain h | h := Nat.lt_or_gt_of_ne different
    · exact absurd equal (below other h).ne
    · have := above other h
      exact tie (by linarith)

theorem RoundsTo.of_upper {v : ℚ} {b : ℕ} (inRange : b + 1 ≤ infinityBits)
    (high : v ≤ gridValue (b + 1)) (near : gridValue b + gridValue (b + 1) ≤ 2 * v)
    (tie : 2 * v = gridValue b + gridValue (b + 1) → (b + 1) % 2 = 0) : RoundsTo v (b + 1) := by
  have here : |gridValue (b + 1) - v| = gridValue (b + 1) - v := abs_of_nonneg (by linarith)
  have above : ∀ other > b + 1, |gridValue (b + 1) - v| < |gridValue other - v| := by
    intro other h
    have lt := gridValue_strictMono h
    rw [here, abs_of_pos (by linarith)]
    linarith
  have below : ∀ other < b + 1, v - gridValue b ≤ |gridValue other - v| := by
    intro other h
    have le := gridValue_strictMono.monotone (Nat.le_of_lt_succ h)
    have := neg_abs_le (gridValue other - v)
    linarith
  refine ⟨inRange, fun other _ => ?_, fun other _ different equal => ?_⟩
  · obtain h | rfl | h := Nat.lt_trichotomy other (b + 1)
    · have := below other h
      linarith
    · exact le_rfl
    · exact (above other h).le
  · obtain h | h := Nat.lt_or_gt_of_ne different
    · have := below other h
      exact tie (by linarith)
    · exact absurd equal (above other h).ne

theorem RoundsTo.of_overflow {v : ℚ} (h : gridValue infinityBits ≤ v) :
    RoundsTo v infinityBits := by
  have here : |gridValue infinityBits - v| = v - gridValue infinityBits := by
    rw [abs_of_nonpos (by linarith)]
    ring
  have below : ∀ other < infinityBits, |gridValue infinityBits - v| < |gridValue other - v| := by
    intro other lt
    have := gridValue_strictMono lt
    rw [here, abs_of_neg (by linarith)]
    linarith
  refine ⟨le_rfl, fun other le => ?_, fun other le different equal => ?_⟩
  · obtain lt | rfl := Nat.lt_or_eq_of_le le
    · exact (below other lt).le
    · exact le_rfl
  · exact absurd equal (below other (lt_of_le_of_ne le different)).ne

theorem RoundsTo.unique {v : ℚ} {a b : ℕ} (ha : RoundsTo v a) (hb : RoundsTo v b) : a = b := by
  -- two even bits are not neighbours, and what lies between them is closer than both
  wlog h : a ≤ b generalizing a b
  · exact (this hb ha (Nat.le_of_not_le h)).symm
  by_contra different
  have equal : |gridValue a - v| = |gridValue b - v| :=
    le_antisymm (ha.closest b hb.inRange) (hb.closest a ha.inRange)
  have evenA := ha.even b hb.inRange (Ne.symm different) equal
  have evenB := hb.even a ha.inRange different equal.symm
  have lower := gridValue_strictMono (show a < a + 1 by omega)
  have upper := gridValue_strictMono (show a + 1 < b by omega)
  have middle : gridValue a - v = -(gridValue b - v) :=
    (abs_eq_abs.mp equal).resolve_left (by linarith)
  have closer : |gridValue (a + 1) - v| < |gridValue a - v| := by
    rw [abs_of_neg (by linarith : gridValue a - v < 0), abs_lt]
    constructor <;> linarith
  have := ha.closest (a + 1) (by have := hb.inRange; omega)
  linarith

theorem lt_two_pow_bitLength (n : ℕ) : n < 2 ^ bitLength n := by
  unfold bitLength
  split
  · next h => simp [h]
  · exact Nat.lt_log2_self

theorem two_pow_bitLength_le {n : ℕ} (h : bitLength n ≠ 0) : 2 ^ (bitLength n - 1) ≤ n := by
  unfold bitLength at *
  split at h
  · exact absurd rfl h
  · next hn =>
    rw [if_neg hn, Nat.add_sub_cancel]
    exact Nat.log2_self_le hn

theorem mantissa_bounds (scaled : ℕ) {den : ℕ} (pos : 0 < den) :
    let k := bitLength (scaled / (den * 2 ^ 53))
    scaled / (den * 2 ^ k) < 2 ^ 53 ∧ (k = 0 ∨ 2 ^ 52 ≤ scaled / (den * 2 ^ k)) := by
  intro k
  have above := lt_two_pow_bitLength (scaled / (den * 2 ^ 53))
  rw [Nat.div_lt_iff_lt_mul (by positivity)] at above
  constructor
  · rw [Nat.div_lt_iff_lt_mul (by positivity)]
    calc
      scaled < 2 ^ k * (den * 2 ^ 53) := above
      _ = 2 ^ 53 * (den * 2 ^ k) := by ring
  · by_cases h : k = 0
    · exact .inl h
    · right
      have below := two_pow_bitLength_le (n := scaled / (den * 2 ^ 53)) (by omega)
      rw [Nat.le_div_iff_mul_le (by positivity)] at below ⊢
      obtain ⟨j, hj⟩ : ∃ j, k = j + 1 := ⟨k - 1, by omega⟩
      calc
        2 ^ 52 * (den * 2 ^ k) = 2 ^ (k - 1) * (den * 2 ^ 53) := by
          rw [hj, Nat.add_sub_cancel, pow_succ]
          ring
        _ ≤ scaled := below

theorem roundHalfEven_cases (num den : ℕ) :
    (roundHalfEven num den = num / den ∧ 2 * (num % den) ≤ den ∧
      (2 * (num % den) = den → num / den % 2 = 0)) ∨
    (roundHalfEven num den = num / den + 1 ∧ den ≤ 2 * (num % den) ∧
      (2 * (num % den) = den → (num / den + 1) % 2 = 0)) := by
  unfold roundHalfEven
  dsimp only
  split_ifs <;> omega

theorem gridValue_scaled {k m den : ℕ} (pos : 0 < den) (large : k = 0 ∨ 2 ^ 52 ≤ m)
    (small : m ≤ 2 ^ 53) :
    gridValue (k * 2 ^ 52 + m) = (m * (den * 2 ^ k) : ℕ) / (den * unitsInOne : ℕ) := by
  have hd : (den : ℚ) ≠ 0 := by exact_mod_cast pos.ne'
  have hu : (unitsInOne : ℚ) ≠ 0 := by exact_mod_cast unitsInOne_pos.ne'
  rw [gridValue, units_scaled large small]
  push_cast
  field_simp

/-- Rounding a ratio to a whole number of steps rounds it on a grid that has these steps there. -/
theorem RoundsTo.of_roundHalfEven {base scaled step common : ℕ} (even : base % 2 = 0)
    (stepPos : 0 < step) (commonPos : 0 < common)
    (lower : gridValue (base + scaled / step) = (scaled / step * step : ℕ) / (common : ℕ))
    (upper : gridValue (base + scaled / step + 1) =
      ((scaled / step + 1) * step : ℕ) / (common : ℕ)) :
    RoundsTo ((scaled : ℕ) / (common : ℕ))
      (min infinityBits (base + roundHalfEven scaled step)) := by
  set below := scaled / step with below_def
  have pos : (0 : ℚ) < common := by exact_mod_cast commonPos
  have divided : scaled = below * step + scaled % step := by
    rw [Nat.mul_comm]
    exact (Nat.div_add_mod scaled step).symm
  have remainder : scaled % step < step := Nat.mod_lt _ stepPos
  have twice : (2 * ((scaled : ℕ) / (common : ℕ)) : ℚ) = (2 * scaled : ℕ) / (common : ℕ) := by
    rw [mul_div_assoc']
    push_cast
    rfl
  have middle : gridValue (base + below) + gridValue (base + below + 1) =
      (below * step + (below * step + step) : ℕ) / (common : ℕ) := by
    rw [lower, upper, ← add_div, Nat.add_mul, Nat.one_mul]
    push_cast
    rfl
  have tie : 2 * scaled = below * step + (below * step + step) ↔ 2 * (scaled % step) = step := by
    omega
  -- below infinity one of two neighbours is taken; from there on rounding down is enough
  obtain finite | overflow := Nat.lt_or_ge (base + below) infinityBits
  · obtain ⟨rounded, near, parity⟩ | ⟨rounded, near, parity⟩ := roundHalfEven_cases scaled step
    · rw [rounded, ← below_def, min_eq_right finite.le]
      refine .of_lower finite.le ?_ ?_ ?_
      · rw [lower, div_le_div_iff_of_pos_right pos]
        exact_mod_cast (show below * step ≤ scaled by omega)
      · rw [twice, middle, div_le_div_iff_of_pos_right pos]
        exact_mod_cast (show 2 * scaled ≤ below * step + (below * step + step) by omega)
      · rw [twice, middle, div_left_inj' pos.ne', Nat.cast_inj, tie]
        intro equal
        have := parity equal
        omega
    · rw [rounded, ← below_def, min_eq_right (by omega), ← Nat.add_assoc]
      refine .of_upper finite ?_ ?_ ?_
      · rw [upper, div_le_div_iff_of_pos_right pos, Nat.add_mul, Nat.one_mul]
        exact_mod_cast (show scaled ≤ below * step + step by omega)
      · rw [twice, middle, div_le_div_iff_of_pos_right pos]
        exact_mod_cast (show below * step + (below * step + step) ≤ 2 * scaled by omega)
      · rw [twice, middle, div_left_inj' pos.ne', Nat.cast_inj, tie]
        intro equal
        have := parity equal
        omega
  · have rounded : below ≤ roundHalfEven scaled step := by
      obtain ⟨h, -⟩ | ⟨h, -⟩ := roundHalfEven_cases scaled step <;> omega
    rw [min_eq_left (by omega)]
    refine .of_overflow ((gridValue_strictMono.monotone overflow).trans ?_)
    rw [lower, div_le_div_iff_of_pos_right pos]
    exact_mod_cast (show below * step ≤ scaled by omega)

theorem roundsTo_nearestBits (num : ℕ) {den : ℕ} (pos : 0 < den) :
    RoundsTo (num / den) (nearestBits num den) := by
  set scaled := num * unitsInOne with scaled_def
  set k := bitLength (scaled / (den * 2 ^ 53)) with k_def
  obtain ⟨small, large⟩ : scaled / (den * 2 ^ k) < 2 ^ 53 ∧
      (k = 0 ∨ 2 ^ 52 ≤ scaled / (den * 2 ^ k)) := mantissa_bounds scaled pos
  have bits : nearestBits num den =
      min infinityBits (k * 2 ^ 52 + roundHalfEven scaled (den * 2 ^ k)) := by
    simp only [nearestBits, k_def, scaled_def, Nat.pow_eq]
  have ratio : (num / den : ℚ) = (scaled : ℕ) / (den * unitsInOne : ℕ) := by
    have hd : (den : ℚ) ≠ 0 := by exact_mod_cast pos.ne'
    have hu : (unitsInOne : ℚ) ≠ 0 := by exact_mod_cast unitsInOne_pos.ne'
    rw [scaled_def]
    push_cast
    field_simp
  have upper : gridValue (k * 2 ^ 52 + scaled / (den * 2 ^ k) + 1) =
      ((scaled / (den * 2 ^ k) + 1) * (den * 2 ^ k) : ℕ) / (den * unitsInOne : ℕ) := by
    rw [Nat.add_assoc]
    exact gridValue_scaled pos (by omega) small
  rw [bits, ratio]
  exact .of_roundHalfEven (by omega) (by positivity) (Nat.mul_pos pos unitsInOne_pos)
    (gridValue_scaled pos large small.le) upper

theorem value_eq_whole {d : Decimal} (h : 0 ≤ d.exponent) :
    d.value = (d.digits * 10 ^ d.exponent.toNat : ℕ) := by
  obtain ⟨n, hn⟩ : ∃ n : ℕ, d.exponent = n := ⟨d.exponent.toNat, by omega⟩
  rw [value, hn, Int.toNat_natCast, zpow_natCast]
  push_cast
  rfl

theorem value_eq_ratio {d : Decimal} (h : d.exponent < 0) :
    d.value = (d.digits : ℕ) / (10 ^ (-d.exponent).toNat : ℕ) := by
  obtain ⟨n, hn⟩ : ∃ n : ℕ, d.exponent = -n := ⟨(-d.exponent).toNat, by omega⟩
  rw [value, hn, neg_neg, Int.toNat_natCast, zpow_neg, zpow_natCast, ← div_eq_mul_inv]
  push_cast
  rfl

theorem gridValue_zero : gridValue 0 = 0 := by
  rw [gridValue, show units 0 = 0 from rfl, Nat.cast_zero, zero_div]

theorem gridValue_one : gridValue 1 = 1 / unitsInOne := by
  rw [gridValue, show units 1 = 1 from rfl, Nat.cast_one]

theorem two_pow_mul_unitsInOne (n : ℕ) : 2 ^ n * unitsInOne = 2 ^ (n + 1074) := by
  rw [unitsInOne_eq]
  generalize 1074 = e
  exact (pow_add 2 n e).symm

theorem two_pow_le_ten_pow {m n : ℕ} (h : m ≤ 3 * n) : 2 ^ m ≤ 10 ^ n := by
  calc
    2 ^ m ≤ 2 ^ (3 * n) := pow_le_pow_right₀ (by norm_num) h
    _ = 8 ^ n := pow_mul 2 3 n
    _ ≤ 10 ^ n := Nat.pow_le_pow_left (by norm_num) n

theorem units_infinityBits : units infinityBits = 2 ^ 1024 * unitsInOne := by
  rw [show infinityBits = 2046 * 2 ^ 52 + 2 ^ 52 from rfl, units_scaled (.inr le_rfl) (by norm_num),
    two_pow_mul_unitsInOne]
  exact (pow_add 2 52 2046).symm.trans (congrArg (2 ^ ·) (show 52 + 2046 = 1024 + 1074 from rfl))

theorem RoundsTo.zero {v : ℚ} (nonneg : 0 ≤ v) (small : 2 * v ≤ 1 / unitsInOne) : RoundsTo v 0 := by
  refine .of_lower (Nat.zero_le _) ?_ ?_ fun _ => rfl
  · rwa [gridValue_zero]
  · rwa [gridValue_zero, zero_add, zero_add, gridValue_one]

theorem overflow_of_exponent {d : Decimal} (digits : d.digits ≠ 0) (large : 400 < d.exponent) :
    gridValue infinityBits ≤ d.value := by
  have power : 2 ^ 1024 ≤ 10 ^ d.exponent.toNat := two_pow_le_ten_pow (by omega)
  have bound : units infinityBits ≤ d.digits * 10 ^ d.exponent.toNat * unitsInOne := by
    rw [units_infinityBits]
    have more := power.trans (Nat.le_mul_of_pos_left _ (Nat.pos_of_ne_zero digits))
    exact Nat.mul_le_mul_right _ more
  rw [gridValue, div_le_iff₀ (by exact_mod_cast unitsInOne_pos), value_eq_whole (by omega)]
  exact_mod_cast bound

theorem underflow_of_exponent {d : Decimal} (small : d.exponent < -(400 + bitLength d.digits)) :
    2 * d.value ≤ 1 / unitsInOne := by
  have bound : 2 * d.digits * unitsInOne ≤ 10 ^ (-d.exponent).toNat := by
    calc
      2 * d.digits * unitsInOne ≤ 2 ^ (bitLength d.digits + 1) * unitsInOne := by
        rw [pow_succ']
        exact Nat.mul_le_mul_right _ (Nat.mul_le_mul_left _ (lt_two_pow_bitLength _).le)
      _ = 2 ^ (bitLength d.digits + 1 + 1074) := two_pow_mul_unitsInOne _
      _ ≤ 10 ^ (-d.exponent).toNat := two_pow_le_ten_pow (by omega)
  have units_pos : (0 : ℚ) < unitsInOne := by exact_mod_cast unitsInOne_pos
  have power_pos : (0 : ℚ) < (10 ^ (-d.exponent).toNat : ℕ) := by positivity
  rw [value_eq_ratio (by omega), mul_div_assoc', div_le_div_iff₀ power_pos units_pos, one_mul]
  exact_mod_cast bound

theorem value_nonneg (d : Decimal) : 0 ≤ d.value := by
  unfold value
  positivity

theorem roundsTo_toBits (d : Decimal) : RoundsTo d.value d.toBits := by
  unfold toBits
  split_ifs with zero large small whole
  · refine .zero d.value_nonneg ?_
    rw [value, zero, Nat.cast_zero, zero_mul, mul_zero]
    exact one_div_nonneg.mpr (Nat.cast_nonneg _)
  · exact .of_overflow (overflow_of_exponent zero large)
  · exact .zero d.value_nonneg (underflow_of_exponent small)
  · rw [value_eq_whole whole]
    simpa using roundsTo_nearestBits (d.digits * 10 ^ d.exponent.toNat) Nat.one_pos
  · rw [value_eq_ratio (by omega)]
    exact roundsTo_nearestBits d.digits (by positivity)

theorem isNearest_iff {d : Decimal} {x : Float} : d.IsNearest x ↔ x = d.toFloat := by
  constructor
  · rintro ⟨bits, rounded, rfl⟩
    rw [toFloat, rounded.unique d.roundsTo_toBits]
  · rintro rfl
    exact ⟨d.toBits, d.roundsTo_toBits, rfl⟩

end Abacus.Decimal
