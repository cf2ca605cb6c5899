import Mathlib
import Abacus.Decimal.Text
import Abacus.Proofs.Decimal.Nearest

/-!
What is written of a double reads back as that double. Reading depends on the value of a decimal
alone, and the search for the shortest decimal only ends with one that it has read back, or with the
exact value. Digits are taken back from left to right.
-/

namespace Abacus.Decimal

theorem RoundsTo.self {bits : ℕ} (inRange : bits ≤ infinityBits) : RoundsTo (gridValue bits) bits where
  inRange := inRange
  closest other _ := by
    rw [sub_self, abs_zero]
    exact abs_nonneg _
  even other _ different same := by
    rw [sub_self, abs_zero, eq_comm, abs_eq_zero, sub_eq_zero] at same
    exact absurd (gridValue_strictMono.injective same) different

theorem toBits_of_value {d : Decimal} {bits : ℕ} (inRange : bits ≤ infinityBits)
    (value : d.value = gridValue bits) : d.toBits = bits :=
  d.roundsTo_toBits.unique (value ▸ .self inRange)

theorem toBits_congr {d d' : Decimal} (value : d.value = d'.value) : d.toBits = d'.toBits :=
  d.roundsTo_toBits.unique (value ▸ d'.roundsTo_toBits)

theorem mul_five_pow_mul_ten_zpow (u e : ℕ) :
    ((u * Nat.pow 5 e : ℕ) : ℚ) * (10 : ℚ) ^ (-(e : ℤ)) = u / (2 ^ e : ℕ) := by
  have ten : (10 : ℚ) ^ e = 5 ^ e * 2 ^ e := by
    rw [← mul_pow]
    norm_num
  have five : (5 : ℚ) ^ e ≠ 0 := by positivity
  rw [zpow_neg, zpow_natCast, ten, Nat.pow_eq]
  push_cast
  field_simp

theorem value_exact (bits : ℕ) : (exact bits).value = gridValue bits := by
  have places : (-1074 : ℤ) = -(1074 : ℕ) := rfl
  rw [value, exact, gridValue, unitsInOne_eq, places]
  generalize (1074 : ℕ) = e
  exact mul_five_pow_mul_ten_zpow (units bits) e

theorem toBits_shortest (tie : Tie) {bits : ℕ} (inRange : bits ≤ infinityBits) :
    (shortest tie bits).toBits = bits := by
  unfold shortest
  cases found : (List.range 17).findSome? fun i =>
      (neighbours (units bits) unitsInOne (i + 1)).pick? tie bits with
  | none => exact toBits_of_value inRange (value_exact bits)
  | some d =>
    obtain ⟨i, -, picked⟩ := List.exists_of_findSome?_eq_some found
    exact Neighbours.pick?_reads_back picked

/-- The characters are digits, and this is their value. -/
structure Spells (cs : List Char) (n : ℕ) : Prop where
  isDigit : ∀ c ∈ cs, c.isDigit = true
  value : valueOfDigits cs = n

theorem valueOfDigits_append (cs ds : List Char) :
    valueOfDigits (cs ++ ds) = 10 ^ ds.length * valueOfDigits cs + valueOfDigits ds := by
  have value (cs : List Char) : valueOfDigits cs = Nat.ofDigitChars 10 cs 0 := rfl
  rw [value, value, value, Nat.ofDigitChars_append, Nat.ofDigitChars_eq_ofDigitChars_zero]

theorem decimalDigits_ne_nil (n : ℕ) : decimalDigits n ≠ [] :=
  Nat.toDigits_ne_nil

theorem spells_decimalDigits (n : ℕ) : Spells (decimalDigits n) n where
  isDigit _ := Nat.isDigit_of_mem_toDigits (by norm_num) (by norm_num)
  value := Nat.ofDigitChars_ten_toDigits

theorem isDigit_decimalDigits (n : ℕ) : ∀ c ∈ decimalDigits n, c.isDigit = true :=
  (spells_decimalDigits n).isDigit

theorem spells_padded (width n : ℕ) : Spells (padded width n) n where
  isDigit c hc := by
    cases List.mem_append.mp hc with
    | inl zero =>
      rw [(List.mem_replicate.mp zero).2]
      rfl
    | inr digit => exact isDigit_decimalDigits n c digit
  value := by
    have zeros : valueOfDigits (List.replicate (width - (decimalDigits n).length) '0') = 0 :=
      Nat.ofDigitChars_replicate_zero
    rw [padded, valueOfDigits_append, zeros, mul_zero, zero_add, (spells_decimalDigits n).value]

theorem isDigit_padded (width n : ℕ) : ∀ c ∈ padded width n, c.isDigit = true :=
  (spells_padded width n).isDigit

theorem length_padded {width n : ℕ} (pos : 0 < width) (fits : n < 10 ^ width) :
    (padded width n).length = width := by
  have short : (decimalDigits n).length ≤ width :=
    (Nat.length_toDigits_le_iff (by norm_num) pos).mpr fits
  rw [padded, List.length_append, List.length_replicate]
  omega

end Abacus.Decimal
