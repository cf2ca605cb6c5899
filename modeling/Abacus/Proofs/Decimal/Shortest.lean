import Mathlib
import Abacus.Proofs.Decimal.Written

/-!
The search for the shortest decimal always finds one. A double lies between two decimals of
seventeen digits whose distance is less than that of the double to its own neighbours, so the nearer
of the two reads back as the double. No double is therefore written out exactly, and none has a long
text.
-/

namespace Abacus.Decimal

theorem lt_ten_pow_digitCount (n : ℕ) : n < 10 ^ digitCount n :=
  (Nat.length_toDigits_le_iff (by norm_num) Nat.length_toDigits_pos).mp le_rfl

theorem ten_pow_digitCount_le {n : ℕ} (pos : 0 < n) : 10 ^ (digitCount n - 1) ≤ n := by
  by_cases single : digitCount n - 1 = 0
  · rw [single, pow_zero]
    exact pos
  · rw [← Nat.not_lt, ← Nat.length_toDigits_le_iff (by norm_num) (by omega)]
    have some_digit : 0 < digitCount n := Nat.length_toDigits_pos
    rw [digitCount] at *
    omega

/-- `10 ^ e` is the greatest power of ten that is not above `v`. -/
structure Leads (e : ℤ) (v : ℚ) : Prop where
  le : (10 : ℚ) ^ e ≤ v
  lt : v < (10 : ℚ) ^ (e + 1)

theorem leads_leadingExponent {num den : ℕ} (numPos : 0 < num) (denPos : 0 < den) :
    Leads (leadingExponent num den) (num / den) := by
  have den_pos : (0 : ℚ) < den := by exact_mod_cast denPos
  unfold leadingExponent
  split_ifs with large
  · have pos : 0 < num / den := Nat.div_pos large denPos
    have some_digit : 0 < digitCount (num / den) := Nat.length_toDigits_pos
    have exponent : (digitCount (num / den) : ℤ) - 1 = (digitCount (num / den) - 1 : ℕ) := by omega
    constructor
    · rw [exponent, zpow_natCast, le_div_iff₀ den_pos]
      exact_mod_cast (Nat.le_div_iff_mul_le denPos).mp (ten_pow_digitCount_le pos)
    · rw [sub_add_cancel, zpow_natCast, div_lt_iff₀ den_pos]
      exact_mod_cast (Nat.div_lt_iff_lt_mul denPos).mp (lt_ten_pow_digitCount (num / den))
  · have pos : 0 < (den - 1) / num := Nat.div_pos (by omega) numPos
    have some_digit : 0 < digitCount ((den - 1) / num) := Nat.length_toDigits_pos
    have below := (Nat.le_div_iff_mul_le numPos).mp (ten_pow_digitCount_le pos)
    have above := (Nat.div_lt_iff_lt_mul numPos).mp (lt_ten_pow_digitCount ((den - 1) / num))
    have exponent : -(digitCount ((den - 1) / num) : ℤ) + 1 =
        -(digitCount ((den - 1) / num) - 1 : ℕ) := by omega
    constructor
    · rw [zpow_neg, zpow_natCast, le_div_iff₀ den_pos, inv_mul_le_iff₀ (by positivity)]
      exact_mod_cast (show den ≤ 10 ^ digitCount ((den - 1) / num) * num by omega)
    · rw [exponent, zpow_neg, zpow_natCast, div_lt_iff₀ den_pos, lt_inv_mul_iff₀ (by positivity)]
      exact_mod_cast (show 10 ^ (digitCount ((den - 1) / num) - 1) * num < den by omega)

theorem inUnits_ratio (num : ℕ) {den : ℕ} (denPos : 0 < den) (e : ℤ) :
    0 < (inUnits num den e).2 ∧
      (num / den : ℚ) = (inUnits num den e).1 / (inUnits num den e).2 * 10 ^ e := by
  have den_ne : (den : ℚ) ≠ 0 := by exact_mod_cast denPos.ne'
  unfold inUnits
  split_ifs with whole
  · obtain ⟨n, rfl⟩ := Int.eq_ofNat_of_zero_le whole
    refine ⟨Nat.mul_pos denPos (Nat.pow_pos (by norm_num)), ?_⟩
    rw [Int.toNat_natCast, Nat.pow_eq, zpow_natCast]
    push_cast
    field_simp
  · obtain ⟨n, rfl⟩ : ∃ n : ℕ, e = -n := ⟨(-e).toNat, by omega⟩
    refine ⟨denPos, ?_⟩
    rw [neg_neg, Int.toNat_natCast, Nat.pow_eq, zpow_neg, zpow_natCast]
    push_cast
    field_simp

/-- The number lies between the two, which are one step of the grid apart. -/
structure Neighbours.Enclose (p : Neighbours) (v : ℚ) (step : ℤ) : Prop where
  below : p.below.value ≤ v
  above : v < p.above.value
  apart : p.above.value = p.below.value + 10 ^ step
  below_exponent : step ≤ p.below.exponent
  above_exponent : step ≤ p.above.exponent

theorem value_neighbours_below (num den count : ℕ) : (neighbours num den count).below.value =
    (neighbours num den count).below.digits * 10 ^ (leadingExponent num den - count + 1) := rfl

theorem neighbours_above (num den count : ℕ) : (neighbours num den count).above =
    if (neighbours num den count).below.digits + 1 = 10 ^ count then
      ⟨1, leadingExponent num den - count + 1 + count⟩
    else ⟨(neighbours num den count).below.digits + 1, leadingExponent num den - count + 1⟩ := rfl

theorem value_neighbours_above (num den count : ℕ) : (neighbours num den count).above.value =
    ((neighbours num den count).below.digits + 1) * 10 ^ (leadingExponent num den - count + 1) := by
  rw [neighbours_above]
  split_ifs with carry
  · have digits : ((neighbours num den count).below.digits + 1 : ℚ) = 10 ^ count := by
      exact_mod_cast carry
    rw [digits, value, zpow_add₀ (by norm_num), zpow_natCast]
    push_cast
    ring
  · rw [value]
    push_cast
    rfl

theorem neighbours_floor (num : ℕ) {den : ℕ} (count : ℕ) (denPos : 0 < den) :
    ∃ v : ℚ, (num / den : ℚ) = v * 10 ^ (leadingExponent num den - count + 1) ∧
      (neighbours num den count).below.digits ≤ v ∧
      v < (neighbours num den count).below.digits + 1 := by
  obtain ⟨pos, ratio⟩ := inUnits_ratio num denPos (leadingExponent num den - count + 1)
  have pos' : (0 : ℚ) < (inUnits num den (leadingExponent num den - count + 1)).2 := by
    exact_mod_cast pos
  refine ⟨_, ratio, Nat.cast_div_le, ?_⟩
  rw [div_lt_iff₀ pos']
  exact_mod_cast (Nat.div_lt_iff_lt_mul pos).mp (Nat.lt_succ_self _)

theorem neighbours_enclose (num : ℕ) {den : ℕ} (count : ℕ) (denPos : 0 < den) :
    (neighbours num den count).Enclose (num / den) (leadingExponent num den - count + 1) := by
  obtain ⟨v, ratio, floor, ceiling⟩ := neighbours_floor num count denPos
  have step_pos : (0 : ℚ) < 10 ^ (leadingExponent num den - count + 1) := by positivity
  refine ⟨?below, ?above, ?apart, le_rfl, ?exponent⟩
  case below =>
    rw [ratio, value_neighbours_below]
    exact mul_le_mul_of_nonneg_right floor step_pos.le
  case above =>
    rw [ratio, value_neighbours_above]
    exact mul_lt_mul_of_pos_right ceiling step_pos
  case apart =>
    rw [value_neighbours_above, value_neighbours_below]
    ring
  case exponent =>
    rw [neighbours_above]
    split_ifs
    · dsimp only
      omega
    · exact le_rfl

theorem value_neighbours_above_le {num den : ℕ} (count : ℕ) (numPos : 0 < num) (denPos : 0 < den) :
    (neighbours num den count).above.value ≤ 10 ^ (leadingExponent num den + 1) := by
  obtain ⟨v, ratio, floor, -⟩ := neighbours_floor num count denPos
  have lt := (leads_leadingExponent numPos denPos).lt
  have step_pos : (0 : ℚ) < 10 ^ (leadingExponent num den - count + 1) := by positivity
  have power : (10 : ℚ) ^ (leadingExponent num den + 1) =
      (10 ^ count : ℕ) * 10 ^ (leadingExponent num den - count + 1) := by
    rw [Nat.cast_pow, ← zpow_natCast, Nat.cast_ofNat, ← zpow_add₀ (by norm_num)]
    congr 1
    omega
  rw [ratio, power] at lt
  have fits : ((neighbours num den count).below.digits : ℚ) < (10 ^ count : ℕ) :=
    floor.trans_lt (lt_of_mul_lt_mul_right lt step_pos.le)
  rw [value_neighbours_above, power]
  refine mul_le_mul_of_nonneg_right ?_ step_pos.le
  exact_mod_cast fits

theorem gridValue_succ_le (bits : ℕ) :
    gridValue (bits + 1) ≤ 2 ^ 53 * (gridValue (bits + 1) - gridValue bits) := by
  obtain ⟨k, m, rfl, large, small⟩ := exists_scaled bits
  have pos : (0 : ℚ) < unitsInOne := by exact_mod_cast unitsInOne_pos
  have step : ((m + 1) * 2 ^ k : ℚ) ≤ 2 ^ 53 * ((m + 1) * 2 ^ k - m * 2 ^ k) := by
    have fits : (m + 1 : ℚ) ≤ 2 ^ 53 := by exact_mod_cast small
    have := mul_le_mul_of_nonneg_right fits (by positivity : (0 : ℚ) ≤ 2 ^ k)
    linarith
  rw [gridValue, gridValue, Nat.add_assoc, units_scaled (by omega) small,
    units_scaled large small.le, ← sub_div, mul_div_assoc', div_le_div_iff_of_pos_right pos]
  exact_mod_cast step

theorem ten_zpow_mul (lead : ℤ) : (10 : ℚ) ^ (lead - (17 : ℕ) + 1) * 10 ^ 16 = 10 ^ lead := by
  rw [← zpow_natCast, ← zpow_add₀ (by norm_num)]
  congr 1
  omega

theorem lt_of_mul_le {s v gap : ℚ} (fine : s * 10 ^ 16 ≤ v) (wide : v ≤ 2 ^ 53 * gap)
    (pos : 0 < gap) : s < gap := by
  have digits : (2 ^ 53 : ℚ) < 10 ^ 16 := by norm_num
  nlinarith

/-- With seventeen digits, the nearer of the two neighbours reads back. -/
theorem neighbours_read_back {bits : ℕ} (pos : 0 < bits) (finite : bits < infinityBits) :
    (neighbours (units bits) unitsInOne 17).below.toBits = bits ∨
      (neighbours (units bits) unitsInOne 17).above.toBits = bits := by
  obtain ⟨b, rfl⟩ : ∃ b, bits = b + 1 := ⟨bits - 1, by omega⟩
  have units_pos : 0 < units (b + 1) := units_strictMono pos
  have leads := leads_leadingExponent units_pos unitsInOne_pos
  obtain ⟨below, above, apart, -, -⟩ := neighbours_enclose (units (b + 1)) 17 unitsInOne_pos
  have fine := (ten_zpow_mul (leadingExponent (units (b + 1)) unitsInOne)).trans_le leads.le
  generalize neighbours (units (b + 1)) unitsInOne 17 = p at *
  generalize (10 : ℚ) ^ (leadingExponent (units (b + 1)) unitsInOne - (17 : ℕ) + 1) = s at *
  change p.below.value ≤ gridValue (b + 1) at below
  change gridValue (b + 1) < p.above.value at above
  change s * 10 ^ 16 ≤ gridValue (b + 1) at fine
  have lower := gridValue_strictMono (Nat.lt_succ_self b)
  have upper := gridValue_strictMono (Nat.lt_succ_self (b + 1))
  have down := lt_of_mul_le fine (gridValue_succ_le b) (by linarith)
  have up := lt_of_mul_le (fine.trans upper.le) (gridValue_succ_le (b + 1)) (by linarith)
  by_cases nearer : p.above.value - gridValue (b + 1) ≤ gridValue (b + 1) - p.below.value
  · right
    refine p.above.roundsTo_toBits.unique (.of_lower finite.le above.le ?_ fun tie => ?_)
    · linarith
    · linarith
  · left
    refine p.below.roundsTo_toBits.unique (.of_upper finite.le below ?_ fun tie => ?_)
    · linarith
    · linarith

theorem exists_pick? {bits : ℕ} (pos : 0 < bits) (finite : bits < infinityBits) (tie : Tie) :
    ∃ d, (neighbours (units bits) unitsInOne 17).pick? tie bits = some d := by
  unfold Neighbours.pick?
  obtain below | above := neighbours_read_back pos finite
  · rw [below, BEq.rfl]
    split <;> simp_all
  · rw [above, BEq.rfl]
    split <;> simp_all

theorem Neighbours.pick?_cases {p : Neighbours} {tie : Tie} {bits : ℕ} {d : Decimal}
    (h : p.pick? tie bits = some d) : d = p.below ∨ d = p.above := by
  unfold Neighbours.pick? at h
  split at h
  · rw [Option.some.injEq] at h
    subst h
    unfold Neighbours.nearer
    split
    · exact .inl rfl
    · exact .inr rfl
    · exact .inr rfl
    · split_ifs
      · exact .inl rfl
      · exact .inr rfl
  · exact .inl (Option.some.inj h).symm
  · exact .inr (Option.some.inj h).symm
  · cases h

/-- A decimal of few digits: not above the power of ten after its first digit, and with at most
sixteen digits after that one. -/
structure IsShort (lead : ℤ) (d : Decimal) : Prop where
  value_le : d.value ≤ 10 ^ (lead + 1)
  le_exponent : lead - 16 ≤ d.exponent

theorem isShort_shortest (tie : Tie) {bits : ℕ} (pos : 0 < bits) (finite : bits < infinityBits) :
    IsShort (leadingExponent (units bits) unitsInOne) (shortest tie bits) := by
  unfold shortest
  cases found : (List.range 17).findSome? fun i =>
      (neighbours (units bits) unitsInOne (i + 1)).pick? tie bits with
  | none =>
    obtain ⟨d, picked⟩ := exists_pick? pos finite tie
    have unpicked := List.findSome?_eq_none_iff.mp found 16 (List.mem_range.mpr (by norm_num))
    rw [picked] at unpicked
    cases unpicked
  | some d =>
    obtain ⟨i, member, picked⟩ := List.exists_of_findSome?_eq_some found
    have few : i < 17 := List.mem_range.mp member
    have enclosed := neighbours_enclose (units bits) (i + 1) unitsInOne_pos
    have reach := value_neighbours_above_le (i + 1) (units_strictMono pos) unitsInOne_pos
    generalize neighbours (units bits) unitsInOne (i + 1) = p at *
    generalize leadingExponent (units bits) unitsInOne = lead at *
    have below := enclosed.below_exponent
    have above := enclosed.above_exponent
    push_cast at below above
    rw [Option.getD_some]
    cases Neighbours.pick?_cases picked with
    | inl same =>
      rw [same]
      exact ⟨(enclosed.below.trans enclosed.above.le).trans reach, by omega⟩
    | inr same =>
      rw [same]
      exact ⟨reach, by omega⟩

theorem length_decimalDigits_le {n k : ℕ} (pos : 0 < k) (fits : (n : ℚ) < 10 ^ k) :
    (decimalDigits n).length ≤ k :=
  (Nat.length_toDigits_le_iff (by norm_num) pos).mpr (by exact_mod_cast fits)

theorem length_positional_le {d : Decimal} {k : ℕ} (pos : 0 < k) (small : d.value < 10 ^ k) :
    (positional d []).length ≤ k + 1 + (-d.exponent).toNat := by
  rw [positional]
  split_ifs with whole
  · rw [value_eq_whole whole] at small
    have := length_decimalDigits_le pos small
    rw [List.length_append, List.length_nil]
    exact (Nat.add_le_add_right this 0).trans (by omega)
  · have places : 0 < (-d.exponent).toNat := by omega
    rw [value_eq_ratio (by omega)] at small
    have first := length_decimalDigits_le pos (Nat.cast_div_le.trans_lt small)
    have further := length_padded places (Nat.mod_lt d.digits (Nat.pow_pos (by norm_num)))
    rw [List.length_append, List.length_cons]
    exact (Nat.add_le_add first (Nat.succ_le_succ further.le)).trans (by omega)

theorem gridValue_infinityBits_le : gridValue infinityBits ≤ (10 : ℚ) ^ ((342 : ℕ) : ℤ) := by
  have power : 2 ^ 1024 ≤ 10 ^ 342 := two_pow_le_ten_pow (by norm_num)
  have bound := Nat.mul_le_mul_right unitsInOne power
  rw [← units_infinityBits] at bound
  rw [gridValue, div_le_iff₀ (by exact_mod_cast unitsInOne_pos), zpow_natCast]
  exact_mod_cast bound

theorem le_gridValue_one : (10 : ℚ) ^ (-((358 : ℕ) : ℤ)) ≤ gridValue 1 := by
  have power : 2 ^ 1074 ≤ 10 ^ 358 := two_pow_le_ten_pow (by norm_num)
  rw [← unitsInOne_eq] at power
  rw [gridValue_one, zpow_neg, zpow_natCast, ← one_div]
  refine one_div_le_one_div_of_le (by exact_mod_cast unitsInOne_pos) ?_
  exact_mod_cast power

theorem leadingExponent_lt {bits : ℕ} (pos : 0 < bits) (finite : bits < infinityBits) :
    leadingExponent (units bits) unitsInOne < 342 := by
  have leads := leads_leadingExponent (units_strictMono pos) unitsInOne_pos
  have power := leads.le.trans_lt ((gridValue_strictMono finite).trans_le gridValue_infinityBits_le)
  exact (zpow_lt_zpow_iff_right₀ (by norm_num)).mp power

theorem le_leadingExponent {bits : ℕ} (pos : 0 < bits) :
    -359 < leadingExponent (units bits) unitsInOne := by
  have leads := leads_leadingExponent (units_strictMono pos) unitsInOne_pos
  have bottom := le_gridValue_one.trans (gridValue_strictMono.monotone pos)
  have power := bottom.trans_lt leads.lt
  have := (zpow_lt_zpow_iff_right₀ (by norm_num)).mp power
  omega

theorem length_positional_shortest (tie : Tie) {bits : ℕ} (pos : 0 < bits)
    (finite : bits < infinityBits) : (positional (shortest tie bits) []).length ≤ 400 := by
  have short := isShort_shortest tie pos finite
  have high := leadingExponent_lt pos finite
  have low := le_leadingExponent pos
  generalize leadingExponent (units bits) unitsInOne = lead at *
  have fits : (shortest tie bits).value < 10 ^ ((lead + 2).toNat + 1) := by
    refine short.value_le.trans_lt ?_
    rw [← zpow_natCast]
    exact zpow_lt_zpow_right₀ (by norm_num) (by omega)
  have exponent := short.le_exponent
  exact (length_positional_le (Nat.succ_pos _) fits).trans (by omega)

end Abacus.Decimal
