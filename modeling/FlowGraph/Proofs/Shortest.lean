/-
**The shortest decimal reads back.**

The two neighbours of a floating-point number among the decimals with some number of digits are
tried in turn, and one that reads back is taken. At seventeen digits one always does: the nearer
neighbour is at most half a unit of its last digit away, which is less than half of the distance to
the next floating-point number, and less than a quarter of it at a power of two.

* `Magnitude.leading_eq_log`: the leading digit of a number stands at its logarithm;
* `Decimal.close_of_fine`: decimals of seventeen digits are fine enough;
* `Decimal.toFloat_shortest`: **the shortest decimal reads back.**
-/

import FlowGraph.Decimal.Shortest
import FlowGraph.Proofs.Decimals

namespace FlowGraph

/-! ### Exact magnitudes -/

namespace Magnitude

variable {m : Magnitude}

/-- The exact value of a magnitude. -/
def value (m : Magnitude) : ℚ :=
  binaryValue m.significand m.exponent

theorem denominator_pos (m : Magnitude) : 0 < m.denominator := by
  unfold denominator
  split <;> simp

theorem numerator_pos (positive : 0 < m.significand) : 0 < m.numerator := by
  unfold numerator
  split
  · exact positive
  · exact Nat.mul_pos positive (Nat.pow_pos two_pos)

/-- Numerator and denominator are those of the value. -/
theorem value_eq_div (m : Magnitude) : m.value = m.numerator / m.denominator := by
  unfold value binaryValue numerator denominator
  by_cases negative : m.exponent < 0
  · rw [if_pos negative, if_pos negative, zpow_of_neg 2 negative, ← div_eq_mul_inv]
    simp
  · rw [if_neg negative, if_neg negative, zpow_of_not_neg 2 negative]
    simp

/-- The leading digit of a magnitude stands at the logarithm of its value. -/
theorem leading_eq_log (positive : 0 < m.significand) : m.leading = Int.log 10 m.value := by
  have above := numerator_pos positive
  have below := m.denominator_pos
  have aboveCast : (0 : ℚ) < m.numerator := by exact_mod_cast above
  have belowCast : (0 : ℚ) < m.denominator := by exact_mod_cast below
  have some : 0 < m.value := m.value_eq_div ▸ div_pos aboveCast belowCast
  unfold leading
  by_cases large : m.denominator ≤ m.numerator
  · have one : 1 ≤ m.value := by
      rw [m.value_eq_div, one_le_div belowCast]
      exact_mod_cast large
    rw [if_pos large, Int.log_of_one_le_right 10 one, m.value_eq_div, Nat.floor_div_eq_div,
      decimalLength_eq_log (Nat.div_pos large below)]
    simp
  · -- The inverse of the value, rounded down to a number below it, has the digits that are missing.
    rw [if_neg large]
    generalize counted : (m.denominator - 1) / m.numerator = k
    have count : 0 < k := counted ▸ Nat.div_pos (by omega) above
    have length := decimalLength_eq_log count
    have low : 10 ^ (decimalLength k - 1) ≤ k := by
      rw [length, Nat.add_sub_cancel]
      exact Nat.pow_log_le_self 10 count.ne'
    have high : k < 10 ^ decimalLength k := by
      rw [length]
      exact Nat.lt_pow_succ_log_self (by decide) k
    have lowest : ((10 : ℕ) : ℚ) ^ (-(decimalLength k : ℤ)) ≤ m.value := by
      have whole : m.denominator ≤ m.numerator * 10 ^ decimalLength k := by
        have := (Nat.div_lt_iff_lt_mul above).mp (counted.trans_lt high)
        rw [mul_comm]
        omega
      rw [m.value_eq_div, zpow_neg, zpow_natCast, inv_eq_one_div,
        div_le_div_iff₀ (by positivity) belowCast, one_mul]
      exact_mod_cast whole
    have highest : m.value < ((10 : ℕ) : ℚ) ^ (-(decimalLength k : ℤ) + 1) := by
      have whole : m.numerator * 10 ^ (decimalLength k - 1) < m.denominator := by
        have := (Nat.le_div_iff_mul_le above).mp (low.trans_eq counted.symm)
        rw [mul_comm]
        omega
      have power : -(decimalLength k : ℤ) + 1 = -((decimalLength k - 1 : ℕ) : ℤ) := by omega
      rw [m.value_eq_div, power, zpow_neg, zpow_natCast, inv_eq_one_div,
        div_lt_div_iff₀ belowCast (by positivity), one_mul]
      exact_mod_cast whole
    rw [Int.zpow_le_iff_le_log (by decide) some] at lowest
    rw [Int.lt_zpow_iff_log_lt (by decide) some] at highest
    omega

end Magnitude

/-! ### Neighbours on a decimal grid -/

namespace Decimal

/-- The lower neighbour is the number rounded down. -/
theorem Bracket.lower_around (m : Magnitude) (unit : ℤ) :
    (around m unit).lower = ⌊m.value / 10 ^ unit⌋₊ := by
  rw [m.value_eq_div]
  by_cases negative : unit < 0
  · show (if unit < 0 then _ else _) / (if unit < 0 then _ else _) = _
    rw [zpow_of_neg 10 negative, div_inv_eq_mul, div_mul_eq_mul_div, if_pos negative,
      if_pos negative, ← Nat.floor_div_eq_div (K := ℚ)]
    simp
  · show (if unit < 0 then _ else _) / (if unit < 0 then _ else _) = _
    rw [zpow_of_not_neg 10 negative, div_div, if_neg negative, if_neg negative,
      ← Nat.floor_div_eq_div (K := ℚ)]
    simp

variable {mantissa : ℕ} {exponent : ℤ}

/-- **Decimals of seventeen digits are fine enough**: one that is at most half a unit away from a
number is in the interval around it. -/
theorem close_of_fine (canonical : Canonical mantissa exponent) {unit v : ℚ}
    (fine : 10 ^ 16 * unit ≤ binaryValue mantissa exponent)
    (above : binaryValue mantissa exponent - unit / 2 ≤ v)
    (below : v ≤ binaryValue mantissa exponent + unit / 2) : Close v mantissa exponent := by
  have size : (0 : ℚ) < 2 ^ exponent := by positivity
  have short : (mantissa : ℚ) < 2 ^ 53 := by exact_mod_cast canonical.short
  unfold binaryValue at fine above below
  have half : unit / 2 < 1 / 2 * 2 ^ exponent := by nlinarith
  refine ⟨by linarith, by linarith, fun power => ?_⟩
  have quarter : unit / 2 < 1 / 4 * 2 ^ exponent := by
    rw [power] at fine
    push_cast at fine
    linarith
  linarith

theorem toFloat_choose? {b : Bracket} {tie : Tie} {x : Float} {d : Decimal}
    (chosen : b.choose? tie x = some d) : (d.toFloat == x) = true := by
  have either : b.nearest tie = ⟨b.lower, b.unit⟩ ∨ b.nearest tie = ⟨b.lower + 1, b.unit⟩ := by
    unfold Bracket.nearest
    dsimp only
    split
    · exact Or.inl rfl
    split
    · exact Or.inr rfl
    cases tie with
    | up => exact Or.inr rfl
    | toEven =>
      dsimp only
      split
      · exact Or.inl rfl
      · exact Or.inr rfl
  unfold Bracket.choose? at chosen
  dsimp only at chosen
  split at chosen
  · next down up =>
    cases chosen
    rcases either with same | same
    · rw [same]
      exact down
    · rw [same]
      exact up
  · next down up =>
    cases chosen
    exact down
  · next down up =>
    cases chosen
    exact up
  · cases chosen

theorem value_stripZeros (count : ℕ) (d : Decimal) : (d.stripZeros count).value = d.value := by
  induction count generalizing d with
  | zero => rfl
  | succ count ih =>
    unfold stripZeros
    split
    · next zero =>
      have whole : (d.significand : ℚ) = (d.significand / 10 : ℕ) * 10 := by
        exact_mod_cast (Nat.div_mul_cancel (Nat.dvd_of_mod_eq_zero zero.2)).symm
      rw [ih]
      unfold value
      rw [whole, zpow_add₀ (by norm_num), zpow_one]
      ring
    · rfl

theorem value_normalize (d : Decimal) : d.normalize.value = d.value :=
  value_stripZeros _ d

/-- On a grid that is fine enough a neighbour reads back. -/
theorem choose?_ne_none (tie : Tie) (canonical : Canonical mantissa exponent) {b : Bracket}
    (fine : 10 ^ 16 * 10 ^ b.unit ≤ binaryValue mantissa exponent)
    (low : b.lower * 10 ^ b.unit ≤ binaryValue mantissa exponent)
    (high : binaryValue mantissa exponent < (b.lower + 1) * 10 ^ b.unit) :
    b.choose? tie (FlowGraph.ofParts .positive canonical) ≠ none := by
  have reads : ∀ {d : Decimal}, Close d.value mantissa exponent →
      (d.toFloat == FlowGraph.ofParts .positive canonical) = true := fun close => by
    rw [toFloat_of_close canonical close]
    exact beq_ofParts_self .positive canonical
  intro none
  unfold Bracket.choose? at none
  dsimp only at none
  split at none
  case h_4 down up =>
    rcases le_total (binaryValue mantissa exponent - b.lower * 10 ^ b.unit) (10 ^ b.unit / 2) with
      near | near
    · have close : Close (Decimal.value ⟨b.lower, b.unit⟩) mantissa exponent := by
        refine close_of_fine canonical fine ?_ ?_ <;> unfold Decimal.value <;> linarith
      exact Bool.false_ne_true (down.symm.trans (reads close))
    · have close : Close (Decimal.value ⟨b.lower + 1, b.unit⟩) mantissa exponent := by
        refine close_of_fine canonical fine ?_ ?_ <;> unfold Decimal.value <;> push_cast <;>
          linarith
      exact Bool.false_ne_true (up.symm.trans (reads close))
  all_goals cases none

/-- **The shortest decimal reads back.** -/
theorem toFloat_shortest (tie : Tie) (canonical : Canonical mantissa exponent) :
    (shortest tie (FlowGraph.ofParts .positive canonical)).toFloat =
      FlowGraph.ofParts .positive canonical := by
  have positive := binaryValue_pos canonical.positive exponent
  unfold shortest
  dsimp only
  rw [magnitude_ofParts, toFloat_congr (value_normalize _)]
  have place := Magnitude.leading_eq_log (m := ⟨mantissa, exponent⟩) canonical.positive
  generalize Magnitude.leading ⟨mantissa, exponent⟩ = leading at *
  cases found : (List.range' 1 maxDigits).findSome? fun digits : ℕ =>
      (Bracket.around ⟨mantissa, exponent⟩ (leading - digits + 1)).choose? tie
        (FlowGraph.ofParts .positive canonical) with
  | some d =>
    obtain ⟨digits, _, chosen⟩ := List.exists_of_findSome?_eq_some found
    exact eq_of_beq_ofParts (toFloat_choose? chosen)
  | none =>
    -- Seventeen digits are tried at last, and they are enough.
    have last := List.findSome?_eq_none_iff.mp found maxDigits (by decide)
    have size : (0 : ℚ) < 10 ^ (leading - maxDigits + 1) := by positivity
    have lower := Bracket.lower_around ⟨mantissa, exponent⟩ (leading - maxDigits + 1)
    have low := Nat.floor_le (div_nonneg positive.le size.le)
    have high :=
      Nat.lt_floor_add_one (binaryValue mantissa exponent / 10 ^ (leading - maxDigits + 1))
    rw [le_div_iff₀ size] at low
    rw [div_lt_iff₀ size] at high
    have fine : (10 : ℚ) ^ 16 * 10 ^ (leading - maxDigits + 1) ≤ binaryValue mantissa exponent := by
      have power : (10 : ℚ) ^ 16 * 10 ^ (leading - maxDigits + 1) = (10 : ℕ) ^ leading := by
        rw [← zpow_natCast, ← zpow_add₀ (by norm_num), Nat.cast_ofNat]
        congr 1
        rw [maxDigits]
        push_cast
        ring
      rw [power, place]
      exact Int.zpow_log_le_self (by decide) positive
    refine absurd last (choose?_ne_none tie canonical fine ?_ ?_)
    · rw [lower]
      exact low
    · rw [lower]
      exact high

end Decimal

end FlowGraph
