/-
**Rounding to the nearest floating-point number.**

Products, quotients and decimals are all rounded by one machine: it shifts a mantissa to the right,
keeps one bit for the place right behind the last one and one for all places behind that, and rounds
at the end. What comes out depends on nothing but the exact value.

* `Stands`: what a mantissa and its two bits stand for;
* `nearest`: the nearest floating-point number of a rational number;
* `roundWithAccuracy_eq_nearest`: **the machine computes the nearest number**, whatever mantissa and
  exponent it starts with, if these have enough places;
* `mul_eq_nearest`, `div_eq_nearest`: products and quotients;
* `nearest_of_close`: **a value in the interval around a floating-point number is rounded to that
  number.**
-/

import FlowGraph.Proofs.Payloads

namespace FlowGraph

open Float.Model Float.Model.UnpackedFloat

/-! ### Mantissas with two bits -/

/-- A mantissa with its two bits stands for a number: it is the whole part, the first bit says
whether the rest is a half or more, and the second one whether it is neither nothing nor a half. -/
def Stands (em : ExtendedMantissa) (v : ℚ) : Prop :=
  match em.roundBit, em.stickyBit with
  | false, false => v = em.mantissa
  | false, true => (em.mantissa : ℚ) < v ∧ v < em.mantissa + 1 / 2
  | true, false => v = em.mantissa + 1 / 2
  | true, true => (em.mantissa : ℚ) + 1 / 2 < v ∧ v < em.mantissa + 1

/-- The nearest natural number, ties to even. -/
def roundHalfEven (v : ℚ) : ℕ :=
  if v < ⌊v⌋₊ + 1 / 2 then ⌊v⌋₊
  else if v = ⌊v⌋₊ + 1 / 2 then ⌊v⌋₊ + ⌊v⌋₊ % 2
  else ⌊v⌋₊ + 1

namespace Stands

variable {em : ExtendedMantissa} {v : ℚ}

theorem bounds (stands : Stands em v) : (em.mantissa : ℚ) ≤ v ∧ v < em.mantissa + 1 := by
  obtain ⟨mantissa, round, sticky⟩ := em
  cases round <;> cases sticky <;> simp only [Stands] at stands <;> constructor <;> linarith

theorem floor (stands : Stands em v) : ⌊v⌋₊ = em.mantissa := by
  obtain ⟨low, high⟩ := stands.bounds
  exact (Nat.floor_eq_iff (le_trans (Nat.cast_nonneg _) low)).mpr ⟨low, high⟩

theorem roundedMantissa (stands : Stands em v) : em.roundedMantissa = roundHalfEven v := by
  unfold roundHalfEven
  rw [stands.floor]
  obtain ⟨mantissa, round, sticky⟩ := em
  cases round <;> cases sticky <;> simp only [Stands] at stands
  · rw [if_pos (by linarith)]
    rfl
  · rw [if_pos stands.2]
    rfl
  · rw [if_neg (by linarith), if_pos stands]
    rfl
  · rw [if_neg (by linarith), if_neg (by linarith)]
    rfl

/-- A shift halves the number. -/
theorem shiftRightOne (stands : Stands em v) : Stands em.shiftRightOne (v / 2) := by
  obtain ⟨mantissa, round, sticky⟩ := em
  have whole : ((mantissa % 2 : ℕ) : ℚ) + 2 * ((mantissa / 2 : ℕ) : ℚ) = mantissa := by
    exact_mod_cast Nat.mod_add_div mantissa 2
  rcases Nat.mod_two_eq_zero_or_one mantissa with even | odd
  · rw [even] at whole
    cases round <;> cases sticky <;>
      simp [Stands, ExtendedMantissa.shiftRightOne, even] at stands whole ⊢ <;>
      (try constructor) <;> linarith
  · rw [odd] at whole
    cases round <;> cases sticky <;>
      simp [Stands, ExtendedMantissa.shiftRightOne, odd] at stands whole ⊢ <;>
      (try constructor) <;> linarith

theorem shiftRight (stands : Stands em v) (places : ℕ) :
    Stands (em >>> places) (v / 2 ^ places) := by
  show Stands (places.repeat ExtendedMantissa.shiftRightOne em) _
  induction places with
  | zero => simpa [Nat.repeat] using stands
  | succ places ih =>
    have next := ih.shiftRightOne
    rw [div_div, ← pow_succ] at next
    exact next

/-- A natural number is exact. -/
theorem exact (n : ℕ) : Stands (.ofMantissaAndAccuracy n .exact) n := rfl

/-- A quotient comes with its remainder. -/
theorem quotient (n : ℕ) {d : ℕ} (positive : 0 < d) :
    Stands (.ofMantissaAndAccuracy (n / d) (accuracyOfFraction (n % d) d)) (n / d : ℚ) := by
  have size : (0 : ℚ) < d := by exact_mod_cast positive
  have whole : (n : ℚ) = d * (n / d : ℕ) + (n % d : ℕ) := by
    exact_mod_cast (Nat.div_add_mod n d).symm
  have below : ((n % d : ℕ) : ℚ) < d := by exact_mod_cast Nat.mod_lt n positive
  have value : (n / d : ℚ) = (n / d : ℕ) + (n % d : ℕ) / d := by
    rw [whole]
    field_simp
  have rest : ((n % d : ℕ) : ℚ) / d < 1 := (div_lt_one size).mpr below
  rw [value]
  unfold accuracyOfFraction
  split
  · next none =>
    rw [none]
    simp [Stands, ExtendedMantissa.ofMantissaAndAccuracy]
  · next some =>
    have left : 0 < ((n % d : ℕ) : ℚ) / d := by
      have : 0 < n % d := Nat.pos_of_ne_zero some
      positivity
    rcases lt_trichotomy (2 * (n % d)) d with less | same | more
    · have below : ((n % d : ℕ) : ℚ) / d < 1 / 2 := by
        rw [div_lt_div_iff₀ size two_pos]
        exact_mod_cast (by omega : n % d * 2 < 1 * d)
      rw [Nat.compare_eq_lt.mpr less]
      show ((n / d : ℕ) : ℚ) < _ ∧ _ < ((n / d : ℕ) : ℚ) + 1 / 2
      exact ⟨by linarith, by linarith⟩
    · have equal : ((n % d : ℕ) : ℚ) / d = 1 / 2 := by
        rw [div_eq_div_iff size.ne' two_ne_zero]
        exact_mod_cast (by omega : n % d * 2 = 1 * d)
      rw [Nat.compare_eq_eq.mpr same]
      show _ = _
      rw [equal]
      rfl
    · have above : 1 / 2 < ((n % d : ℕ) : ℚ) / d := by
        rw [div_lt_div_iff₀ two_pos size]
        exact_mod_cast (by omega : 1 * d < n % d * 2)
      rw [Nat.compare_eq_gt.mpr more]
      show ((n / d : ℕ) : ℚ) + 1 / 2 < _ ∧ _ < ((n / d : ℕ) : ℚ) + 1
      exact ⟨by linarith, by linarith⟩

end Stands

/-! ### The nearest floating-point number -/

/-- The exponent of the floating-point numbers around a positive number. -/
def exponentAround (v : ℚ) : ℤ :=
  Format.binary64.targetExponent (Int.log 2 v + 1)

/-- A mantissa at an exponent; one that is too long is shifted. -/
def settled (mantissa : ℕ) (exponent : ℤ) : UnpackedFloat :=
  let final := shiftToTargetExponent .binary64 mantissa exponent .exact
  if nonzero : final.1.mantissa = 0 then .zero .positive
  else .finite .positive final.1.mantissa final.2 (Nat.pos_of_ne_zero nonzero)

/-- The nearest floating-point number of a positive number, ties to even. -/
def nearest (v : ℚ) : UnpackedFloat :=
  settled (roundHalfEven (v / 2 ^ exponentAround v)) (exponentAround v)

theorem targetExponent_binary64 (place : ℤ) :
    Format.binary64.targetExponent place = max (place - 53) (-1074) := by
  simp [Format.targetExponent, Format.mantissaBits, Format.minExponent]

theorem log_mul_zpow {b : ℕ} (base : 1 < b) {v : ℚ} (positive : 0 < v) (e : ℤ) :
    Int.log b (v * (b : ℚ) ^ e) = Int.log b v + e := by
  have size : (0 : ℚ) < b := by exact_mod_cast base.trans' one_pos
  have scaled : 0 < v * (b : ℚ) ^ e := by positivity
  refine eq_of_forall_le_iff fun k => ?_
  rw [← Int.zpow_le_iff_le_log base scaled, ← sub_le_iff_le_add,
    ← Int.zpow_le_iff_le_log base positive, zpow_sub₀ size.ne', div_le_iff₀ (by positivity)]

/-- The places of a quotient are those of the number, if there are enough of them. -/
theorem targetExponent_eq {v : ℚ} {q : ℕ} {e : ℤ} (positive : 0 < v)
    (low : (q : ℚ) ≤ v / 2 ^ e) (high : v / 2 ^ e < q + 1)
    (enough : e ≤ Format.binary64.targetExponent (totalExponent q e)) :
    Format.binary64.targetExponent (totalExponent q e) = exponentAround v := by
  have scaled : v = v / 2 ^ e * 2 ^ e := by field_simp
  have part : 0 < v / 2 ^ e := by positivity
  have place : Int.log 2 v = Int.log 2 (v / 2 ^ e) + e := by
    conv_lhs => rw [scaled]
    exact log_mul_zpow one_lt_two part e
  have floor : ⌊v / 2 ^ e⌋₊ = q := (Nat.floor_eq_iff part.le).mpr ⟨low, high⟩
  unfold exponentAround
  rw [place]
  rw [targetExponent_binary64] at enough ⊢
  rw [targetExponent_binary64]
  unfold totalExponent at *
  by_cases none : q = 0
  · -- All places are below the last one that a floating-point number can have.
    rw [none, Nat.cast_zero, zero_add] at high
    have below : Int.log 2 (v / 2 ^ e) < 0 :=
      (Int.lt_zpow_iff_log_lt one_lt_two part).mp (by simpa using high)
    rw [none, Nat.log2_zero] at enough ⊢
    omega
  · have one : 1 ≤ v / 2 ^ e := le_trans (by exact_mod_cast Nat.pos_of_ne_zero none) low
    rw [Int.log_of_one_le_right 2 one, floor, Nat.log2_eq_log_two]
    omega

/-- **The machine computes the nearest number.** -/
theorem roundWithAccuracy_eq_nearest {v : ℚ} {q : ℕ} {e : ℤ} {accuracy : Accuracy}
    (positive : 0 < v) (stands : Stands (.ofMantissaAndAccuracy q accuracy) (v / 2 ^ e))
    (enough : e ≤ Format.binary64.targetExponent (totalExponent q e)) :
    roundWithAccuracy .binary64 .positive q e accuracy = nearest v := by
  have mantissa : (ExtendedMantissa.ofMantissaAndAccuracy q accuracy).mantissa = q := by
    cases accuracy with
    | exact => rfl
    | inexact side => cases side <;> rfl
  obtain ⟨low, high⟩ := stands.bounds
  rw [mantissa] at low high
  have places := targetExponent_eq positive low high enough
  have reached : e + ((exponentAround v - e).toNat : ℤ) = exponentAround v := by omega
  have shifted := (stands.shiftRight (exponentAround v - e).toNat).roundedMantissa
  have exact : v / 2 ^ e / 2 ^ (exponentAround v - e).toNat = v / 2 ^ exponentAround v := by
    rw [div_div, ← zpow_natCast, ← zpow_add₀ two_ne_zero, reached]
  rw [exact] at shifted
  unfold roundWithAccuracy nearest settled
  have first : shiftToTargetExponent .binary64 q e accuracy =
      (ExtendedMantissa.ofMantissaAndAccuracy q accuracy >>> (exponentAround v - e).toNat,
        exponentAround v) := by
    unfold shiftToTargetExponent shiftToExponent
    dsimp only
    rw [places, reached]
  rw [first]
  dsimp only
  rw [shifted]

/-- The exact value of a mantissa at an exponent. -/
def binaryValue (mantissa : ℕ) (exponent : ℤ) : ℚ :=
  mantissa * 2 ^ exponent

theorem binaryValue_pos {mantissa : ℕ} (positive : 0 < mantissa) (exponent : ℤ) :
    0 < binaryValue mantissa exponent := by
  unfold binaryValue
  positivity

/-- A product with enough places is rounded to the nearest number. -/
theorem mul_eq_nearest {m n : ℕ} (e k : ℤ) (first : 0 < m) (second : 0 < n)
    (enough : 2 ^ 52 ≤ m * n) :
    mul .binary64 (.finite .positive m e first) (.finite .positive n k second) =
      nearest (binaryValue m e * binaryValue n k) := by
  have positive := mul_pos (binaryValue_pos first e) (binaryValue_pos second k)
  have value : binaryValue m e * binaryValue n k / 2 ^ (e + k) = (m * n : ℕ) := by
    unfold binaryValue
    rw [zpow_add₀ two_ne_zero]
    push_cast
    field_simp
  refine roundWithAccuracy_eq_nearest positive ?_ ?_
  · rw [value]
    exact Stands.exact (m * n)
  · have places : 52 ≤ (m * n).log2 := (Nat.le_log2 (by positivity)).mpr enough
    rw [targetExponent_binary64, totalExponent]
    omega

/-- **A quotient is rounded to the nearest number.** -/
theorem div_eq_nearest {m n : ℕ} (e k : ℤ) (first : 0 < m) (second : 0 < n) :
    div .binary64 (.finite .positive m e first) (.finite .positive n k second) =
      nearest (binaryValue m e / binaryValue n k) := by
  have positive := div_pos (binaryValue_pos first e) (binaryValue_pos second k)
  let target : ℤ :=
    min (e - k) (Format.binary64.targetExponent (totalExponent m e - totalExponent n k))
  let shift : ℕ := (e - k - target).toNat
  have shifted : (shift : ℤ) = e - k - target := by omega
  have value : binaryValue m e / binaryValue n k / 2 ^ target = ((m <<< shift : ℕ) : ℚ) / n := by
    have power : (2 : ℚ) ^ (shift : ℤ) = 2 ^ e / 2 ^ k / 2 ^ target := by
      rw [shifted, zpow_sub₀ two_ne_zero, zpow_sub₀ two_ne_zero]
    unfold binaryValue
    rw [Nat.shiftLeft_eq]
    push_cast
    rw [← zpow_natCast, power]
    field_simp
  refine roundWithAccuracy_eq_nearest positive (e := target) ?_ ?_
  · rw [value]
    exact Stands.quotient _ second
  · show target ≤ Format.binary64.targetExponent (totalExponent ((m <<< shift) / n) target)
    have places : target ≤
        Format.binary64.targetExponent (totalExponent m e - totalExponent n k) := min_le_right ..
    rw [targetExponent_binary64] at places ⊢
    unfold totalExponent at places ⊢
    by_cases least : target ≤ -1074
    · omega
    · -- The quotient has at least fifty-three places.
      have more : 52 + (n.log2 + 1) ≤ m.log2 + shift := by omega
      have enough : 2 ^ 52 ≤ (m <<< shift) / n := by
        rw [Nat.le_div_iff_mul_le second, Nat.shiftLeft_eq]
        calc 2 ^ 52 * n ≤ 2 ^ 52 * 2 ^ (n.log2 + 1) := by gcongr; exact Nat.lt_log2_self.le
          _ = 2 ^ (52 + (n.log2 + 1)) := (pow_add ..).symm
          _ ≤ 2 ^ (m.log2 + shift) := Nat.pow_le_pow_right two_pos more
          _ = 2 ^ m.log2 * 2 ^ shift := pow_add ..
          _ ≤ m * 2 ^ shift := by gcongr; exact Nat.log2_self_le first.ne'
      have := (Nat.le_log2 (by positivity)).mpr enough
      omega

/-! ### Values near a floating-point number -/

/-- The mantissas and exponents of finite floating-point numbers: all places are used, unless the
exponent is the least one. -/
structure Canonical (mantissa : ℕ) (exponent : ℤ) : Prop where
  positive : 0 < mantissa
  short : mantissa < 2 ^ 53
  least : -1074 ≤ exponent
  largest : exponent ≤ 971
  full : 2 ^ 52 ≤ mantissa ∨ exponent = -1074

/-- A value lies in the interval around a floating-point number: less than half a unit away, and
less than a quarter below a power of two, where the numbers stand closer. -/
structure Close (v : ℚ) (mantissa : ℕ) (exponent : ℤ) : Prop where
  above : (mantissa - 1 / 2) * 2 ^ exponent < v
  below : v < (mantissa + 1 / 2) * 2 ^ exponent
  power : mantissa = 2 ^ 52 → (mantissa - 1 / 4) * 2 ^ exponent < v

theorem close_self (mantissa : ℕ) (exponent : ℤ) :
    Close (binaryValue mantissa exponent) mantissa exponent := by
  have unit : (0 : ℚ) < 2 ^ exponent := by positivity
  unfold binaryValue
  exact ⟨by linarith, by linarith, fun _ => by linarith⟩

theorem roundHalfEven_eq {v : ℚ} {n : ℕ} (above : (n : ℚ) - 1 / 2 < v) (below : v < n + 1 / 2) :
    roundHalfEven v = n := by
  unfold roundHalfEven
  by_cases low : (n : ℚ) ≤ v
  · have floor : ⌊v⌋₊ = n :=
      (Nat.floor_eq_iff (le_trans (Nat.cast_nonneg n) low)).mpr ⟨low, by linarith⟩
    rw [floor, if_pos below]
  · cases n with
    | zero =>
      rw [Nat.cast_zero] at low
      rw [Nat.floor_of_nonpos (by linarith), if_pos (by push_cast; linarith)]
    | succ n =>
      push_cast at above below low
      have size : (0 : ℚ) ≤ n := Nat.cast_nonneg n
      have floor : ⌊v⌋₊ = n := (Nat.floor_eq_iff (by linarith)).mpr ⟨by linarith, by linarith⟩
      rw [floor, if_neg (by linarith), if_neg (by linarith)]

/-- A mantissa that is not too long stays. -/
theorem settled_of_canonical {mantissa : ℕ} {exponent : ℤ}
    (canonical : Canonical mantissa exponent) :
    settled mantissa exponent = .finite .positive mantissa exponent canonical.positive := by
  have nonzero := canonical.positive.ne'
  have places : mantissa.log2 < 53 := (Nat.log2_lt nonzero).mpr canonical.short
  have stays : (Format.binary64.targetExponent (totalExponent mantissa exponent) - exponent).toNat =
      0 := by
    have least := canonical.least
    rw [targetExponent_binary64, totalExponent]
    omega
  have final : shiftToTargetExponent .binary64 mantissa exponent .exact =
      (⟨mantissa, false, false⟩, exponent) := by
    unfold shiftToTargetExponent shiftToExponent
    dsimp only
    rw [stays]
    simp [HShiftRight.hShiftRight, Nat.repeat, ExtendedMantissa.ofMantissaAndAccuracy]
  unfold settled
  simp only [final, nonzero, ↓reduceDIte]

/-- A mantissa that rounding has made too long is a power of two. -/
theorem settled_carry {exponent : ℤ} (least : -1074 ≤ exponent) :
    settled (2 ^ 53) exponent = .finite .positive (2 ^ 52) (exponent + 1) (by decide) := by
  have moves : (Format.binary64.targetExponent (totalExponent (2 ^ 53) exponent) - exponent).toNat =
      1 := by
    rw [targetExponent_binary64, totalExponent, Nat.log2_two_pow]
    omega
  have final : shiftToTargetExponent .binary64 (2 ^ 53) exponent .exact =
      (⟨2 ^ 52, false, false⟩, exponent + 1) := by
    unfold shiftToTargetExponent shiftToExponent
    dsimp only
    rw [moves]
    rfl
  unfold settled
  simp only [final]
  rfl

/-- A value of the same exponent. -/
theorem nearest_of_exponentAround {v : ℚ} {mantissa : ℕ} {exponent : ℤ}
    (canonical : Canonical mantissa exponent) (close : Close v mantissa exponent)
    (same : exponentAround v = exponent) :
    nearest v = .finite .positive mantissa exponent canonical.positive := by
  have unit : (0 : ℚ) < 2 ^ exponent := by positivity
  have rounded : roundHalfEven (v / 2 ^ exponent) = mantissa :=
    roundHalfEven_eq ((lt_div_iff₀ unit).mpr close.above) ((div_lt_iff₀ unit).mpr close.below)
  unfold nearest
  rw [same, rounded, settled_of_canonical canonical]

/-- A value just below a power of two has a smaller exponent and is rounded up. -/
theorem nearest_of_power {v : ℚ} {exponent : ℤ} (least : -1074 < exponent)
    (above : ((2 ^ 52 : ℕ) - 1 / 4) * 2 ^ exponent < v)
    (below : v < 2 ^ 52 * 2 ^ exponent) (smaller : exponentAround v = exponent - 1) :
    nearest v = .finite .positive (2 ^ 52) exponent (by decide) := by
  have unit : (0 : ℚ) < 2 ^ (exponent - 1) := by positivity
  have double : (2 : ℚ) ^ exponent = 2 * 2 ^ (exponent - 1) := by
    rw [← zpow_one_add₀ two_ne_zero]
    congr 1
    omega
  rw [double] at above below
  push_cast at above
  have rounded : roundHalfEven (v / 2 ^ (exponent - 1)) = 2 ^ 53 := by
    refine roundHalfEven_eq ((lt_div_iff₀ unit).mpr ?_) ((div_lt_iff₀ unit).mpr ?_)
    · push_cast
      linarith
    · push_cast
      linarith
  unfold nearest
  rw [smaller, rounded, settled_carry (by omega)]
  congr 1
  omega

/-- **A value in the interval around a floating-point number is rounded to that number.** -/
theorem nearest_of_close {v : ℚ} {mantissa : ℕ} {exponent : ℤ}
    (canonical : Canonical mantissa exponent) (close : Close v mantissa exponent) :
    nearest v = .finite .positive mantissa exponent canonical.positive := by
  have unit : (0 : ℚ) < 2 ^ exponent := by positivity
  have one : (1 : ℚ) ≤ mantissa := by exact_mod_cast canonical.positive
  have short : (mantissa : ℚ) + 1 ≤ 2 ^ 53 := by exact_mod_cast canonical.short
  have positive : 0 < v := lt_of_le_of_lt (mul_nonneg (by linarith) unit.le) close.above
  have below : ∀ {place : ℕ}, v < 2 ^ place * 2 ^ exponent ↔ Int.log 2 v < place + exponent := by
    intro place
    rw [← Int.lt_zpow_iff_log_lt one_lt_two positive, Nat.cast_ofNat, zpow_add₀ two_ne_zero,
      zpow_natCast]
  have high : Int.log 2 v < (53 : ℕ) + exponent := below.mp <|
    lt_of_lt_of_le close.below (mul_le_mul_of_nonneg_right (by linarith) unit.le)
  have around : exponentAround v = max (Int.log 2 v + 1 - 53) (-1074) := targetExponent_binary64 _
  have least := canonical.least
  rcases canonical.full with full | lowest
  · rcases full.eq_or_lt with power | more
    · have low : ¬ Int.log 2 v < (51 : ℕ) + exponent := fun less => by
        have := below.mpr less
        have := close.power power.symm
        rw [← power] at this
        push_cast at this
        linarith
      by_cases smaller : exponentAround v = exponent - 1
      · subst power
        exact nearest_of_power (by omega) (close.power rfl) (below.mpr (by omega)) smaller
      · exact nearest_of_exponentAround canonical close (by omega)
    · have low : ¬ Int.log 2 v < (52 : ℕ) + exponent := fun less => by
        have moreCast : (2 ^ 52 : ℚ) + 1 ≤ mantissa := by exact_mod_cast more
        have := below.mpr less
        have := close.above
        nlinarith
      exact nearest_of_exponentAround canonical close (by omega)
  · exact nearest_of_exponentAround canonical close (by omega)

end FlowGraph
