/-
**Decimals are read as the nearest floating-point number.**

A finite floating-point number is a zero or has a sign, a mantissa and an exponent, and every
function of its bits is a function of these parts. A decimal is read in one operation when its
significand and its power of ten are floating-point numbers themselves, and by exact arithmetic
otherwise. Both ways end at the nearest number of its value.

* `ofParts`, `finite_cases`: floating-point numbers by their parts;
* `ofScientific_eq_nearest`: both ways of reading compute the nearest number;
* `Decimal.toFloat_congr`: **what is read off a decimal depends on its value only**;
* `Decimal.toFloat_of_close`: **a decimal in the interval around a floating-point number is read as
  that number.**
-/

import FlowGraph.Proofs.Rounding

namespace FlowGraph

open Float.Model Float.Model.UnpackedFloat

/-! ### Numbers by sign, mantissa and exponent -/

theorem toNat_packComponents (sign : Sign) (exponent : BitVec 11) (mantissa : BitVec 52) :
    (packComponents .binary64 sign exponent mantissa).toNat =
      sign.toBitVec.toNat * 2 ^ 63 + exponent.toNat * 2 ^ 52 + mantissa.toNat := by
  unfold packComponents
  rw [BitVec.toNat_append, BitVec.toNat_append, ← Nat.shiftLeft_add_eq_or_of_lt exponent.isLt,
    ← Nat.shiftLeft_add_eq_or_of_lt mantissa.isLt, Nat.shiftLeft_eq, Nat.shiftLeft_eq]
  ring

theorem toNat_unpackSign (bits : BitVec Format.binary64.numBits) :
    (unpackSign bits).toNat = bits.toNat / 2 ^ 63 % 2 := by
  unfold unpackSign
  simp [BitVec.extractLsb, Nat.shiftRight_eq_div_pow]

theorem unpackSign_packComponents (sign : Sign) (exponent : BitVec 11) (mantissa : BitVec 52) :
    unpackSign (packComponents .binary64 sign exponent mantissa) = sign.toBitVec := by
  refine BitVec.eq_of_toNat_eq ?_
  have bit := sign.toBitVec.isLt
  have high := exponent.isLt
  have low := mantissa.isLt
  rw [toNat_unpackSign, toNat_packComponents]
  omega

theorem ofBitVec_toBitVec (sign : Sign) : Sign.ofBitVec sign.toBitVec = sign := by
  cases sign <;> rfl

/-- The floating-point number with a sign, a mantissa and an exponent. -/
def ofParts (sign : Sign) {mantissa : ℕ} {exponent : ℤ} (canonical : Canonical mantissa exponent) :
    Float :=
  .ofModel (.pack (.finite sign mantissa exponent canonical.positive))

section Parts

variable {sign : Sign} {mantissa : ℕ} {exponent : ℤ}

/-- The components of a number: a full mantissa leaves its first place out. -/
theorem pack_finite (sign : Sign) (canonical : Canonical mantissa exponent) :
    UnpackedFloat.pack .binary64 (.finite sign mantissa exponent canonical.positive) =
      packComponents .binary64 sign
        (if 2 ^ 52 ≤ mantissa then BitVec.ofNat 11 (exponent + 1075).toNat else 0#11)
        (BitVec.ofNat 52 mantissa) := by
  obtain ⟨positive, short, least, largest, full⟩ := canonical
  have bias : Format.exponentBias .binary64 = 1023 := by decide
  have biased : exponent + (Format.exponentBias .binary64 : ℕ) + (52 : ℕ) = exponent + 1075 := by
    omega
  have inside : ¬ 2 ^ 11 ≤ (exponent + 1075).toNat + 1 := by omega
  have places : mantissa.log2 + 1 = Format.mantissaBits .binary64 ↔ 2 ^ 52 ≤ mantissa := by
    have upper : mantissa.log2 < 53 := (Nat.log2_lt positive.ne').mpr short
    rw [← Nat.le_log2 positive.ne']
    simp only [Format.mantissaBits]
    omega
  unfold UnpackedFloat.pack
  simp only [biased, inside, places, if_false]
  split <;> rfl

/-- The bits of a number: the first place of a full mantissa carries into the exponent. -/
theorem toBits_ofParts (sign : Sign) (canonical : Canonical mantissa exponent) :
    (ofParts sign canonical).toBits.toNat =
      sign.toBitVec.toNat * 2 ^ 63 + (exponent + 1074).toNat * 2 ^ 52 + mantissa := by
  show (UnpackedFloat.pack .binary64 (.finite sign mantissa exponent canonical.positive)).toNat = _
  obtain ⟨positive, short, least, largest, full⟩ := canonical
  rw [pack_finite sign ⟨positive, short, least, largest, full⟩, toNat_packComponents,
    BitVec.toNat_ofNat]
  split
  · rw [BitVec.toNat_ofNat]
    omega
  · rw [BitVec.toNat_zero]
    omega

/-- A number is unpacked into its parts. -/
theorem unpack_ofParts (sign : Sign) (canonical : Canonical mantissa exponent) :
    (ofParts sign canonical).toModel.unpack =
      .finite sign mantissa exponent canonical.positive := by
  show UnpackedFloat.unpack .binary64
    (UnpackedFloat.pack .binary64 (.finite sign mantissa exponent canonical.positive)) = _
  obtain ⟨positive, short, least, largest, full⟩ := canonical
  rw [pack_finite sign ⟨positive, short, least, largest, full⟩]
  have bias : Format.exponentBias .binary64 = 1023 := by decide
  unfold UnpackedFloat.unpack
  simp only [unpackExponent_packComponents, unpackMantissa_packComponents,
    unpackSign_packComponents, ofBitVec_toBitVec, bias]
  by_cases normal : 2 ^ 52 ≤ mantissa
  · have field : (BitVec.ofNat 11 (exponent + 1075).toNat).toNat = (exponent + 1075).toNat := by
      rw [BitVec.toNat_ofNat]
      omega
    have finite : BitVec.ofNat 11 (exponent + 1075).toNat ≠ -1#11 := fun same => by
      have := congrArg BitVec.toNat same
      rw [field] at this
      simp at this
      omega
    have full : BitVec.ofNat 11 (exponent + 1075).toNat ≠ 0#11 := fun same => by
      have := congrArg BitVec.toNat same
      rw [field, BitVec.toNat_zero] at this
      omega
    have joined : (1#1 ++ BitVec.ofNat 52 mantissa).toNat = mantissa := by
      rw [BitVec.toNat_append, ← Nat.shiftLeft_add_eq_or_of_lt (BitVec.isLt _), BitVec.toNat_ofNat,
        Nat.shiftLeft_eq]
      simp
      omega
    simp only [if_pos normal, if_neg finite, if_neg full, joined, field]
    congr 1
    omega
  · have whole : (BitVec.ofNat 52 mantissa).toNat = mantissa := by
      rw [BitVec.toNat_ofNat]
      omega
    have some : BitVec.ofNat 52 mantissa ≠ 0#52 := fun same => by
      have := congrArg BitVec.toNat same
      rw [whole, BitVec.toNat_zero] at this
      omega
    have finite : (0#11 : BitVec 11) ≠ -1#11 := by decide
    simp only [if_neg normal, if_neg finite, dif_neg some, whole, if_true, BitVec.toNat_zero]
    congr 1
    omega

/-- The magnitude of a number is its mantissa at its exponent. -/
theorem magnitude_ofParts (sign : Sign) (canonical : Canonical mantissa exponent) :
    Magnitude.ofFloat (ofParts sign canonical) = ⟨mantissa, exponent⟩ := by
  have bits := toBits_ofParts sign canonical
  have bit := sign.toBitVec.isLt
  have ⟨positive, short, least, largest, full⟩ := canonical
  by_cases normal : 2 ^ 52 ≤ mantissa
  · have field : (ofParts sign canonical).toBits.toNat / 2 ^ 52 % 2 ^ 11 =
        (exponent + 1075).toNat := by omega
    have rest : (ofParts sign canonical).toBits.toNat % 2 ^ 52 = mantissa - 2 ^ 52 := by omega
    show (if _ / 2 ^ 52 % 2 ^ 11 = 0 then _ else (⟨_ % 2 ^ 52 + 2 ^ 52, _⟩ : Magnitude)) = _
    rw [if_neg (by omega), rest]
    congr 1
    · omega
    · show ((_ / 2 ^ 52 % 2 ^ 11 : ℕ) : ℤ) - 1075 = _
      omega
  · have field : (ofParts sign canonical).toBits.toNat / 2 ^ 52 % 2 ^ 11 = 0 := by omega
    have rest : (ofParts sign canonical).toBits.toNat % 2 ^ 52 = mantissa := by omega
    show (if _ / 2 ^ 52 % 2 ^ 11 = 0 then (⟨_ % 2 ^ 52, -1074⟩ : Magnitude) else _) = _
    rw [if_pos field, rest]
    congr 1
    omega

theorem isNegative_ofParts (sign : Sign) (canonical : Canonical mantissa exponent) :
    isNegative (ofParts sign canonical) = true ↔ sign = .negative := by
  have bits := toBits_ofParts sign canonical
  have ⟨positive, short, least, largest, full⟩ := canonical
  show decide (_ / 2 ^ 63 = 1) = true ↔ _
  rw [decide_eq_true_iff]
  cases sign with
  | positive =>
    have bit : Sign.positive.toBitVec.toNat = 0 := rfl
    simp only [reduceCtorEq, iff_false]
    omega
  | negative =>
    have bit : Sign.negative.toBitVec.toNat = 1 := rfl
    simp only [iff_true]
    omega

theorem abs_ofParts (sign : Sign) (canonical : Canonical mantissa exponent) :
    (ofParts sign canonical).abs = ofParts .positive canonical := by
  show Float.ofModel (.pack (ofParts sign canonical).toModel.unpack.abs) = _
  rw [unpack_ofParts]
  rfl

theorem neg_ofParts (sign : Sign) (canonical : Canonical mantissa exponent) :
    -ofParts sign canonical = ofParts (-sign) canonical := by
  show Float.ofModel (.pack (ofParts sign canonical).toModel.unpack.neg) = _
  rw [unpack_ofParts]
  rfl

theorem isNaN_of_isFinite {x : Float} (finite : x.isFinite = true) : x.isNaN = false := by
  have unpacked : x.toModel.unpack.isFinite = true := finite
  show x.toModel.unpack.isNaN = false
  cases parts : x.toModel.unpack <;> simp_all [UnpackedFloat.isNaN, UnpackedFloat.isFinite]

theorem isInf_of_isFinite {x : Float} (finite : x.isFinite = true) : x.isInf = false := by
  have unpacked : x.toModel.unpack.isFinite = true := finite
  show x.toModel.unpack.isInf = false
  cases parts : x.toModel.unpack <;> simp_all [UnpackedFloat.isInf, UnpackedFloat.isFinite]

/-- What is neither `NaN` nor an infinity is finite. -/
theorem isFinite_of_not {x : Float} (number : x.isNaN ≠ true) (bounded : x.isInf ≠ true) :
    x.isFinite = true := by
  replace number : x.toModel.unpack.isNaN ≠ true := number
  replace bounded : x.toModel.unpack.isInf ≠ true := bounded
  show x.toModel.unpack.isFinite = true
  generalize x.toModel.unpack = parts at number bounded ⊢
  cases parts with
  | notANumber => exact absurd rfl number
  | infinity sign => exact absurd rfl bounded
  | zero sign => rfl
  | finite sign mantissa exponent => rfl

/-- The exponent bits of a finite number are not all set. -/
theorem field_of_isFinite {x : Float} (finite : x.isFinite = true) :
    x.toBits.toNat / 2 ^ 52 % 2 ^ 11 ≠ 2047 := by
  intro most
  have unpacked : x.toModel.unpack.isFinite = true := finite
  have field : @unpackExponent .binary64 x.toModel.toBits.toBitVec = -1#_ := by
    refine BitVec.eq_of_toNat_eq ?_
    rw [toNat_unpackExponent]
    exact most
  unfold Float.Model.unpack UnpackedFloat.unpack at unpacked
  dsimp only at unpacked
  rw [if_pos field] at unpacked
  split at unpacked <;> cases unpacked

/-- Every finite number is a zero or has parts. -/
theorem finite_cases {x : Float} (finite : x.isFinite = true) :
    (∃ sign, x = .ofModel (.pack (.zero sign))) ∨
      ∃ sign mantissa exponent, ∃ canonical : Canonical mantissa exponent,
        x = ofParts sign canonical := by
  have field := field_of_isFinite finite
  have bound := x.toBits.toNat_lt
  obtain ⟨sign, bit⟩ : ∃ sign : Sign, sign.toBitVec.toNat = x.toBits.toNat / 2 ^ 63 := by
    by_cases negative : x.toBits.toNat / 2 ^ 63 = 1
    · exact ⟨.negative, negative.symm⟩
    · refine ⟨.positive, ?_⟩
      show 0 = _
      omega
  have same : ∀ {mantissa exponent} (canonical : Canonical mantissa exponent),
      (exponent + 1074).toNat * 2 ^ 52 + mantissa = x.toBits.toNat % 2 ^ 63 →
        x = ofParts sign canonical := by
    intro mantissa exponent canonical parts
    refine float_ext ?_
    rw [toBits_ofParts, bit]
    omega
  by_cases normal : x.toBits.toNat / 2 ^ 52 % 2 ^ 11 = 0
  · by_cases zero : x.toBits.toNat % 2 ^ 52 = 0
    · refine Or.inl ⟨sign, float_ext ?_⟩
      show _ = (packComponents .binary64 sign 0#11 0#52).toNat
      rw [toNat_packComponents, bit, BitVec.toNat_zero, BitVec.toNat_zero]
      omega
    · exact Or.inr ⟨sign, x.toBits.toNat % 2 ^ 52, -1074,
        ⟨by omega, by omega, by omega, by omega, Or.inr rfl⟩, same _ (by omega)⟩
  · exact Or.inr ⟨sign, x.toBits.toNat % 2 ^ 52 + 2 ^ 52,
      (x.toBits.toNat / 2 ^ 52 % 2 ^ 11 : ℕ) - 1075,
      ⟨by omega, by omega, by omega, by omega, Or.inl (by omega)⟩, same _ (by omega)⟩

/-- A number that is equal to one with parts has the same parts. -/
theorem eq_of_beq_ofParts {x : Float} {canonical : Canonical mantissa exponent}
    (same : (x == ofParts sign canonical) = true) : x = ofParts sign canonical := by
  have compared : (x.toModel.unpack.compare (ofParts sign canonical).toModel.unpack == some .eq) =
      true := same
  rw [unpack_ofParts] at compared
  have finite : x.isFinite = true := by
    show x.toModel.unpack.isFinite = true
    cases unpacked : x.toModel.unpack with
    | infinity other =>
      rw [unpacked] at compared
      cases other <;> cases compared
    | notANumber =>
      rw [unpacked] at compared
      cases compared
    | zero other => rfl
    | finite other m e positive => rfl
  rcases finite_cases finite with ⟨other, rfl⟩ | ⟨other, m, e, canonical', rfl⟩
  · cases other <;> cases sign <;> cases compared
  · rw [unpack_ofParts] at compared
    have parts : other = sign ∧ m = mantissa ∧ e = exponent := by
      cases other <;> cases sign <;>
        simp [UnpackedFloat.compare] at compared ⊢
      · exact compared.symm
      · exact compared.symm
    obtain ⟨rfl, rfl, rfl⟩ := parts
    rfl

theorem beq_ofParts_self (sign : Sign) (canonical : Canonical mantissa exponent) :
    (ofParts sign canonical == ofParts sign canonical) = true := by
  show ((ofParts sign canonical).toModel.unpack.compare _ == some .eq) = true
  rw [unpack_ofParts]
  cases sign <;> simp [UnpackedFloat.compare]

@[simp] theorem ofParts_beq_zero (sign : Sign) (canonical : Canonical mantissa exponent) :
    (ofParts sign canonical == 0.0) = false := by
  have zero : (0.0 : Float).toModel.unpack = .zero .positive := by rfl
  show ((ofParts sign canonical).toModel.unpack.compare (0.0 : Float).toModel.unpack == some .eq) =
    false
  rw [unpack_ofParts, zero]
  cases sign <;> rfl

end Parts

/-! ### Decimals -/

theorem zpow_of_neg (b : ℚ) {e : ℤ} (negative : e < 0) : b ^ e = (b ^ e.natAbs)⁻¹ := by
  rw [← zpow_natCast, ← zpow_neg]
  congr 1
  omega

theorem zpow_of_not_neg (b : ℚ) {e : ℤ} (negative : ¬ e < 0) : b ^ e = b ^ e.natAbs := by
  rw [← zpow_natCast]
  congr 1
  omega

/-- A natural number of at most fifty-three places, with all of them used. -/
theorem canonical_ofNat {m : ℕ} (positive : 0 < m) (short : m < 2 ^ 53) :
    Canonical (m * 2 ^ (52 - m.log2)) (-(52 - m.log2 : ℕ)) := by
  have places : m.log2 < 53 := (Nat.log2_lt positive.ne').mpr short
  have low : 2 ^ 52 ≤ m * 2 ^ (52 - m.log2) :=
    calc 2 ^ 52 = 2 ^ m.log2 * 2 ^ (52 - m.log2) := by rw [← pow_add]; congr 1; omega
      _ ≤ m * 2 ^ (52 - m.log2) := by gcongr; exact Nat.log2_self_le positive.ne'
  have high : m * 2 ^ (52 - m.log2) < 2 ^ 53 :=
    calc m * 2 ^ (52 - m.log2) < 2 ^ (m.log2 + 1) * 2 ^ (52 - m.log2) := by
          gcongr
          exact Nat.lt_log2_self
      _ = 2 ^ 53 := by rw [← pow_add]; congr 1; omega
  exact ⟨by positivity, high, by omega, by omega, Or.inl low⟩

theorem binaryValue_ofNat (m shift : ℕ) : binaryValue (m * 2 ^ shift) (-shift) = m := by
  unfold binaryValue
  rw [zpow_neg, zpow_natCast]
  push_cast
  field_simp

/-- A natural number of at most fifty-three places is a floating-point number. -/
theorem toFloat_eq_ofParts {m : ℕ} (positive : 0 < m) (short : m < 2 ^ 53) :
    m.toUInt64.toFloat = ofParts .positive (canonical_ofNat positive short) := by
  have canonical := canonical_ofNat positive short
  have places : m.log2 < 53 := (Nat.log2_lt positive.ne').mpr short
  have exact := binaryValue_ofNat m (52 - m.log2)
  have near := nearest_of_close canonical (close_self _ _)
  rw [exact] at near
  have shift : (0 - Format.binary64.targetExponent (totalExponent m 0)).toNat = 52 - m.log2 := by
    rw [targetExponent_binary64, totalExponent]
    omega
  have rounded : UnpackedFloat.round .binary64 .positive m 0 = nearest m := by
    unfold UnpackedFloat.round decreaseExponent
    dsimp only
    rw [shift, Nat.shiftLeft_eq, zero_sub]
    refine roundWithAccuracy_eq_nearest (by exact_mod_cast positive) ?_ ?_
    · have scaled : (m : ℚ) / 2 ^ (-(52 - m.log2 : ℕ) : ℤ) = (m * 2 ^ (52 - m.log2) : ℕ) := by
        rw [zpow_neg, zpow_natCast]
        push_cast
        field_simp
      rw [scaled]
      exact Stands.exact _
    · have full : 52 ≤ (m * 2 ^ (52 - m.log2)).log2 :=
        (Nat.le_log2 canonical.positive.ne').mpr (canonical.full.resolve_right (by omega))
      rw [targetExponent_binary64, totalExponent]
      omega
  have whole : m.toUInt64.toNat = m := Nat.mod_eq_of_lt (by omega)
  have normal : UnpackedFloat.ofNat .binary64 m.toUInt64.toNat =
      UnpackedFloat.round .binary64 .positive m 0 := by
    have above : compare (m : ℤ) 0 = .gt := Int.compare_eq_gt.mpr (by exact_mod_cast positive)
    rw [whole, UnpackedFloat.ofNat, UnpackedFloat.ofInt, UnpackedFloat.normalize, above]
    rfl
  show Float.ofModel (.pack (UnpackedFloat.ofNat .binary64 m.toUInt64.toNat)) = _
  rw [normal, rounded, near]
  rfl

/-- The mantissa and the exponent of a positive finite number. -/
def positiveParts? : UnpackedFloat → Option (ℕ × ℤ)
  | .finite .positive mantissa exponent _ => some (mantissa, exponent)
  | _ => none

/-- The table of powers of ten holds full mantissas that are exact. -/
theorem positiveParts?_powerOfTen : ∀ n : Fin Float.exactlyRepresentablePowersOfTen.size,
    ∃ parts ∈ positiveParts? (Float.exactlyRepresentablePowersOfTen[n]).toModel.unpack,
      2 ^ 52 ≤ parts.1 ∧ -52 ≤ parts.2 ∧
        parts.1 * 2 ^ (parts.2 + 52).toNat = 10 ^ (n : ℕ) * 2 ^ 52 := by
  decide +kernel

/-- The powers of ten up to the twenty-second are floating-point numbers. -/
theorem unpack_powerOfTen {n : ℕ} (small : n < Float.exactlyRepresentablePowersOfTen.size) :
    ∃ (p : ℕ) (k : ℤ) (positive : 0 < p),
      (Float.exactlyRepresentablePowersOfTen[n]).toModel.unpack = .finite .positive p k positive ∧
        2 ^ 52 ≤ p ∧ binaryValue p k = 10 ^ n := by
  obtain ⟨⟨p, k⟩, found, full, least, value⟩ :=
    positiveParts?_powerOfTen ⟨n, small⟩
  dsimp only [Fin.getElem_fin] at found
  cases unpacked : (Float.exactlyRepresentablePowersOfTen[n]).toModel.unpack with
  | finite sign p' k' positive =>
    rw [unpacked] at found
    cases sign with
    | positive =>
      cases found
      refine ⟨p, k, positive, rfl, full, ?_⟩
      have cast : (p : ℚ) * 2 ^ (k + 52).toNat = 10 ^ n * 2 ^ 52 := by exact_mod_cast value
      have shift : (2 : ℚ) ^ (k + 52).toNat = 2 ^ k * 2 ^ 52 := by
        rw [← zpow_natCast, Int.toNat_of_nonneg (by linarith), zpow_add₀ two_ne_zero]
        norm_num
      rw [shift, ← mul_assoc] at cast
      exact mul_right_cancel₀ (by positivity) cast
    | negative => cases found
  | _ =>
    rw [unpacked] at found
    cases found

/-- A decimal whose significand and power of ten are both floating-point numbers takes one
operation. -/
theorem ofScientific_fast {m : ℕ} (positive : 0 < m) (short : m < 2 ^ 53) {e : ℤ}
    (small : e.natAbs ≤ 22) :
    Float.ofScientific m (e < 0) e.natAbs = .ofModel (.pack (nearest (m * 10 ^ e))) := by
  have listed : e.natAbs < Float.exactlyRepresentablePowersOfTen.size := Nat.lt_succ_of_le small
  obtain ⟨p, k, powerPositive, unpacked, full, value⟩ := unpack_powerOfTen listed
  have canonical := canonical_ofNat positive short
  have first := unpack_ofParts .positive canonical
  have exact := binaryValue_ofNat m (52 - m.log2)
  unfold Float.ofScientific
  rw [dif_pos ⟨short, small⟩]
  dsimp only
  rw [toFloat_eq_ofParts positive short]
  split
  · next negative =>
    have sign : e < 0 := of_decide_eq_true negative
    show Float.ofModel (.pack (div .binary64 (ofParts .positive canonical).toModel.unpack
      (Float.exactlyRepresentablePowersOfTen[e.natAbs]).toModel.unpack)) = _
    rw [first, unpacked, div_eq_nearest, exact, value]
    congr 3
    rw [zpow_of_neg 10 sign]
    rfl
  · next negative =>
    have sign : ¬ e < 0 := fun less => negative (decide_eq_true less)
    show Float.ofModel (.pack (mul .binary64 (ofParts .positive canonical).toModel.unpack
      (Float.exactlyRepresentablePowersOfTen[e.natAbs]).toModel.unpack)) = _
    rw [first, unpacked, mul_eq_nearest, exact, value]
    · congr 3
      rw [zpow_of_not_neg 10 sign]
    · calc 2 ^ 52 ≤ p := full
        _ ≤ _ := Nat.le_mul_of_pos_left p canonical.positive

/-- Any other decimal is computed exactly and then rounded. -/
theorem model_ofScientific {m : ℕ} (positive : 0 < m) {e : ℤ} (high : e ≤ 2 ^ 11)
    (low : -(2 ^ 11 + m.log2) ≤ e) :
    UnpackedFloat.ofScientific .binary64 m e = nearest (m * 10 ^ e) := by
  unfold UnpackedFloat.ofScientific
  rw [dif_neg positive.ne', if_neg (by exact not_lt.mpr high), if_neg (by exact not_lt.mpr low)]
  have whole : ∀ n : ℕ, binaryValue n 0 = n := fun n => by simp [binaryValue]
  split
  · next sign =>
    have shifted : binaryValue (m <<< Format.mantissaBits .binary64)
        (-(Format.mantissaBits .binary64 : ℕ)) = m := by
      rw [Nat.shiftLeft_eq]
      exact binaryValue_ofNat m 53
    have power : e.toNat = e.natAbs := by omega
    rw [mul_eq_nearest, shifted, whole, zpow_of_not_neg 10 (not_lt.mpr sign), ← power]
    · push_cast
      rfl
    · rw [Nat.shiftLeft_eq]
      calc 2 ^ 52 ≤ 1 * 2 ^ 53 * 1 := by norm_num
        _ ≤ m * 2 ^ 53 * 10 ^ e.toNat := by
            gcongr
            · exact positive
            · exact Nat.one_le_pow _ _ (by norm_num)
  · next sign =>
    have power : (-e).toNat = e.natAbs := by omega
    rw [div_eq_nearest, whole, whole, zpow_of_neg 10 (not_le.mp sign), ← power]
    push_cast
    rfl

/-- **Scientific notation is read as the nearest number**, in the range that is not cut off. -/
theorem ofScientific_eq_nearest {m : ℕ} (positive : 0 < m) {e : ℤ} (high : e ≤ 2 ^ 11)
    (low : -(2 ^ 11 + m.log2) ≤ e) :
    Float.ofScientific m (e < 0) e.natAbs = .ofModel (.pack (nearest (m * 10 ^ e))) := by
  by_cases fast : m < 2 ^ 53 ∧ e.natAbs ≤ 22
  · exact ofScientific_fast positive fast.1 fast.2
  · have power : (if decide (e < 0) = true then Int.negOfNat e.natAbs else Int.ofNat e.natAbs) =
        e := by
      simp only [decide_eq_true_iff, Int.negOfNat_eq, Int.ofNat_eq_natCast]
      split <;> omega
    unfold Float.ofScientific
    rw [dif_neg fast]
    dsimp only
    rw [power]
    exact congrArg (fun f => Float.ofModel (.pack f)) (model_ofScientific positive high low)

/-! ### The value of a decimal -/

/-- A positive number has one digit more than its logarithm. -/
theorem decimalLength_eq_log {n : ℕ} (positive : 0 < n) : decimalLength n = Nat.log 10 n + 1 := by
  refine eq_of_forall_ge_iff fun k => ?_
  cases k with
  | zero =>
    have some : 0 < decimalLength n := Nat.length_toDigits_pos
    omega
  | succ k =>
    rw [decimalLength, Nat.length_toDigits_le_iff (by decide) k.succ_pos,
      ← Nat.log_lt_iff_lt_pow (by decide) positive.ne']
    omega

namespace Decimal

variable {d : Decimal}

/-- The exact value of a decimal. -/
def value (d : Decimal) : ℚ :=
  d.significand * 10 ^ d.exponent

theorem value_pos (positive : 0 < d.significand) : 0 < d.value := by
  unfold value
  positivity

theorem value_eq_zero : d.value = 0 ↔ d.significand = 0 := by
  have unit : (10 : ℚ) ^ d.exponent ≠ 0 := by positivity
  simp [value, unit]

/-- The leading digit of a decimal stands at the logarithm of its value. -/
theorem log_value (positive : 0 < d.significand) : Int.log 10 d.value = d.leading := by
  have scaled := log_mul_zpow (b := 10) (by decide) (Nat.cast_pos.mpr positive) d.exponent
  rw [Int.log_natCast, Nat.cast_ofNat] at scaled
  unfold value leading
  rw [scaled, decimalLength_eq_log positive]
  push_cast
  ring

/-- What is read off a decimal, by the place of its leading digit. -/
theorem toFloat_eq (positive : 0 < d.significand) :
    d.toFloat = if 310 ≤ d.leading then infinity else if d.leading < -331 then 0.0
      else .ofModel (.pack (FlowGraph.nearest d.value)) := by
  have places : decimalLength d.significand ≤ d.significand.log2 + 1 := by
    rw [decimalLength_eq_log positive, Nat.log2_eq_log_two]
    exact Nat.succ_le_succ (Nat.log_anti_left (by decide) (by decide))
  have some : 0 < decimalLength d.significand := Nat.length_toDigits_pos
  unfold toFloat leading
  rw [if_neg positive.ne']
  by_cases large : 310 < d.exponent + decimalLength d.significand
  · rw [if_pos large, if_pos (by omega)]
  rw [if_neg large, if_neg (by omega : ¬ 310 ≤ d.exponent + decimalLength d.significand - 1)]
  by_cases small : d.exponent + decimalLength d.significand < -330
  · rw [if_pos small, if_pos (by omega)]
  rw [if_neg small, if_neg (by omega)]
  exact ofScientific_eq_nearest positive (by omega) (by omega)

/-- **What is read off a decimal depends on its value only.** -/
theorem toFloat_congr {d' : Decimal} (same : d.value = d'.value) : d.toFloat = d'.toFloat := by
  rcases Nat.eq_zero_or_pos d.significand with zero | positive
  · have zero' : d'.significand = 0 := value_eq_zero.mp (same ▸ value_eq_zero.mpr zero)
    unfold toFloat
    rw [if_pos zero, if_pos zero']
  · have positive' : 0 < d'.significand := Nat.pos_of_ne_zero fun zero' =>
      (value_pos positive).ne' (same.trans (value_eq_zero.mpr zero'))
    rw [toFloat_eq positive, toFloat_eq positive', ← log_value positive, ← log_value positive',
      same]

/-- **A decimal in the interval around a floating-point number is read as that number.** -/
theorem toFloat_of_close {mantissa : ℕ} {exponent : ℤ} (canonical : Canonical mantissa exponent)
    (close : Close d.value mantissa exponent) :
    d.toFloat = FlowGraph.ofParts .positive canonical := by
  have one : (1 : ℚ) ≤ mantissa := by exact_mod_cast canonical.positive
  have short : (mantissa : ℚ) + 1 ≤ 2 ^ 53 := by exact_mod_cast canonical.short
  have low : (2 : ℚ) ^ (-1075 : ℤ) < d.value :=
    calc (2 : ℚ) ^ (-1075 : ℤ) = 1 / 2 * 2 ^ (-1074 : ℤ) := by
          rw [one_div, ← zpow_neg_one, ← zpow_add₀ two_ne_zero]
          norm_num
      _ ≤ (mantissa - 1 / 2) * 2 ^ exponent := by
          gcongr
          · linarith
          · linarith
          · exact one_le_two
          · exact canonical.least
      _ < d.value := close.above
  have high : d.value < 2 ^ (1024 : ℤ) :=
    calc d.value < (mantissa + 1 / 2) * 2 ^ exponent := close.below
      _ ≤ 2 ^ 53 * 2 ^ (971 : ℤ) := by
          gcongr
          · linarith
          · exact one_le_two
          · exact canonical.largest
      _ = 2 ^ (1024 : ℤ) := by
          rw [← zpow_natCast, ← zpow_add₀ two_ne_zero]
          norm_num
  have positive : 0 < d.value := low.trans' (by positivity)
  have some : 0 < d.significand := Nat.pos_of_ne_zero fun zero =>
    positive.ne' (value_eq_zero.mpr zero)
  have finite : ¬ 310 ≤ d.leading := fun large => by
    rw [← log_value some, ← Int.zpow_le_iff_le_log (by decide) positive] at large
    have compared : 2 ^ 1024 < 10 ^ 310 := by decide +kernel
    have cast : (2 : ℚ) ^ (1024 : ℤ) < (10 : ℕ) ^ (310 : ℤ) := by exact_mod_cast compared
    linarith
  have nonzero : ¬ d.leading < -331 := fun small => by
    rw [← log_value some, ← Int.lt_zpow_iff_log_lt (by decide) positive] at small
    have compared : 2 ^ 1075 < 10 ^ 331 := by decide +kernel
    have cast : ((10 : ℕ) : ℚ) ^ (-331 : ℤ) < 2 ^ (-1075 : ℤ) := by
      rw [zpow_neg, zpow_neg]
      exact inv_strictAnti₀ (by positivity) (by exact_mod_cast compared)
    linarith
  rw [toFloat_eq some, if_neg finite, if_neg nonzero, nearest_of_close canonical close]
  rfl

end Decimal

end FlowGraph
