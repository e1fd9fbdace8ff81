/-
**The texts of numbers are numerals that denote them.**

All ways of writing a decimal set its digits in one row, with zeros in front of them or behind them,
a point somewhere in the row and an exponent that makes up for it. A numeral is scanned as far as it
goes, so it has to be followed by a character that cannot go on with it.

* `Decimal.value_ofParts`: the value of a padded row of digits;
* `Json.next?_write`: **the text of a finite number is scanned as a numeral to which the number is
  the nearest**;
* `Json.next?_integerText`: **the text of a whole number of sixty-four bits is scanned as a numeral
  that denotes it.**
-/

import FlowGraph.Json.Reader
import FlowGraph.Json.Text
import FlowGraph.Proofs.Shortest

namespace FlowGraph

/-! ### Rows of digits -/

theorem digitsValue_append (front back : List Char) :
    digitsValue (front ++ back) = digitsValue front * 10 ^ back.length + digitsValue back := by
  induction back using List.reverseRecOn with
  | nil => simp [digitsValue]
  | append_singleton back c ih =>
    have last : ∀ cs : List Char,
        digitsValue (cs ++ [c]) = digitsValue cs * 10 + (c.toNat - '0'.toNat) := fun cs => by
      simp [digitsValue]
    rw [← List.append_assoc, last, last, ih]
    simp
    ring

theorem digitsValue_zeros (count : ℕ) : digitsValue (List.replicate count '0') = 0 := by
  induction count with
  | zero => rfl
  | succ count ih =>
    rw [List.replicate_succ', digitsValue_append, ih]
    rfl

theorem digitsValue_digitText (n : ℕ) : digitsValue (NumberStyle.digitText n) = n := by
  have read := Nat.ofDigitChars_toDigits (b := 10) (n := n) (by decide) (by decide)
  unfold Nat.ofDigitChars at read
  simpa [digitsValue, NumberStyle.digitText, mul_comm] using read

theorem isDigit_of_mem_digitText {n : ℕ} {c : Char} (member : c ∈ NumberStyle.digitText n) :
    c.isDigit = true :=
  Nat.isDigit_of_mem_toDigits (by decide) (by decide) member

theorem digitText_ne_nil (n : ℕ) : NumberStyle.digitText n ≠ [] :=
  List.ne_nil_of_length_pos Nat.length_toDigits_pos

/-- The digits of a positive number do not start with a zero. -/
theorem head?_digitText {n : ℕ} (positive : 0 < n) :
    (NumberStyle.digitText n).head? ≠ some '0' := by
  unfold NumberStyle.digitText
  induction n using Nat.strong_induction_on with
  | _ n ih =>
    by_cases short : n < 10
    · rw [Nat.toDigits_of_lt_base short]
      interval_cases n <;> decide
    · have front : 0 < n / 10 := by omega
      have first := ih (n / 10) (by omega) front
      rw [← Nat.div_add_mod n 10,
        ← Nat.toDigits_append_toDigits (by decide) front (Nat.mod_lt n (by decide)),
        List.head?_append_of_ne_nil _ (List.ne_nil_of_length_pos Nat.length_toDigits_pos)]
      exact first

/-- The value of the digits of a decimal, padded with zeros. -/
theorem Decimal.value_ofParts {d : Decimal} {whole fraction : List Char} {exponent : ℤ}
    (front back : ℕ)
    (row : whole ++ fraction = List.replicate front '0' ++ NumberStyle.digitText d.significand ++
      List.replicate back '0')
    (place : exponent - fraction.length = d.exponent - back) :
    (Decimal.ofParts whole fraction exponent).value = d.value := by
  have digits : digitsValue (whole ++ fraction) = d.significand * 10 ^ back := by
    rw [row, digitsValue_append, digitsValue_append, digitsValue_zeros, digitsValue_zeros,
      digitsValue_digitText]
    simp
  unfold Decimal.ofParts Decimal.value
  rw [digits, place, zpow_sub₀ (by norm_num), zpow_natCast]
  push_cast
  field_simp

namespace Json

/-! ### Scanning a numeral -/

/-- The text behind a numeral does not go on with it. -/
def EndsNumeral (rest : List Char) : Prop :=
  ∀ c ∈ rest.head?, c.isDigit = false ∧ c ≠ '.' ∧ c ≠ 'e' ∧ c ≠ 'E'

/-- A row of digits is scanned to its end. -/
theorem spanDigits_append {digits rest : List Char} (all : ∀ c ∈ digits, c.isDigit = true)
    (ends : ∀ c ∈ rest.head?, c.isDigit = false) :
    spanDigits (digits ++ rest) = (digits, rest) := by
  unfold spanDigits
  rw [List.takeWhile_append_of_pos all, List.dropWhile_append_of_pos all]
  cases rest with
  | nil => simp
  | cons c rest => simp [ends c rfl]

theorem whole?_append {digits rest : List Char} (all : ∀ c ∈ digits, c.isDigit = true)
    (nonempty : digits ≠ []) (first : digits.head? = some '0' → digits.length = 1)
    (ends : ∀ c ∈ rest.head?, c.isDigit = false) :
    whole? (digits ++ rest) = some (digits, rest) := by
  unfold whole?
  rw [spanDigits_append all ends]
  simpa [nonempty] using first

theorem fraction?_append {digits rest : List Char} (all : ∀ c ∈ digits, c.isDigit = true)
    (nonempty : digits ≠ []) (ends : ∀ c ∈ rest.head?, c.isDigit = false) :
    fraction? ('.' :: (digits ++ rest)) = some (some digits, rest) := by
  simp [fraction?, spanDigits_append all ends, nonempty]

theorem fraction?_of_head {rest : List Char} (ends : ∀ c ∈ rest.head?, c ≠ '.') :
    fraction? rest = some (none, rest) := by
  unfold fraction?
  split
  · exact absurd rfl (ends '.' rfl)
  · rfl

theorem exponent?_of_head {rest : List Char} (ends : ∀ c ∈ rest.head?, c ≠ 'e' ∧ c ≠ 'E') :
    exponent? rest = some (none, rest) := by
  cases rest with
  | nil => rfl
  | cons c rest =>
    have other := ends c rfl
    simp [exponent?, other]

/-- An exponent with its sign. -/
theorem exponent?_append (exponent : ℤ) {rest : List Char}
    (ends : ∀ c ∈ rest.head?, c.isDigit = false) :
    exponent? ('e' :: (if exponent < 0 then ['-'] else ['+']) ++
      NumberStyle.digitText exponent.natAbs ++ rest) = some (some exponent, rest) := by
  have scanned := spanDigits_append (fun c => isDigit_of_mem_digitText (n := exponent.natAbs)) ends
  have value := digitsValue_digitText exponent.natAbs
  have nonempty := digitText_ne_nil exponent.natAbs
  by_cases negative : exponent < 0
  · simp [exponent?, spanSign, negative, scanned, nonempty, value, abs_of_neg]
  · simp [exponent?, spanSign, negative, scanned, nonempty, value,
      abs_of_nonneg (not_lt.mp negative)]

/-- The decimal that a numeral spells, its sign left out. -/
def Numeral.decimal (n : Numeral) : Decimal :=
  .ofParts n.whole (n.fraction.getD []) (n.exponent.getD 0)

/-- A numeral that cannot be taken for a whole number has the value of a decimal. -/
structure Numeral.Writes (n : Numeral) (negative : Bool) (d : Decimal) : Prop where
  sign : n.negative = negative
  broken : n.fraction.isSome = true ∨ n.exponent.isSome = true
  value : n.decimal.value = d.value

/-- A text is scanned as a numeral, whatever follows it. -/
def ScansAs (text : List Char) (n : Numeral) : Prop :=
  ∀ {rest}, EndsNumeral rest → numeral? n.negative (text ++ rest) = some (n, rest)

/-- A numeral with a fraction and without an exponent. -/
theorem scansAs_fraction (negative : Bool) {d : Decimal} (whole fraction : List Char)
    (wholeDigits : ∀ c ∈ whole, c.isDigit = true) (wholeSome : whole ≠ [])
    (first : whole.head? = some '0' → whole.length = 1)
    (fractionDigits : ∀ c ∈ fraction, c.isDigit = true) (fractionSome : fraction ≠ [])
    (value : (Decimal.ofParts whole fraction 0).value = d.value) :
    ∃ n, ScansAs (whole ++ '.' :: fraction) n ∧ n.Writes negative d := by
  refine ⟨⟨negative, whole, some fraction, none⟩, fun {rest} ends => ?_, rfl, Or.inl rfl, value⟩
  have point : ∀ c ∈ ('.' :: (fraction ++ rest)).head?, c.isDigit = false := by simp
  simp [numeral?, whole?_append wholeDigits wholeSome first point,
    fraction?_append fractionDigits fractionSome fun c member => (ends c member).1,
    exponent?_of_head fun c member => (ends c member).2.2]

/-- A numeral with one digit before the point, perhaps some behind it, and an exponent. -/
theorem scansAs_exponent (negative : Bool) {d : Decimal} (exponent : ℤ) {c : Char}
    {fraction : List Char} (digit : c.isDigit = true)
    (fractionDigits : ∀ c ∈ fraction, c.isDigit = true)
    (value : (Decimal.ofParts [c] fraction exponent).value = d.value) :
    ∃ n, ScansAs ([c] ++ ((if fraction = [] then [] else '.' :: fraction) ++
        ('e' :: (if exponent < 0 then ['-'] else ['+']) ++
          NumberStyle.digitText exponent.natAbs))) n ∧
      n.Writes negative d := by
  have single : ∀ x ∈ [c], x.isDigit = true := by simpa using digit
  refine ⟨⟨negative, [c], if fraction = [] then none else some fraction, some exponent⟩,
    fun {rest} ends => ?_, rfl, Or.inr rfl, ?_⟩
  · have scanned := exponent?_append exponent fun c member => (ends c member).1
    have mark : ∀ c ∈ ('e' :: (if exponent < 0 then ['-'] else ['+']) ++
        NumberStyle.digitText exponent.natAbs ++ rest).head?, c.isDigit = false ∧ c ≠ '.' := by simp
    rw [List.append_assoc, List.append_assoc]
    generalize 'e' :: (if exponent < 0 then ['-'] else ['+']) ++
      NumberStyle.digitText exponent.natAbs ++ rest = behind at *
    by_cases nothing : fraction = []
    · rw [if_pos nothing, if_pos nothing, List.nil_append, numeral?,
        whole?_append single (by simp) (by simp) fun c member => (mark c member).1]
      simp [fraction?_of_head fun c member => (mark c member).2, scanned]
    · rw [if_neg nothing, if_neg nothing, numeral?,
        whole?_append single (by simp) (by simp) (by simp)]
      simp [fraction?_append fractionDigits nothing fun c member => (mark c member).1, scanned]
  · unfold Numeral.decimal
    by_cases nothing : fraction = []
    · simpa [nothing] using value
    · simpa [nothing] using value

theorem isDigit_of_mem_zeros {count : ℕ} {c : Char} (member : c ∈ List.replicate count '0') :
    c.isDigit = true := by
  rw [List.eq_of_mem_replicate member]
  rfl

/-- The digits of a decimal around a point. -/
theorem scansAs_positionalText (negative : Bool) {d : Decimal} (positive : 0 < d.significand) :
    ∃ n, ScansAs (numberStyle.positionalText d) n ∧ n.Writes negative d := by
  have digits : ∀ c ∈ NumberStyle.digitText d.significand, c.isDigit = true :=
    fun c => isDigit_of_mem_digitText
  have nonempty := digitText_ne_nil d.significand
  have first := head?_digitText positive
  have length : (NumberStyle.digitText d.significand).length = decimalLength d.significand := rfl
  have leading : d.leading = d.exponent + decimalLength d.significand - 1 := rfl
  unfold NumberStyle.positionalText
  dsimp only
  by_cases large : 0 ≤ d.exponent
  · -- A whole number.
    have scanned := scansAs_fraction negative (d := d)
      (NumberStyle.digitText d.significand ++ List.replicate d.exponent.natAbs '0') ['0']
      (fun c member => (List.mem_append.mp member).elim (digits c) isDigit_of_mem_zeros)
      (List.append_ne_nil_of_left_ne_nil nonempty _)
      (fun zero => absurd (List.head?_append_of_ne_nil _ nonempty ▸ zero) first)
      (by simp) (by simp)
      (Decimal.value_ofParts 0 (d.exponent.natAbs + 1) (by simp [List.replicate_succ'])
        (by rw [List.length_singleton]; omega))
    rw [if_pos large]
    simpa [numberStyle] using scanned
  rw [if_neg large]
  by_cases inside : 0 ≤ d.leading
  · -- The point stands between two digits.
    have short : d.leading.natAbs + 1 < (NumberStyle.digitText d.significand).length := by omega
    have scanned := scansAs_fraction negative (d := d)
      ((NumberStyle.digitText d.significand).take (d.leading.natAbs + 1))
      ((NumberStyle.digitText d.significand).drop (d.leading.natAbs + 1))
      (fun c member => digits c (List.mem_of_mem_take member))
      (by simp [nonempty])
      (fun zero => absurd (by simpa [List.head?_take] using zero) first)
      (fun c member => digits c (List.mem_of_mem_drop member))
      (by simpa using short)
      (Decimal.value_ofParts 0 0 (by simp) (by simp; omega))
    rw [if_pos inside]
    simpa using scanned
  · -- The point stands before all digits.
    have one : d.leading.natAbs = d.leading.natAbs - 1 + 1 := by omega
    have scanned := scansAs_fraction negative (d := d) ['0']
      (List.replicate (d.leading.natAbs - 1) '0' ++ NumberStyle.digitText d.significand)
      (by simp) (by simp) (by simp)
      (fun c member => (List.mem_append.mp member).elim isDigit_of_mem_zeros (digits c))
      (List.append_ne_nil_of_right_ne_nil _ nonempty)
      (Decimal.value_ofParts d.leading.natAbs 0 (by rw [one, List.replicate_succ]; simp)
        (by simp; omega))
    rw [if_neg inside]
    simpa using scanned

/-- One digit, the others behind a point, and an exponent. -/
theorem scansAs_scientificText (negative : Bool) (d : Decimal) :
    ∃ n, ScansAs (numberStyle.scientificText d) n ∧ n.Writes negative d := by
  have digits : ∀ c ∈ NumberStyle.digitText d.significand, c.isDigit = true :=
    fun c => isDigit_of_mem_digitText
  have length : (NumberStyle.digitText d.significand).length = decimalLength d.significand := rfl
  have leading : d.leading = d.exponent + decimalLength d.significand - 1 := rfl
  obtain ⟨c, fraction, row⟩ := List.exists_cons_of_ne_nil (digitText_ne_nil d.significand)
  rw [row] at digits length
  have scanned := scansAs_exponent negative (d := d) d.leading
    (digits c List.mem_cons_self) (fun x member => digits x (List.mem_cons_of_mem c member))
    (Decimal.value_ofParts 0 0 (by simp [row]) (by simp at length ⊢; omega))
  unfold NumberStyle.scientificText
  rw [row]
  have short : (c :: fraction).length ≤ 1 ↔ fraction = [] := by simp
  simpa [numberStyle, short] using scanned

/-! ### The texts of numbers -/

/-- A numeral that starts with a digit is scanned as one. -/
theorem next?_of_isDigit {c : Char} {cs : List Char} (digit : c.isDigit = true) :
    Token.next? (c :: cs) =
      (numeral? false (c :: cs)).map fun found => (.number found.1, found.2) := by
  unfold Token.next?
  split
  case h_13 => rfl
  all_goals simp_all

/-- A numeral has a digit in front. -/
theorem head_of_numeral? {negative : Bool} {cs : List Char} {found : Numeral × List Char}
    (scanned : numeral? negative cs = some found) :
    ∃ c rest, cs = c :: rest ∧ c.isDigit = true := by
  cases cs with
  | nil => simp [numeral?, whole?, spanDigits] at scanned
  | cons c rest =>
    refine ⟨c, rest, rfl, ?_⟩
    by_contra other
    simp [numeral?, whole?, spanDigits, other] at scanned

/-- A numeral that writes a decimal is no whole number. -/
theorem Numeral.Writes.int? {n : Numeral} {negative : Bool} {d : Decimal}
    (writes : n.Writes negative d) : n.int? = none :=
  if_pos writes.broken

/-- The number nearest to a numeral that writes a decimal is the number nearest to the decimal. -/
theorem Numeral.Writes.float? {n : Numeral} {negative : Bool} {d : Decimal}
    (writes : n.Writes negative d)
    (finite : (if negative then -d.toFloat else d.toFloat).isFinite = true) :
    n.float? = some (if negative then -d.toFloat else d.toFloat) := by
  have value : DecimalReading.toFloat (.ofParts n.whole (n.fraction.getD [])
      (n.exponent.getD 0)) = d.toFloat := Decimal.toFloat_congr writes.value
  unfold Numeral.float?
  simp [value, writes.sign, finite]

/-- The digits of a finite number. -/
theorem scansAs_unsignedText (negative : Bool) {x : Float} (finite : x.isFinite = true) :
    ∃ n d, ScansAs (numberStyle.unsignedText x) n ∧ n.Writes negative d ∧
      d.toFloat = x.abs := by
  rcases finite_cases finite with ⟨sign, rfl⟩ | ⟨sign, mantissa, exponent, canonical, rfl⟩
  · obtain ⟨n, scanned, writes⟩ := scansAs_fraction negative (d := ⟨0, 0⟩) ['0'] ['0'] (by simp)
      (by simp) (by simp) (by simp) (by simp) (by decide +kernel)
    have text : numberStyle.unsignedText (.ofModel (.pack (.zero sign))) = "0.0".toList := by
      cases sign <;> decide +kernel
    refine ⟨n, ⟨0, 0⟩, ?_, writes, ?_⟩
    · rw [text]
      exact scanned
    · cases sign <;> decide +kernel
  · have reads := Decimal.toFloat_shortest numberStyle.tie canonical
    unfold NumberStyle.unsignedText
    rw [ofParts_beq_zero, abs_ofParts, if_neg Bool.false_ne_true]
    generalize Decimal.shortest numberStyle.tie (ofParts .positive canonical) = d at *
    have positive : 0 < d.significand := Nat.pos_of_ne_zero fun zero => by
      have same : d.toFloat = 0.0 := if_pos zero
      have other := ofParts_beq_zero .positive canonical
      rw [← reads, same] at other
      revert other
      decide +kernel
    dsimp only
    split
    · obtain ⟨n, scanned, writes⟩ := scansAs_positionalText negative positive
      exact ⟨n, d, scanned, writes, reads⟩
    · obtain ⟨n, scanned, writes⟩ := scansAs_scientificText negative d
      exact ⟨n, d, scanned, writes, reads⟩

/-- A finite number is its absolute value with its sign. -/
theorem signed_abs {x : Float} (finite : x.isFinite = true) :
    (if isNegative x then -x.abs else x.abs) = x := by
  rcases finite_cases finite with ⟨sign, rfl⟩ | ⟨sign, mantissa, exponent, canonical, rfl⟩
  · cases sign <;> decide +kernel
  · have negative := isNegative_ofParts sign canonical
    rw [abs_ofParts, neg_ofParts]
    cases sign with
    | negative => exact if_pos (negative.mpr rfl)
    | positive => exact if_neg fun set => by cases negative.mp set

/-- A numeral with its sign is a token. -/
theorem next?_of_scansAs {text rest : List Char} {n : Numeral} (scans : ScansAs text n)
    (ends : EndsNumeral rest) :
    Token.next? ((if n.negative then '-' :: text else text) ++ rest) = some (.number n, rest) := by
  have scanned := scans ends
  cases sign : n.negative with
  | true =>
    rw [sign] at scanned
    simp [Token.next?, scanned]
  | false =>
    rw [sign] at scanned
    obtain ⟨c, cs, front, digit⟩ := head_of_numeral? scanned
    rw [if_neg Bool.false_ne_true, front, next?_of_isDigit digit, ← front, scanned]
    rfl

/-- **The text of a finite number is scanned as a numeral to which the number is the nearest.** -/
theorem next?_write {x : Float} (finite : x.isFinite = true) :
    ∃ n : Numeral, n.int? = none ∧ n.float? = some x ∧ ∀ {rest}, EndsNumeral rest →
      Token.next? ((numberStyle.write x).toList ++ rest) = some (.number n, rest) := by
  obtain ⟨n, d, scans, writes, reads⟩ := scansAs_unsignedText (isNegative x) finite
  have signed := signed_abs finite
  refine ⟨n, writes.int?, ?_, fun {rest} ends => ?_⟩
  · rw [writes.float? (by rw [reads, signed]; exact finite), reads, signed]
  · have text : (numberStyle.write x).toList =
        if n.negative then '-' :: numberStyle.unsignedText x else numberStyle.unsignedText x := by
      unfold NumberStyle.write
      rw [isNaN_of_isFinite finite, isInf_of_isFinite finite, writes.sign]
      simp
    rw [text]
    exact next?_of_scansAs scans ends

/-- **The text of a whole number of sixty-four bits is scanned as a numeral that denotes it.** -/
theorem next?_integerText {i : ℤ} (low : -2 ^ 63 ≤ i) (high : i < 2 ^ 64) :
    ∃ n : Numeral, n.int? = some i ∧ ∀ {rest}, EndsNumeral rest →
      Token.next? ((NumberStyle.integerText i).toList ++ rest) = some (.number n, rest) := by
  have digits : ∀ c ∈ NumberStyle.digitText i.natAbs, c.isDigit = true :=
    fun c => isDigit_of_mem_digitText
  have first : (NumberStyle.digitText i.natAbs).head? = some '0' →
      (NumberStyle.digitText i.natAbs).length = 1 := fun zero => by
    by_cases none : i.natAbs = 0
    · rw [none]
      rfl
    · exact absurd zero (head?_digitText (Nat.pos_of_ne_zero none))
  have value := digitsValue_digitText i.natAbs
  let n : Numeral := ⟨decide (i < 0), NumberStyle.digitText i.natAbs, none, none⟩
  have scans : ScansAs (NumberStyle.digitText i.natAbs) n := fun {rest} ends => by
    simp [n, numeral?,
      whole?_append digits (digitText_ne_nil _) first fun c member => (ends c member).1,
      fraction?_of_head fun c member => (ends c member).2.1,
      exponent?_of_head fun c member => (ends c member).2.2]
  refine ⟨n, ?_, fun {rest} ends => ?_⟩
  · by_cases negative : i < 0
    · simp [n, Numeral.int?, negative, value, abs_of_neg]
      omega
    · simp [n, Numeral.int?, negative, value, abs_of_nonneg (not_lt.mp negative)]
      omega
  · have token := next?_of_scansAs scans ends
    unfold NumberStyle.integerText
    by_cases negative : i < 0
    · simpa [n, negative] using token
    · simpa [n, negative] using token

end Json

end FlowGraph
