/-
**Payloads of values.**

A value type is lawful if decoding undoes encoding. The types that the library supplies are lawful:
the built-in ones and the JSON types, one for every tag. The delicate case is that of numbers, where
three texts stand for what JSON cannot write: there is one `NaN`, and an infinity is known by its
sign.

* `eq_of_isNaN`, `toBits_of_isInf`: the numbers that are not finite;
* `ValueType.lawful_number`: numbers, the finite and the others;
* `Registry.Lawful`: the registries with lawful types only;
* `Registry.Built`: the registries that are built from the types of the library;
* `Registry.Built.lawful`: **every type of such a registry is lawful.**
-/

import Mathlib
import FlowGraph.Registry

namespace FlowGraph

/-! ### Numbers that are not finite -/

section Bits

open Float.Model Float.Model.UnpackedFloat

theorem toNat_unpackMantissa (bits : BitVec Format.binary64.numBits) :
    (unpackMantissa bits).toNat = bits.toNat % 2 ^ 52 := by
  unfold unpackMantissa
  simp [BitVec.extractLsb]

theorem toNat_unpackExponent (bits : BitVec Format.binary64.numBits) :
    (unpackExponent bits).toNat = bits.toNat / 2 ^ 52 % 2 ^ 11 := by
  unfold unpackExponent
  simp [BitVec.extractLsb, Nat.shiftRight_eq_div_pow]

theorem float_ext {x y : Float} (bits : x.toBits.toNat = y.toBits.toNat) : x = y := by
  obtain ⟨⟨first, _⟩⟩ := x
  obtain ⟨⟨second, _⟩⟩ := y
  have same : first = second := UInt64.toNat_inj.mp bits
  cases same
  rfl

theorem toBits_of_isNaN {x : Float} (isNaN : x.isNaN = true) :
    x.toBits.toBitVec = packedNaN .binary64 := by
  have unpacked : x.toModel.unpack.isNaN = true := isNaN
  unfold Float.Model.unpack UnpackedFloat.unpack at unpacked
  dsimp only at unpacked
  split at unpacked
  · next exponent =>
    split at unpacked
    · cases unpacked
    · next mantissa => exact x.toModel.valid.eq_packedNaN exponent mantissa
  · split at unpacked
    · split at unpacked <;> cases unpacked
    · cases unpacked

/-- **There is one `NaN`.** -/
theorem eq_of_isNaN {x y : Float} (first : x.isNaN = true) (second : y.isNaN = true) : x = y := by
  refine float_ext (congrArg BitVec.toNat ?_)
  rw [toBits_of_isNaN first, toBits_of_isNaN second]

/-- The bits of an infinity below its sign. -/
theorem toBits_of_isInf {x : Float} (isInf : x.isInf = true) :
    x.toBits.toNat / 2 ^ 52 % 2 ^ 11 = 2047 ∧ x.toBits.toNat % 2 ^ 52 = 0 := by
  have unpacked : x.toModel.unpack.isInf = true := isInf
  unfold Float.Model.unpack UnpackedFloat.unpack at unpacked
  dsimp only at unpacked
  split at unpacked
  · next exponent =>
    split at unpacked
    · next mantissa =>
      have high := congrArg BitVec.toNat exponent
      have low := congrArg BitVec.toNat mantissa
      rw [toNat_unpackExponent] at high
      rw [toNat_unpackMantissa] at low
      exact ⟨high, low⟩
    · cases unpacked
  · split at unpacked
    · split at unpacked <;> cases unpacked
    · cases unpacked

end Bits

theorem eq_infinity {x : Float} (isInf : x.isInf = true) (positive : isNegative x = false) :
    x = infinity := by
  obtain ⟨high, low⟩ := toBits_of_isInf isInf
  have bound := x.toBits.toNat_lt
  have sign : x.toBits.toNat / 2 ^ 63 ≠ 1 := of_decide_eq_false positive
  have bits : infinity.toBits.toNat = 2047 * 2 ^ 52 := by decide +kernel
  refine float_ext ?_
  rw [bits]
  omega

theorem eq_neg_infinity {x : Float} (isInf : x.isInf = true) (negative : isNegative x = true) :
    x = -infinity := by
  obtain ⟨high, low⟩ := toBits_of_isInf isInf
  have bound := x.toBits.toNat_lt
  have sign : x.toBits.toNat / 2 ^ 63 = 1 := of_decide_eq_true negative
  have bits : (-infinity).toBits.toNat = 4095 * 2 ^ 52 := by decide +kernel
  refine float_ext ?_
  rw [bits]
  omega

/-- **Every number is read back from its payload.** -/
theorem ValueType.payloadNumber?_numberPayload (x : Float) :
    payloadNumber? (numberPayload x) = some x := by
  have notANumber : (0.0 / 0.0 : Float).isNaN = true := by decide +kernel
  unfold numberPayload
  by_cases isNaN : x.isNaN = true
  · rw [if_pos isNaN]
    exact congrArg some (eq_of_isNaN notANumber isNaN)
  · rw [if_neg isNaN]
    by_cases isInf : x.isInf = true
    · rw [if_pos isInf]
      cases sign : isNegative x with
      | false => exact congrArg some (eq_infinity isInf sign).symm
      | true => exact congrArg some (eq_neg_infinity isInf sign).symm
    · rw [if_neg isInf]
      rfl

/-! ### Lawful types -/

namespace ValueType

/-- Decoding undoes encoding. -/
def Lawful (valueType : ValueType) : Prop :=
  ∀ value payload, valueType.encode value = some payload → valueType.decode payload = some value

theorem lawful_controlFlow : controlFlow.Lawful := by
  intro value payload encoded
  cases value with
  | flow state =>
    cases encoded
    cases state <;> rfl
  | _ => cases encoded

theorem lawful_number : number.Lawful := by
  intro value payload encoded
  cases value with
  | number x =>
    cases encoded
    exact congrArg (Option.map Value.number) (payloadNumber?_numberPayload x)
  | _ => cases encoded

theorem lawful_text : text.Lawful := by
  intro value payload encoded
  cases value with
  | text s =>
    cases encoded
    rfl
  | _ => cases encoded

theorem lawful_boolean : boolean.Lawful := by
  intro value payload encoded
  cases value with
  | boolean b =>
    cases encoded
    rfl
  | _ => cases encoded

theorem lawful_json (tag : TypeTag) (name : String) (default : Json) :
    (json tag name default).Lawful := by
  intro value payload encoded
  cases value with
  | custom found data =>
    have shape : (if found = tag then some data else none) = some payload := encoded
    split at shape
    · next same =>
      cases shape
      cases same
      rfl
    · cases shape
  | _ => cases encoded

end ValueType

/-! ### Registries -/

/-- The types that the library supplies: the built-in ones and JSON types. A host may register types
of its own as well. -/
inductive ValueType.Supplied : ValueType → Prop
  | number : Supplied .number
  | text : Supplied .text
  | boolean : Supplied .boolean
  | controlFlow : Supplied .controlFlow
  | json (tag : TypeTag) (name : String) (default : Json) : Supplied (.json tag name default)

theorem ValueType.Supplied.lawful {valueType : ValueType} (supplied : valueType.Supplied) :
    valueType.Lawful := by
  cases supplied with
  | number => exact lawful_number
  | text => exact lawful_text
  | boolean => exact lawful_boolean
  | controlFlow => exact lawful_controlFlow
  | json tag name default => exact lawful_json tag name default

namespace Registry

/-- All types of a registry are lawful. -/
def Lawful (registry : Registry) : Prop :=
  ∀ {tag valueType}, registry.get? tag = some valueType → valueType.Lawful

/-- The registries that are built from supplied types. -/
inductive Built : Registry → Prop
  | new : Built .new
  | register {registry : Registry} {valueType : ValueType} (before : Built registry)
      (supplied : valueType.Supplied) : Built (registry.register valueType)
  | merge {registry other : Registry} (one : Built registry) (two : Built other) :
      Built (registry.merge other)

theorem mem_place {valueType added : ValueType} {types : List ValueType}
    (member : valueType ∈ place added types) : valueType = added ∨ valueType ∈ types := by
  induction types with
  | nil => exact Or.inl (List.mem_singleton.mp member)
  | cons first rest ih =>
    unfold place at member
    split at member
    · exact (List.mem_cons.mp member).imp_right (List.mem_cons_of_mem _)
    · rcases List.mem_cons.mp member with rfl | later
      · exact Or.inr List.mem_cons_self
      · exact (ih later).imp_right (List.mem_cons_of_mem _)

theorem mem_register {registry : Registry} {valueType added : ValueType}
    (member : valueType ∈ (registry.register added).others) :
    valueType = added ∨ valueType ∈ registry.others := by
  unfold register at member
  split at member
  · exact Or.inr member
  · exact mem_place member

theorem mem_merge {registry other : Registry} {valueType : ValueType}
    (member : valueType ∈ (registry.merge other).others) :
    valueType ∈ other.others ∨ valueType ∈ registry.others := by
  have general : ∀ (added : List ValueType) (before : Registry),
      valueType ∈ (added.foldl register before).others →
        valueType ∈ added ∨ valueType ∈ before.others := by
    intro added
    induction added with
    | nil => exact fun before found => Or.inr found
    | cons first rest ih =>
      intro before found
      rcases ih (before.register first) found with later | earlier
      · exact Or.inl (List.mem_cons_of_mem _ later)
      · rcases mem_register earlier with rfl | old
        · exact Or.inl List.mem_cons_self
        · exact Or.inr old
  exact general other.others registry member

namespace Built

theorem supplied {registry : Registry} (built : registry.Built) {valueType : ValueType}
    (member : valueType ∈ registry.others) : valueType.Supplied := by
  induction built with
  | new => exact absurd member List.not_mem_nil
  | register before supplied ih =>
    rcases mem_register member with rfl | old
    · exact supplied
    · exact ih old
  | merge one two ih ih' =>
    rcases mem_merge member with new | old
    · exact ih' new
    · exact ih old

/-- **Every type of a registry built from supplied types is lawful.** -/
theorem lawful {registry : Registry} (built : registry.Built) : registry.Lawful := by
  intro tag valueType found
  rcases List.mem_cons.mp (List.mem_of_find?_eq_some found) with rfl | member
  · exact ValueType.lawful_controlFlow
  · exact (built.supplied member).lawful

end Built

theorem built_builtins : builtins.Built :=
  .register (.register (.register .new .number) .text) .boolean

end Registry

end FlowGraph
