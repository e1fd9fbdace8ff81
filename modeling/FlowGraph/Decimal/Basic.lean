/-
**Decimals and the floating-point numbers they denote.**

A decimal is a natural number times a power of ten. `Decimal.toFloat` rounds it to the nearest
floating-point number, ties to even. `Magnitude` is the opposite view: the absolute value of a
finite floating-point number as an exact natural number times a power of two.
-/

namespace FlowGraph

/-- The number `significand * 10 ^ exponent`. -/
structure Decimal where
  significand : Nat
  exponent : Int
deriving DecidableEq

/-- Positive infinity. -/
def infinity : Float :=
  1.0 / 0.0

/-- The number of decimal digits of `n`; zero has one digit. -/
def decimalLength (n : Nat) : Nat :=
  (Nat.toDigits 10 n).length

namespace Decimal

/-- The nearest floating-point number, ties to even. Decimals from `10 ^ 310` on are infinite and
those below `10 ^ (-330)` are zero, which spares the exact computation of a needless power. -/
def toFloat (d : Decimal) : Float :=
  if d.significand = 0 then 0.0
  else if d.exponent + decimalLength d.significand > 310 then infinity
  else if d.exponent + decimalLength d.significand < -330 then 0.0
  else Float.ofScientific d.significand (d.exponent < 0) d.exponent.natAbs

/-- Takes `count` trailing zeros at most off the significand. -/
def stripZeros : Nat → Decimal → Decimal
  | 0, d => d
  | count + 1, d =>
    if d.significand ≠ 0 ∧ d.significand % 10 = 0 then
      stripZeros count ⟨d.significand / 10, d.exponent + 1⟩
    else d

/-- The same number without trailing zeros in its significand. -/
def normalize (d : Decimal) : Decimal :=
  d.stripZeros (decimalLength d.significand)

/-- The power of ten at which the leading digit stands. -/
def leading (d : Decimal) : Int :=
  d.exponent + decimalLength d.significand - 1

end Decimal

/-- The number `significand * 2 ^ exponent`. -/
structure Magnitude where
  significand : Nat
  exponent : Int
deriving DecidableEq

namespace Magnitude

/-- The exact absolute value of a finite floating-point number, read off its bits. -/
def ofFloat (x : Float) : Magnitude :=
  let bits : Nat := x.toBits.toNat
  let fraction : Nat := bits % Nat.pow 2 52
  let power : Nat := bits / Nat.pow 2 52 % Nat.pow 2 11
  if power = 0 then ⟨fraction, -1074⟩ else ⟨fraction + Nat.pow 2 52, (power : Int) - 1075⟩

/-- The numerator of the exact value over `denominator`. -/
def numerator (m : Magnitude) : Nat :=
  if m.exponent < 0 then m.significand else m.significand * Nat.pow 2 m.exponent.natAbs

/-- The denominator of the exact value: a power of two. -/
def denominator (m : Magnitude) : Nat :=
  if m.exponent < 0 then Nat.pow 2 m.exponent.natAbs else 1

/-- The power of ten at which the leading digit of a positive magnitude stands. -/
def leading (m : Magnitude) : Int :=
  if m.denominator ≤ m.numerator then
    decimalLength (m.numerator / m.denominator) - 1
  else
    -decimalLength ((m.denominator - 1) / m.numerator)

/-- The value as a natural number, when it is one. -/
def whole? (m : Magnitude) : Option Nat :=
  if m.numerator % m.denominator = 0 then some (m.numerator / m.denominator) else none

end Magnitude

/-- Whether the sign bit is set. -/
def isNegative (x : Float) : Bool :=
  x.toBits.toNat / Nat.pow 2 63 = 1

end FlowGraph
