/-
**Styles of writing a floating-point number.**

A style fixes everything about the text of a number that its digits leave open: which numbers are
written without an exponent, whether a whole number keeps a fraction, the sign of a positive
exponent, and how ties between shortest decimals are settled.
-/

import FlowGraph.Decimal.Shortest

namespace FlowGraph

/-- The choices that turn shortest digits into text. -/
structure NumberStyle where
  /-- Whether a number whose leading digit stands at this power of ten has no exponent. -/
  positional : Int → Bool
  /-- What follows the digits of a whole number written without an exponent. -/
  wholeEnding : String
  /-- What stands in front of an exponent that is not negative. -/
  exponentSign : String
  /-- How ties between shortest decimals are settled. -/
  tie : Tie

namespace NumberStyle

/-- The decimal digits of a natural number. -/
def digitText (n : Nat) : List Char :=
  Nat.toDigits 10 n

/-- The text of a whole number, with a minus sign where needed. -/
def integerText (n : Int) : String :=
  if n < 0 then String.ofList ('-' :: digitText n.natAbs) else String.ofList (digitText n.natAbs)

/-- The digits of a positive decimal placed around a decimal point. -/
def positionalText (style : NumberStyle) (d : Decimal) : List Char :=
  let digits := digitText d.significand
  if 0 ≤ d.exponent then
    digits ++ List.replicate d.exponent.natAbs '0' ++ style.wholeEnding.toList
  else if 0 ≤ d.leading then
    digits.take (d.leading.natAbs + 1) ++ '.' :: digits.drop (d.leading.natAbs + 1)
  else
    '0' :: '.' :: (List.replicate (d.leading.natAbs - 1) '0' ++ digits)

/-- One digit, a fraction if more digits are left, and the exponent. -/
def scientificText (style : NumberStyle) (d : Decimal) : List Char :=
  let digits := digitText d.significand
  let fraction := if digits.length ≤ 1 then [] else '.' :: digits.drop 1
  let sign := if d.leading < 0 then ['-'] else style.exponentSign.toList
  digits.take 1 ++ fraction ++ 'e' :: sign ++ digitText d.leading.natAbs

/-- The text of a finite number without its sign. -/
def unsignedText (style : NumberStyle) (x : Float) : List Char :=
  if x == 0.0 then '0' :: style.wholeEnding.toList
  else
    let d := Decimal.shortest style.tie x.abs
    if style.positional d.leading then style.positionalText d else style.scientificText d

/-- The text of a number. -/
def write (style : NumberStyle) (x : Float) : String :=
  if x.isNaN then "NaN"
  else
    let body := if x.isInf then "inf".toList else style.unsignedText x
    String.ofList (if isNegative x then '-' :: body else body)

end NumberStyle

end FlowGraph
