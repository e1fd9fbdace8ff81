/-
**Reading a number from a text.**

A number text is an optional sign followed by `inf`, `infinity` or `nan` in any case, or by decimal
digits with at most one point among them, at least one digit in all, and an optional exponent.
Blanks are not allowed anywhere.
-/

import FlowGraph.Decimal.Basic

namespace FlowGraph

/-- The number that a row of decimal digits spells. -/
def digitsValue (digits : List Char) : Nat :=
  digits.foldl (fun value c => value * 10 + (c.toNat - '0'.toNat)) 0

/-- A row of digits in front, and what follows it. -/
def spanDigits (cs : List Char) : List Char × List Char :=
  (cs.takeWhile Char.isDigit, cs.dropWhile Char.isDigit)

/-- An optional sign in front: whether it is a minus, and what follows it. -/
def spanSign : List Char → Bool × List Char
  | '-' :: rest => (true, rest)
  | '+' :: rest => (false, rest)
  | cs => (false, cs)

namespace Decimal

/-- The decimal with the given digits before and after the point and the given exponent. -/
def ofParts (whole fraction : List Char) (exponent : Int) : Decimal :=
  ⟨digitsValue (whole ++ fraction), exponent - fraction.length⟩

/-- An exponent that fills the rest of the text; an empty rest means exponent zero. -/
def readExponent? : List Char → Option Int
  | [] => some 0
  | c :: rest =>
    if c = 'e' ∨ c = 'E' then
      let (negative, digits) := spanSign rest
      if digits ≠ [] ∧ digits.all Char.isDigit then
        some (if negative then -(digitsValue digits : Int) else digitsValue digits)
      else none
    else none

/-- An unsigned decimal that fills the text. -/
def read? (cs : List Char) : Option Decimal :=
  let (whole, afterWhole) := spanDigits cs
  let (fraction, rest) :=
    match afterWhole with
    | '.' :: tail => spanDigits tail
    | _ => ([], afterWhole)
  if whole = [] ∧ fraction = [] then none
  else (readExponent? rest).map (ofParts whole fraction)

end Decimal

/-- The number that a text without its sign spells. -/
def readUnsigned? (cs : List Char) : Option Float :=
  let name := cs.map Char.toLower
  if name = "inf".toList ∨ name = "infinity".toList then some infinity
  else if name = "nan".toList then some (0.0 / 0.0)
  else (Decimal.read? cs).map Decimal.toFloat

/-- The number that a text spells, if it spells one. -/
def readNumber? (text : String) : Option Float :=
  let (negative, cs) := spanSign text.toList
  (readUnsigned? cs).map fun x => if negative then -x else x

end FlowGraph
