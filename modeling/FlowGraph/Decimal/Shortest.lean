/-
**The shortest decimal that reads back.**

Among all decimals that round to a given floating-point number, `shortest` is one with the fewest
digits, and of those the one nearest to the number. On the grid of decimals with a given number of
digits only the two neighbours of the number have to be tried: if any point of the grid reads back,
one of these does. The only freedom left is an exact tie between the two, which `Tie` settles.
-/

import FlowGraph.Decimal.Basic

namespace FlowGraph

/-- How an exact tie between two neighbouring decimals is settled. -/
inductive Tie where
  /-- The larger neighbour is taken. -/
  | up
  /-- The neighbour with an even significand is taken. -/
  | toEven
deriving DecidableEq

namespace Decimal

/-- The two neighbours of a number on a decimal grid: `lower` and `lower + 1` units, where the
number lies `rest / span` of a unit above `lower`. -/
structure Bracket where
  unit : Int
  lower : Nat
  rest : Nat
  span : Nat

/-- The neighbours of a magnitude among the multiples of `10 ^ unit`. -/
def Bracket.around (m : Magnitude) (unit : Int) : Bracket :=
  let above := if unit < 0 then m.numerator * Nat.pow 10 unit.natAbs else m.numerator
  let below := if unit < 0 then m.denominator else m.denominator * Nat.pow 10 unit.natAbs
  ⟨unit, above / below, above % below, below⟩

/-- The neighbour that is nearer to the number, an exact tie going as `tie` says. -/
def Bracket.nearest (b : Bracket) (tie : Tie) : Decimal :=
  let down : Decimal := ⟨b.lower, b.unit⟩
  let up : Decimal := ⟨b.lower + 1, b.unit⟩
  if 2 * b.rest < b.span then down
  else if b.span < 2 * b.rest then up
  else match tie with
    | .up => up
    | .toEven => if b.lower % 2 = 0 then down else up

/-- The neighbour to be written for the positive number `x`: one that reads back as `x`, the nearer
one if both do. -/
def Bracket.choose? (b : Bracket) (tie : Tie) (x : Float) : Option Decimal :=
  let down : Decimal := ⟨b.lower, b.unit⟩
  let up : Decimal := ⟨b.lower + 1, b.unit⟩
  match down.toFloat == x, up.toFloat == x with
  | true, true => some (b.nearest tie)
  | true, false => some down
  | false, true => some up
  | false, false => none

/-- The most digits that a floating-point number can need. -/
def maxDigits : Nat :=
  17

/-- The shortest decimal that reads back as the finite positive number `x`, without trailing zeros.
-/
def shortest (tie : Tie) (x : Float) : Decimal :=
  let m := Magnitude.ofFloat x
  let bracket (digits : Nat) := Bracket.around m (m.leading - digits + 1)
  let found := (List.range' 1 maxDigits).findSome? fun digits => (bracket digits).choose? tie x
  (found.getD ((bracket maxDigits).nearest tie)).normalize

end Decimal

end FlowGraph
