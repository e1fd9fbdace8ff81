/-
**Stable arrangement.**

`arrange` puts a row of things in order and keeps the old order among those that may stand either
way round.
-/

namespace FlowGraph

/-- Puts a thing in front of the first one that it may precede. -/
def insertBefore {α : Type} (precedes : α → α → Bool) (a : α) : List α → List α
  | [] => [a]
  | b :: rest => if precedes a b then a :: b :: rest else b :: insertBefore precedes a rest

/-- The things in order; the old order stays where both orders are allowed. -/
def arrange {α : Type} (precedes : α → α → Bool) (things : List α) : List α :=
  things.foldr (insertBefore precedes) []

end FlowGraph
