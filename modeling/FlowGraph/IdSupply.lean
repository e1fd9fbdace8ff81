/-
**A supply of fresh identifiers.**

New nodes, wires and parameters need identifiers that nobody else has. A supply is a stream of
identifiers with a cursor; drawing one moves the cursor. Whether the drawn identifiers are distinct
is a property of the stream, so it is a hypothesis where it matters and not built in here.
-/

import FlowGraph.Uuid

namespace FlowGraph

/-- A stream of identifiers and the place of the next one to be drawn. -/
structure IdSupply where
  draw : Nat → Uuid
  next : Nat

/-- A computation that may draw fresh identifiers. -/
abbrev Fresh (α : Type) : Type :=
  StateM IdSupply α

/-- Draws the next identifier. -/
def Fresh.id : Fresh Uuid :=
  fun supply => (supply.draw supply.next, { supply with next := supply.next + 1 })

/-- The supply that counts upwards in the last digits of a random-style identifier. -/
def IdSupply.counting : IdSupply where
  draw k := Uuid.ofNat (0x00000000000040008000000000000000 + k)
  next := 0

end FlowGraph
