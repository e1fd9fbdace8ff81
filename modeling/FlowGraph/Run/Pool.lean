/-
**The pool of a run.**

During a run every value that is known so far lies in a pool, together with the slot that it belongs
to: a value set by hand belongs to an input slot, a value computed by a node to an output slot. The
pool only grows, so a wire always delivers the first value that was produced at its start.
-/

import FlowGraph.Arrange
import FlowGraph.Graph.Basic

namespace FlowGraph

/-- Where a value of the pool belongs. -/
inductive Origin where
  /-- An output slot, for a value that a node has produced. -/
  | produced (place : Place)
  /-- An input slot, for a value set by hand. -/
  | manual (place : Place)
deriving DecidableEq

/-- A value of the pool and where it belongs. -/
structure Datum where
  origin : Origin
  value : Value
deriving DecidableEq

/-- The values that are known so far, oldest first. -/
abbrev Pool : Type :=
  List Datum

/-- A value for an input slot. -/
abbrev Feed : Type :=
  Nat × Value

namespace Pool

/-- The values set by hand on the node at an index. -/
def ofSlots (index : Nat) (values : Slots) : Pool :=
  values.entries.map fun entry => ⟨.manual ⟨index, entry.1⟩, entry.2⟩

/-- The values that the node at an index puts out, from slot zero on. -/
def ofOutputs (index : Nat) (outputs : List Value) : Pool :=
  outputs.zipIdx.map fun output => ⟨.produced ⟨index, output.2⟩, output.1⟩

/-- The value produced at an output slot. -/
def produced? (pool : Pool) (place : Place) : Option Value :=
  (pool.find? fun datum => datum.origin = .produced place).map Datum.value

/-- The feed of a node that a datum is, if it was set by hand on that node. -/
def manualFeed? (index : Nat) (datum : Datum) : Option Feed :=
  match datum.origin with
  | .manual place => if place.node = index then some (place.slot, datum.value) else none
  | .produced _ => none

/-- The feeds set by hand on the node at an index. -/
def manualFeeds (pool : Pool) (index : Nat) : List Feed :=
  pool.filterMap (manualFeed? index)

end Pool

/-- The feeds in ascending order of their slots, those of one slot in their old order. -/
def Feed.bySlot (feeds : List Feed) : List Feed :=
  arrange (fun a b => a.1 ≤ b.1) feeds

end FlowGraph
