/-
**Node identifiers.**

Every node of a composite has an identifier. Two identifiers are reserved for the virtual nodes at
the boundary of a composite: the Input node, which delivers the arguments, and the Output node,
which collects the results.
-/

import FlowGraph.Uuid

namespace FlowGraph

/-- The identifier of a node. -/
structure NodeId where
  uuid : Uuid
deriving DecidableEq

namespace NodeId

/-- The reserved identifier of the Input node. -/
def input : NodeId :=
  ⟨.ofNat 0x6f3c1d2a7b4e4c1f9a0d5e2b8c7f1000⟩

/-- The reserved identifier of the Output node. -/
def output : NodeId :=
  ⟨.ofNat 0x6f3c1d2a7b4e4c1f9a0d5e2b8c7f2000⟩

/-- Whether the identifier is one of the reserved ones. -/
def isBoundary (id : NodeId) : Bool :=
  id = input || id = output

/-- The text shown to users. -/
def text (id : NodeId) : String :=
  if id = input then "input"
  else if id = output then "output"
  else id.uuid.text

end NodeId

end FlowGraph
