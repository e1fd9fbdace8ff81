/-
**Parameters.**

A parameter is a named and typed slot of a function. Slot zero of every input and output list is the
implicit control flow parameter, which has an identifier of its own.
-/

import FlowGraph.Uuid
import FlowGraph.Value

namespace FlowGraph

/-- A named slot for values of one type. -/
structure Parameter where
  id : Uuid
  name : String
  type : TypeTag
deriving DecidableEq

namespace Parameter

/-- The implicit parameter of slot zero. -/
def controlFlow : Parameter where
  id := .ofNat 0x6f3c1d2a7b4e4c1f9a0d5e2b8c7f0001
  name := "Control Flow"
  type := .controlFlow

/-- Whether the parameter carries control flow. -/
def isControlFlow (p : Parameter) : Bool :=
  p.type.isControlFlow

end Parameter

end FlowGraph
