/-
**Persisted records.**

A composite is persisted as a record of parallel columns, one entry for each node of the user, and a
list of wires by index. A record may carry the parameter lists of the function, or leave them to the
host; it carries them if any of the six lists is present.
-/

import FlowGraph.Parameter
import FlowGraph.Settings

namespace FlowGraph

/-- A value as persisted: its tag and its payload. -/
structure EncodedValue where
  tag : TypeTag
  payload : Json
deriving DecidableEq

/-- The columns of one parameter list; any of them may be absent. -/
structure ParameterColumns where
  ids : Option (List Uuid) := none
  names : Option (List String) := none
  types : Option (List TypeTag) := none
deriving DecidableEq

namespace ParameterColumns

/-- Whether any column is present. -/
def present (columns : ParameterColumns) : Bool :=
  columns.ids.isSome || columns.names.isSome || columns.types.isSome

/-- The columns of a parameter list. -/
def ofParameters (parameters : List Parameter) : ParameterColumns where
  ids := some (parameters.map Parameter.id)
  names := some (parameters.map Parameter.name)
  types := some (parameters.map Parameter.type)

end ParameterColumns

/-- Where the parameter lists of a persisted function are kept. -/
inductive Variant where
  /-- The record carries them. -/
  | withSignature
  /-- The host supplies them. -/
  | hostSignature
deriving DecidableEq

/-- A persisted composite. -/
structure Record where
  id : String := ""
  name : String := ""
  description : String := ""
  nodeIds : List Uuid := []
  nodePositions : List Position := []
  nodeFunctions : List String := []
  /-- The slots of the values of each node. -/
  nodeValueKeys : List (List Nat) := []
  /-- The values of each node, in the order of the slots. -/
  nodeValueValues : List (List EncodedValue) := []
  outputValueKeys : List Nat := []
  outputValueValues : List EncodedValue := []
  /-- Start node, start slot, end node and end slot of each wire. -/
  wires : List (List Nat) := []
  width : Float := Layout.standard.nodeWidth
  inputPosition : Position := Layout.standard.inputPosition
  outputPosition : Position := Layout.standard.outputPosition
  inputs : ParameterColumns := {}
  outputs : ParameterColumns := {}
deriving DecidableEq

namespace Record

/-- Where the parameter lists are kept. -/
def variant (r : Record) : Variant :=
  if r.inputs.present || r.outputs.present then .withSignature else .hostSignature

end Record

end FlowGraph
