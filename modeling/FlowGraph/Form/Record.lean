/-
**The JSON form of a record.**

The fields stand in a fixed order. Parameter columns are written only where they are present. When a
record is read, a missing field takes its default, and `nodeIDs` is another spelling of `nodeIds`.
-/

import FlowGraph.Form.Basic
import FlowGraph.Json.Text

namespace FlowGraph

namespace Form

/-- A column of a parameter list, if it is present. -/
def ofColumn {α : Type} (name : String) (item : α → Json) : Option (List α) → List (String × Json)
  | some column => [(name, .ofList item column)]
  | none => []

/-- A record. -/
def ofRecord (r : Record) : Json :=
  .obj ([("id", .str r.id),
    ("name", .str r.name),
    ("description", .str r.description),
    ("nodeIds", .ofList ofUuid r.nodeIds),
    ("nodePositions", .ofList ofPosition r.nodePositions),
    ("nodeFunctions", .ofList .str r.nodeFunctions),
    ("nodeValueKeys", .ofList (.ofList .ofNat) r.nodeValueKeys),
    ("nodeValueValues", .ofList (.ofList ofEncodedValue) r.nodeValueValues),
    ("outputNodeValueKeys", .ofList .ofNat r.outputValueKeys),
    ("outputNodeValueValues", .ofList ofEncodedValue r.outputValueValues),
    ("wires", .ofList (.ofList .ofNat) r.wires),
    ("width", .ofFloat r.width),
    ("inputNodePosition", ofPosition r.inputPosition),
    ("outputNodePosition", ofPosition r.outputPosition)] ++
    ofColumn "inputIds" ofUuid r.inputs.ids ++
    ofColumn "inputNames" .str r.inputs.names ++
    ofColumn "inputTypes" ofTag r.inputs.types ++
    ofColumn "outputIds" ofUuid r.outputs.ids ++
    ofColumn "outputNames" .str r.outputs.names ++
    ofColumn "outputTypes" ofTag r.outputs.types)

/-- The names of the fields of a record, in order. -/
def recordFields : List String :=
  ["id", "name", "description", "nodeIds", "nodePositions", "nodeFunctions", "nodeValueKeys",
    "nodeValueValues", "outputNodeValueKeys", "outputNodeValueValues", "wires", "width",
    "inputNodePosition", "outputNodePosition", "inputIds", "inputNames", "inputTypes", "outputIds",
    "outputNames", "outputTypes"]

variable [Json.DecimalReading]

/-- Reads a record. -/
def readRecord : Json.Reader Record := fun room doc => do
  let found ← Json.Reader.fields recordFields [("nodeIDs", "nodeIds")] room doc
  let id ← found.withDefault "id" "" .text
  let name ← found.withDefault "name" "" .text
  let description ← found.withDefault "description" "" .text
  let nodeIds ← found.withDefault "nodeIds" [] (.list .uuid)
  let nodePositions ← found.withDefault "nodePositions" [] (.list readPosition)
  let nodeFunctions ← found.withDefault "nodeFunctions" [] (.list .text)
  let nodeValueKeys ← found.withDefault "nodeValueKeys" [] (.list (.list .nat))
  let nodeValueValues ← found.withDefault "nodeValueValues" [] (.list (.list readEncodedValue))
  let outputValueKeys ← found.withDefault "outputNodeValueKeys" [] (.list .nat)
  let outputValueValues ← found.withDefault "outputNodeValueValues" [] (.list readEncodedValue)
  let wires ← found.withDefault "wires" [] (.list (.list .nat))
  let width ← found.withDefault "width" Layout.standard.nodeWidth .float
  let inputPosition ←
    found.withDefault "inputNodePosition" Layout.standard.inputPosition readPosition
  let outputPosition ←
    found.withDefault "outputNodePosition" Layout.standard.outputPosition readPosition
  let inputIds ← found.withDefault "inputIds" none (.optional (.list .uuid))
  let inputNames ← found.withDefault "inputNames" none (.optional (.list .text))
  let inputTypes ← found.withDefault "inputTypes" none (.optional (.list readTag))
  let outputIds ← found.withDefault "outputIds" none (.optional (.list .uuid))
  let outputNames ← found.withDefault "outputNames" none (.optional (.list .text))
  let outputTypes ← found.withDefault "outputTypes" none (.optional (.list readTag))
  return {
    id, name, description, nodeIds, nodePositions, nodeFunctions, nodeValueKeys, nodeValueValues,
    outputValueKeys, outputValueValues, wires, width, inputPosition, outputPosition
    inputs := ⟨inputIds, inputNames, inputTypes⟩
    outputs := ⟨outputIds, outputNames, outputTypes⟩ }

end Form

namespace Record

/-- The text of a record. -/
def text (r : Record) : String :=
  (Form.ofRecord r).text

/-- The record of a text. -/
def parse? [Json.DecimalReading] (text : String) : Option Record :=
  Form.readRecord.run text

end Record

end FlowGraph
