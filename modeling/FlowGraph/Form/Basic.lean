/-
**JSON forms of small things.**

Each kind of thing that is persisted or exchanged has one written form and a reader that accepts it:
identifiers, tags, control flow, positions, parameters and encoded values.
-/

import FlowGraph.Json.Reader
import FlowGraph.NodeId
import FlowGraph.Record.Basic
import FlowGraph.ValueType

namespace FlowGraph

namespace Form

variable [Json.DecimalReading]

/-! ### Names and identifiers -/

/-- An identifier is its hyphenated text. -/
def ofUuid (id : Uuid) : Json :=
  .str id.text

/-- A tag is its name. -/
def ofTag (tag : TypeTag) : Json :=
  .str tag.name

/-- Reads a tag. -/
def readTag : Json.Reader TypeTag :=
  .map TypeTag.mk .text

/-- A node identifier is its plain text, also for the virtual nodes. -/
def ofNodeId (id : NodeId) : Json :=
  ofUuid id.uuid

/-- Reads a node identifier. -/
def readNodeId : Json.Reader NodeId :=
  .map NodeId.mk .uuid

/-- Control flow is its name. -/
def ofFlow (flow : Flow) : Json :=
  .str flow.name

/-- Reads control flow: its name, or an object with the name as only key and `null` for a value. -/
def readFlow : Json.Reader Flow
  | _, .str name => name.bind Flow.ofName?
  | _ + 1, .obj [(name, .null)] => name.bind Flow.ofName?
  | _, _ => none

/-! ### Positions -/

/-- A position is the row of its two coordinates. -/
def ofPosition (p : Position) : Json :=
  .arr [.ofFloat p.x, .ofFloat p.y]

/-- Reads a position: exactly two numbers. -/
def readPosition : Json.Reader Position
  | room + 1, .arr [x, y] => do
    let x ← Json.Reader.float room x
    let y ← Json.Reader.float room y
    return ⟨x, y⟩
  | _, _ => none

/-! ### Parameters and values -/

/-- A parameter with all its fields. -/
def ofParameter (p : Parameter) : Json :=
  .obj [("id", ofUuid p.id), ("name", .str p.name), ("valueType", ofTag p.type)]

/-- Reads a parameter; no field may be missing. -/
def readParameter : Json.Reader Parameter := fun room doc => do
  let found ← Json.Reader.fields ["id", "name", "valueType"] [] room doc
  let id ← found.required "id" .uuid
  let name ← found.required "name" .text
  let type ← found.required "valueType" readTag
  return ⟨id, name, type⟩

/-- An encoded value with its tag. -/
def ofEncodedValue (encoded : EncodedValue) : Json :=
  .obj [("tag", ofTag encoded.tag), ("value", encoded.payload)]

/-- Reads an encoded value; no field may be missing. -/
def readEncodedValue : Json.Reader EncodedValue := fun room doc => do
  let found ← Json.Reader.fields ["tag", "value"] [] room doc
  let tag ← found.required "tag" readTag
  let payload ← found.required "value" .json
  return ⟨tag, payload⟩

end Form

end FlowGraph
