/-
**Value types.**

A value type is what the library knows about one kind of value: its tag, its display name, its
default value, and how its values are turned into persisted payloads and back. Four types are built
in; `ValueType.json` makes a type of a host, whose payloads are kept as they are.
-/

import FlowGraph.Decimal.Basic
import FlowGraph.Value

namespace FlowGraph

/-- The capabilities of one kind of value. -/
structure ValueType where
  tag : TypeTag
  /-- The display name. -/
  name : String
  default : Value
  /-- The persisted payload of a value, if this type can hold the value. -/
  encode : Value → Option Json
  /-- The value of a persisted payload, if the payload is well formed. -/
  decode : Json → Option Value

namespace Flow

/-- The persisted name. -/
def name : Flow → String
  | signal => "signal"
  | noSignal => "noSignal"

/-- The control flow with a persisted name. -/
def ofName? (name : String) : Option Flow :=
  if name = "signal" then some signal
  else if name = "noSignal" then some noSignal
  else none

/-- The control flow of a payload: its name, or an object with the name as only key and no value. -/
def ofJson? : Json → Option Flow
  | .str name => ofName? name
  | .obj [(name, .null)] => ofName? name
  | _ => none

end Flow

namespace ValueType

/-- Control flow, by name. -/
def controlFlow : ValueType where
  tag := .controlFlow
  name := "Control Flow"
  default := .signal
  encode value := value.flow?.map fun flow => .str flow.name
  decode payload := (Flow.ofJson? payload).map .flow

/-- The payload of a number: JSON has no infinities and no `NaN`, so these are texts. -/
def numberPayload (x : Float) : Json :=
  if x.isNaN then .str "nan"
  else if x.isInf then .str (if isNegative x then "-inf" else "inf")
  else .float x

/-- The number of a payload. -/
def payloadNumber? : Json → Option Float
  | .str name =>
    if name = "nan" then some (0.0 / 0.0)
    else if name = "inf" then some infinity
    else if name = "-inf" then some (-infinity)
    else none
  | payload => payload.number?

/-- Numbers. -/
def number : ValueType where
  tag := .number
  name := "Number"
  default := .number 0.0
  encode value := value.number?.map numberPayload
  decode payload := (payloadNumber? payload).map .number

/-- Texts. -/
def text : ValueType where
  tag := .text
  name := "Text"
  default := .text ""
  encode value := value.text?.map .str
  decode payload := payload.str?.map .text

/-- Truth values. -/
def boolean : ValueType where
  tag := .boolean
  name := "Boolean"
  default := .boolean false
  encode value := value.boolean?.map .bool
  decode payload := payload.bool?.map .boolean

/-- The payload of a host's value under a tag. -/
def customPayload? (tag : TypeTag) : Value → Option Json
  | .custom found data => if found = tag then some data else none
  | _ => none

/-- A type of the host, whose values carry any JSON payload under its tag. -/
def json (tag : TypeTag) (name : String) (default : Json) : ValueType where
  tag := tag
  name := name
  default := .custom tag default
  encode := customPayload? tag
  decode payload := some (.custom tag payload)

end ValueType

end FlowGraph
