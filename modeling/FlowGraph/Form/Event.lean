/-
**JSON forms of events.**

An event is an object whose field `type` names its kind. It may also be written as a row with the
kind in front. All of an event is read, unknown fields included, so everything in it has to be well
formed.
-/

import FlowGraph.Event
import FlowGraph.Form.Basic

namespace FlowGraph

namespace Form

/-- An event with its kind in front. -/
def ofEvent : Event → Json
  | .runStarted functionId depth =>
    .obj [("type", .str "runStarted"), ("functionId", .str functionId), ("depth", .ofNat depth)]
  | .stepStarted functionId nodeIndex nodeId depth =>
    .obj [("type", .str "stepStarted"), ("functionId", .str functionId),
      ("nodeIndex", .ofNat nodeIndex), ("nodeId", ofNodeId nodeId), ("depth", .ofNat depth)]
  | .passCompleted functionId pass progressed depth =>
    .obj [("type", .str "passCompleted"), ("functionId", .str functionId), ("pass", .ofNat pass),
      ("progressed", .bool progressed), ("depth", .ofNat depth)]
  | .runCompleted functionId passes depth =>
    .obj [("type", .str "runCompleted"), ("functionId", .str functionId),
      ("passes", .ofNat passes), ("depth", .ofNat depth)]
  | .runFailed functionId error depth =>
    .obj [("type", .str "runFailed"), ("functionId", .str functionId), ("error", .str error),
      ("depth", .ofNat depth)]

/-- The fields of each kind of event, in order. -/
def eventFields : List (String × List String) :=
  [("runStarted", ["functionId", "depth"]),
    ("stepStarted", ["functionId", "nodeIndex", "nodeId", "depth"]),
    ("passCompleted", ["functionId", "pass", "progressed", "depth"]),
    ("runCompleted", ["functionId", "passes", "depth"]),
    ("runFailed", ["functionId", "error", "depth"])]

/-- The event of a kind with the given fields. -/
def eventOfKind (kind : String) (found : Json.Reader.Found) : Option Event := do
  let functionId ← found.required "functionId" .text
  let depth ← found.required "depth" .nat
  if kind = "runStarted" then return .runStarted functionId depth
  else if kind = "stepStarted" then
    let nodeIndex ← found.required "nodeIndex" .nat
    let nodeId ← found.required "nodeId" readNodeId
    return .stepStarted functionId nodeIndex nodeId depth
  else if kind = "passCompleted" then
    let pass ← found.required "pass" .nat
    let progressed ← found.required "progressed" .bool
    return .passCompleted functionId pass progressed depth
  else if kind = "runCompleted" then
    let passes ← found.required "passes" .nat
    return .runCompleted functionId passes depth
  else if kind = "runFailed" then
    let error ← found.required "error" .text
    return .runFailed functionId error depth
  else none

/-- The kind of an event: the only field `type` of an object, or the first item of a row. -/
def eventKind? : Json.Written → Option String
  | .obj fields =>
    match fields.filter fun field => field.1 = some "type" with
    | [(_, .str kind)] => kind
    | _ => none
  | .arr (.str kind :: _) => kind
  | _ => none

/-- An event without its kind. -/
def withoutKind : Json.Written → Json.Written
  | .obj fields => .obj (fields.filter fun field => field.1 ≠ some "type")
  | .arr items => .arr (items.drop 1)
  | doc => doc

/-- Reads an event. -/
def readEvent [Json.DecimalReading] : Json.Reader Event := fun room doc => do
  let _ ← Json.Reader.json room doc
  let kind ← eventKind? doc
  let names ← eventFields.lookup kind
  let found ← Json.Reader.fields names [] room (withoutKind doc)
  eventOfKind kind found

end Form

end FlowGraph
