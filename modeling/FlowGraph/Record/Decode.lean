/-
**Turning records into composites.**

Decoding never fails. Short columns are padded, values and parameters of unknown types fall back to
control flow, repeated or reserved node identifiers are replaced by fresh ones, and wires with an
end that does not exist are dropped. Each of these fallbacks is reported by a warning, in the order
in which the record is read: parameters, nodes, values of the Output node, wires.
-/

import FlowGraph.Graph.Edit
import FlowGraph.IdSupply
import FlowGraph.Record.Encode

namespace FlowGraph

/-- A fallback taken while decoding. Nodes are counted from one. -/
inductive Warning where
  | unknownValueType (tag : TypeTag)
  | malformedValue (tag : TypeTag)
  | unknownParameterType (parameter : String) (tag : TypeTag)
  | wireOutOfRange (row : List Nat)
  | duplicateNodeId (nodeIndex : Nat) (id : Uuid)
  | unknownFunction (nodeIndex : Nat) (functionId : String)
  | missingSignature
deriving DecidableEq

/-- The numbers of a wire as they are shown. -/
def rowText (row : List Nat) : String :=
  "[" ++ ", ".intercalate (row.map toString) ++ "]"

/-- The message of a warning. -/
def Warning.message : Warning → String
  | .unknownValueType tag => "Unknown value type '" ++ tag.name ++ "', using control flow"
  | .malformedValue tag => "Malformed '" ++ tag.name ++ "' value, using control flow"
  | .unknownParameterType parameter tag =>
    "Parameter '" ++ parameter ++ "' has unknown type '" ++ tag.name ++ "', using control flow"
  | .wireOutOfRange row => "Dropped out-of-range wire " ++ rowText row
  | .duplicateNodeId nodeIndex id =>
    s!"Node {nodeIndex} reuses id " ++ id.text ++ ", assigned a new one"
  | .unknownFunction nodeIndex functionId =>
    s!"Node {nodeIndex} calls unknown function '" ++ functionId ++ "'"
  | .missingSignature => "No parameter lists available"

/-- A decoded function and the fallbacks taken. -/
structure Decoded where
  function : Function
  warnings : List Warning

namespace Codec

/-! ### Values -/

/-- The value of a persisted form; the default of control flow if there is none. -/
def decodeValue (codec : Codec) (encoded : EncodedValue) : Value × List Warning :=
  match codec.registry.get? encoded.tag with
  | none => (ValueType.controlFlow.default, [.unknownValueType encoded.tag])
  | some valueType =>
    match valueType.decode encoded.payload with
    | some value => (value, [])
    | none => (ValueType.controlFlow.default, [.malformedValue encoded.tag])

/-- The values of a node: slots are paired with values by position, and what has no partner is left
out. -/
def decodeSlots (codec : Codec) (keys : List Nat) (values : List EncodedValue) :
    Slots × List Warning :=
  let decoded := (keys.zip values).map fun pair => (pair.1, codec.decodeValue pair.2)
  (.ofList (decoded.map fun entry => (entry.1, entry.2.1)),
    decoded.flatMap fun entry => entry.2.2)

/-! ### Parameters -/

/-- The parameter at a place of its columns. -/
def decodeParameter (codec : Codec) (columns : ParameterColumns) (place : Nat) :
    Fresh (Parameter × List Warning) := do
  let name := ((columns.names.getD [])[place]?).getD ""
  let tag := ((columns.types.getD [])[place]?).getD .controlFlow
  let id ← match (columns.ids.getD [])[place]? with
    | some id => pure id
    | none => Fresh.id
  if codec.registry.contains tag then return (⟨id, name, tag⟩, [])
  else return (⟨id, name, .controlFlow⟩, [.unknownParameterType name tag])

/-- The length of the longest column. -/
def columnLength (columns : ParameterColumns) : Nat :=
  max (max (columns.ids.getD []).length (columns.names.getD []).length)
    (columns.types.getD []).length

/-- The parameter list of its columns. -/
def decodeParameters (codec : Codec) (columns : ParameterColumns) :
    Fresh (List Parameter × List Warning) := do
  let decoded ← (List.range (columnLength columns)).mapM (codec.decodeParameter columns)
  return (decoded.map Prod.fst, decoded.flatMap Prod.snd)

/-- The parameter lists of a record: its own, or those of the host. -/
def decodeSignature (codec : Codec) (r : Record) : Fresh (Signature × List Warning) :=
  match r.variant with
  | .withSignature => do
    let (inputs, inputWarnings) ← codec.decodeParameters r.inputs
    let (outputs, outputWarnings) ← codec.decodeParameters r.outputs
    return (⟨inputs, outputs⟩, inputWarnings ++ outputWarnings)
  | .hostSignature =>
    match codec.signature? with
    | some signature => return (signature, [])
    | none => return (⟨[], []⟩, [.missingSignature])

/-! ### Nodes -/

/-- The identifier of the node at a place, given the identifiers of the nodes before it. -/
def decodeNodeId (r : Record) (place : Nat) (seen : List NodeId) : Fresh (NodeId × List Warning) :=
  match r.nodeIds[place]? with
  | none => do
    let id ← Fresh.id
    return (⟨id⟩, [])
  | some id =>
    if NodeId.isBoundary ⟨id⟩ || seen.contains ⟨id⟩ then do
      let fresh ← Fresh.id
      return (⟨fresh⟩, [.duplicateNodeId (place + 1) id])
    else return (⟨id⟩, [])

/-- The identifiers of nodes that a record gives up to a place; a fresh identifier counts only where
it replaces a recorded one. -/
def remember (r : Record) (place : Nat) (seen : List NodeId) (id : NodeId) : List NodeId :=
  if r.nodeIds[place]?.isSome then id :: seen else seen

/-- The node at a place. -/
def decodeNode (codec : Codec) (r : Record) (place : Nat) (seen : List NodeId) :
    Fresh (Node × List Warning) := do
  let function := r.nodeFunctions[place]?.getD ""
  let unknown := if (Function.find? codec.roster function).isNone then
    [.unknownFunction (place + 1) function] else []
  let (id, replaced) ← decodeNodeId r place seen
  let (values, fallbacks) := codec.decodeSlots (r.nodeValueKeys[place]?.getD [])
    (r.nodeValueValues[place]?.getD [])
  let position := r.nodePositions[place]?.getD ⟨0.0, 0.0⟩
  return (⟨id, position, function, values⟩, unknown ++ replaced ++ fallbacks)

/-- The nodes at a row of places, given the identifiers of the nodes before them. -/
def decodeNodesFrom (codec : Codec) (r : Record) :
    List Nat → List NodeId → Fresh (List Node × List Warning)
  | [], _ => return ([], [])
  | place :: places, seen => do
    let (node, warnings) ← codec.decodeNode r place seen
    let (nodes, later) ← codec.decodeNodesFrom r places (remember r place seen node.id)
    return (node :: nodes, warnings ++ later)

/-- The number of nodes: the length of the longest column that describes them. -/
def nodeCount (r : Record) : Nat :=
  max (max r.nodeIds.length r.nodePositions.length) r.nodeFunctions.length

/-- All nodes of a record. -/
def decodeNodes (codec : Codec) (r : Record) : Fresh (List Node × List Warning) :=
  codec.decodeNodesFrom r (List.range (nodeCount r)) []

/-! ### Wires -/

/-- The wire of a row; missing numbers are zero and surplus ones are ignored. -/
def rowLink (row : List Nat) : Link :=
  let number (place : Nat) : Nat := row[place]?.getD 0
  ⟨⟨number 0, number 1⟩, ⟨number 2, number 3⟩⟩

/-- Adds the wires of a record to a graph. -/
def decodeWires : List (List Nat) → Graph Function → Fresh (Graph Function × List Warning)
  | [], g => return (g, [])
  | row :: rows, g => do
    let id ← Fresh.id
    match g.addLink ⟨id⟩ (rowLink row) with
    | .ok wired => decodeWires rows wired
    | .error _ => do
      let (wired, warnings) ← decodeWires rows g
      return (wired, .wireOutOfRange row :: warnings)

/-- The function of a record. Parameters that fell back to control flow keep their slots, so that
wires stay where they are. -/
def decode (codec : Codec) (r : Record) : Fresh Decoded := do
  let (signature, signatureWarnings) ← codec.decodeSignature r
  let (nodes, nodeWarnings) ← codec.decodeNodes r
  let (outputValues, outputWarnings) := codec.decodeSlots r.outputValueKeys r.outputValueValues
  let unwired : Graph Function := {
    nodes := nodes
    wires := []
    roster := codec.roster
    inputPosition := r.inputPosition
    outputPosition := r.outputPosition
    outputValues := outputValues }
  let (graph, wireWarnings) ← decodeWires r.wires unwired
  let function : Function := {
    id := r.id
    name := r.name
    description := r.description
    dataInputs := signature.inputs
    dataOutputs := signature.outputs
    body := .composite graph
    anyInput := false
    width := r.width }
  return ⟨function, signatureWarnings ++ nodeWarnings ++ outputWarnings ++ wireWarnings⟩

end Codec

end FlowGraph
