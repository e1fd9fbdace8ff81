/-
**Turning composites into records.**

Encoding fails for a function that is not a composite and for a value whose type is not registered
or refuses it.
-/

import FlowGraph.Function.Basic
import FlowGraph.Record.Basic
import FlowGraph.Registry

namespace FlowGraph

/-- What records are written and read with: the registered types, the functions that decoded nodes
may call, and the parameter lists of records that carry none. -/
structure Codec where
  registry : Registry
  roster : List (Folder Function)
  signature? : Option Signature

namespace Codec

/-- The persisted form of a value. -/
def encodeValue (codec : Codec) (value : Value) : Except CodecError EncodedValue :=
  match (codec.registry.get? value.tag).bind fun valueType => valueType.encode value with
  | some payload => .ok ⟨value.tag, payload⟩
  | none => .error (.unknownValueType value.tag)

/-- The persisted forms of the values of a node, in the order of their slots. -/
def encodeSlots (codec : Codec) (slots : Slots) : Except CodecError (List EncodedValue) :=
  slots.entries.mapM fun entry => codec.encodeValue entry.2

/-- The slots that have a value. -/
def slotKeys (slots : Slots) : List Nat :=
  slots.entries.map Prod.fst

/-- A wire by its four numbers. -/
def wireRow (link : Link) : List Nat :=
  [link.start.node, link.start.slot, link.stop.node, link.stop.slot]

/-- The record of a composite. -/
def encode (codec : Codec) (f : Function) (variant : Variant) : Except CodecError Record :=
  match f.graph? with
  | none => .error (.notComposite f.id)
  | some g => do
    let nodeValues ← g.nodes.mapM fun node => codec.encodeSlots node.values
    let outputValues ← codec.encodeSlots g.outputValues
    return {
      id := f.id
      name := f.name
      description := f.description
      nodeIds := g.nodes.map fun node => node.id.uuid
      nodePositions := g.nodes.map Node.position
      nodeFunctions := g.nodes.map Node.function
      nodeValueKeys := g.nodes.map fun node => slotKeys node.values
      nodeValueValues := nodeValues
      outputValueKeys := slotKeys g.outputValues
      outputValueValues := outputValues
      wires := g.links.map wireRow
      width := f.width
      inputPosition := g.inputPosition
      outputPosition := g.outputPosition
      inputs := match variant with
        | .withSignature => .ofParameters f.dataInputs
        | .hostSignature => {}
      outputs := match variant with
        | .withSignature => .ofParameters f.dataOutputs
        | .hostSignature => {} }

end Codec

end FlowGraph
