/-
**Building composites step by step.**

A blueprint collects the parts of a composite in any order: wires may be drawn before the nodes that
they join are placed, since nodes are only counted when the function is built. Index zero is the
Input node, the placed nodes follow in order, and the Output node comes last. A slot that a wire
ends at keeps no value.
-/

import FlowGraph.Function.Fresh
import FlowGraph.Graph.Edit

namespace FlowGraph

/-- The parts of a composite collected so far. -/
structure Blueprint where
  id : String
  name : String
  description : String := ""
  inputs : List Parameter := []
  outputs : List Parameter := []
  roster : List (Folder Function) := []
  nodes : List Node := []
  links : List Link := []
  outputValues : Slots := .empty
  layout : Layout := .standard

/-- One step of building. -/
inductive BuildStep where
  | description (text : String)
  | layout (layout : Layout)
  | input (name : String) (type : TypeTag)
  | output (name : String) (type : TypeTag)
  | folders (folders : List (Folder Function))
  /-- Places a node in the middle of the canvas. -/
  | node (function : String)
  | nodeAt (function : String) (position : Position)
  /-- Sets a value on the node placed last; without a node it does nothing. -/
  | value (slot : Nat) (value : Value)
  | outputValue (slot : Nat) (value : Value)
  | wire (link : Link)

namespace Blueprint

/-- Places a new node behind the others. -/
def place (b : Blueprint) (function : String) (position : Position) : Fresh Blueprint := do
  let id ← Fresh.id
  return { b with nodes := b.nodes ++ [.new ⟨id⟩ function position] }

/-- Sets a value on the last of several nodes. -/
def setLastValue (slot : Nat) (value : Value) : List Node → List Node
  | [] => []
  | [node] => [node.withValue slot value]
  | node :: nodes => node :: setLastValue slot value nodes

/-- Takes one step. -/
def step (b : Blueprint) : BuildStep → Fresh Blueprint
  | .description text => return { b with description := text }
  | .layout layout => return { b with layout := layout }
  | .input name type => do
    let p ← Parameter.fresh name type
    return { b with inputs := b.inputs ++ [p] }
  | .output name type => do
    let p ← Parameter.fresh name type
    return { b with outputs := b.outputs ++ [p] }
  | .folders folders => return { b with roster := b.roster ++ folders }
  | .node function => b.place function Layout.nodePosition
  | .nodeAt function position => b.place function position
  | .value slot value => return { b with nodes := setLastValue slot value b.nodes }
  | .outputValue slot value => return { b with outputValues := b.outputValues.insert slot value }
  | .wire link => return { b with links := b.links ++ [link] }

/-- Takes several steps. -/
def steps (b : Blueprint) (all : List BuildStep) : Fresh Blueprint :=
  all.foldlM step b

/-- Draws a wire and clears the value of the slot that it ends at. -/
def draw (g : Graph Function) (id : WireId) (link : Link) : Except EditError (Graph Function) := do
  let stop ← g.endpointAt link.stop
  let wired ← g.addLink id link
  if stop.node = .input then return wired else wired.clearValue stop.node stop.slot

/-- Draws several wires in order. -/
def drawAll : List Link → Graph Function → Fresh (Except EditError (Graph Function))
  | [], g => return .ok g
  | link :: links, g => do
    let id ← Fresh.id
    match draw g ⟨id⟩ link with
    | .ok wired => drawAll links wired
    | .error error => return .error error

/-- The nodes and values of the blueprint, without its wires. -/
def unwired (b : Blueprint) : Graph Function :=
  let g : Graph Function := Graph.withLayout b.roster b.layout
  { g with nodes := b.nodes, outputValues := g.outputValues.insertAll b.outputValues.entries }

/-- The finished function; fails if a wire leads to a node that was not placed. -/
def build (b : Blueprint) : Fresh (Except EditError Function) := do
  match ← drawAll b.links b.unwired with
  | .error error => return .error error
  | .ok g =>
    let f := Function.composite b.id b.name b.inputs b.outputs g
    return .ok { f with description := b.description, width := b.layout.nodeWidth }

end Blueprint

end FlowGraph
