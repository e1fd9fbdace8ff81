/-
**Edits of a graph.**

Every edit either gives the changed graph or says why it is refused; a refused edit changes nothing.
Identifiers of new nodes and wires are chosen by the caller.
-/

import FlowGraph.Error
import FlowGraph.Graph.Basic

namespace FlowGraph

namespace Graph

variable {F : Type}

/-- The slot at a place, by the identifier of its node. -/
def endpointAt (g : Graph F) (place : Place) : Except EditError Endpoint :=
  match g.nodeIdAt? place.node with
  | some node => .ok ⟨node, place.slot⟩
  | none => .error (.nodeIndexOutOfRange place.node)

/-! ### Nodes -/

/-- Adds a node behind all others. -/
def addNode (g : Graph F) (node : Node) : Graph F :=
  { g with nodes := g.nodes ++ [node] }

/-- Adds a node in front of the user's node at `place`, or behind all nodes if there is none. -/
def insertNode (g : Graph F) (place : Nat) (node : Node) : Graph F :=
  { g with nodes := g.nodes.take place ++ node :: g.nodes.drop place }

/-- Changes the first of several nodes that has an identifier. -/
def modifyFirst (id : NodeId) (change : Node → Node) : List Node → List Node
  | [] => []
  | node :: rest =>
    if node.id = id then change node :: rest else node :: modifyFirst id change rest

/-- Changes the user's node that has an identifier. -/
def modifyNode (g : Graph F) (id : NodeId) (change : Node → Node) : Graph F :=
  { g with nodes := modifyFirst id change g.nodes }

/-- Removes a node together with the wires at its slots; also gives the removed node. -/
def removeNode (g : Graph F) (id : NodeId) : Except EditError (Node × Graph F) :=
  if id.isBoundary then .error (.boundaryNode id)
  else match g.node? id with
    | none => .error (.unknownNode id)
    | some node =>
      .ok (node, { g with
        nodes := g.nodes.eraseP fun node => node.id = id
        wires := g.wires.filter fun wire => wire.start.node ≠ id ∧ wire.stop.node ≠ id })

/-- Moves a node; the virtual nodes may be moved too. -/
def moveNode (g : Graph F) (id : NodeId) (position : Position) : Except EditError (Graph F) :=
  if id = .input then .ok { g with inputPosition := position }
  else if id = .output then .ok { g with outputPosition := position }
  else if (g.node? id).isSome then
    .ok (g.modifyNode id fun node => { node with position := position })
  else .error (.unknownNode id)

/-- Moves every node into the square from zero to `high`. Without an answer if there is no such
square, which is when `high` is negative or not a number. -/
def clampPositions? (g : Graph F) (high : Float) : Option (Graph F) :=
  if 0.0 ≤ high then
    some { g with
      nodes := g.nodes.map fun node => { node with position := node.position.clamp high }
      inputPosition := g.inputPosition.clamp high
      outputPosition := g.outputPosition.clamp high }
  else none

/-! ### Values -/

/-- Changes the values set by hand on a node. The Input node has no inputs to set. -/
def modifyValues (g : Graph F) (node : NodeId) (change : Slots → Slots) :
    Except EditError (Graph F) :=
  if node = .input then .error (.boundaryNode node)
  else if node = .output then .ok { g with outputValues := change g.outputValues }
  else if (g.node? node).isSome then
    .ok (g.modifyNode node fun node => { node with values := change node.values })
  else .error (.unknownNode node)

/-- Removes the wires that end at a slot. -/
def disconnect (g : Graph F) (stop : Endpoint) : Graph F :=
  { g with wires := g.wires.filter fun wire => wire.stop ≠ stop }

/-- Sets the value of an input slot, in place of any wire that ends there. -/
def setValue (g : Graph F) (node : NodeId) (slot : Nat) (value : Value) :
    Except EditError (Graph F) :=
  (g.modifyValues node fun values => values.insert slot value).map
    fun changed => changed.disconnect ⟨node, slot⟩

/-- Clears the value of an input slot. -/
def clearValue (g : Graph F) (node : NodeId) (slot : Nat) : Except EditError (Graph F) :=
  g.modifyValues node fun values => values.erase slot

/-! ### Wires -/

/-- Adds a wire behind all others; both of its nodes have to exist. -/
def addWire (g : Graph F) (id : WireId) (start stop : Endpoint) : Except EditError (Graph F) :=
  if (g.indexOf? start.node).isNone then .error (.unknownNode start.node)
  else if (g.indexOf? stop.node).isNone then .error (.unknownNode stop.node)
  else .ok { g with wires := g.wires ++ [⟨id, start, stop⟩] }

/-- Adds a wire between two places. -/
def addLink (g : Graph F) (id : WireId) (link : Link) : Except EditError (Graph F) := do
  let start ← g.endpointAt link.start
  let stop ← g.endpointAt link.stop
  g.addWire id start stop

/-- The wire with an identifier. -/
def wire? (g : Graph F) (id : WireId) : Option Wire :=
  g.wires.find? fun wire => wire.id = id

/-- Removes the wire with an identifier. -/
def removeWire (g : Graph F) (id : WireId) : Graph F :=
  { g with wires := g.wires.eraseP fun wire => wire.id = id }

/-- The number of wires that end at a slot. -/
def feedCount (g : Graph F) (stop : Endpoint) : Nat :=
  g.wires.countP fun wire => wire.stop = stop

end Graph

end FlowGraph
