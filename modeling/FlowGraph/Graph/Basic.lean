/-
**Nodes, wires and the graphs they form.**

The body of a composite function is a graph: an ordered row of nodes, each of which calls a function
by its id, and wires between their slots. Wires name their nodes by identifier, so that they survive
insertions and removals of other nodes. Two virtual nodes stand for the boundary: the Input node and
the Output node. A graph also carries its roster, the functions that its nodes may call; the type of
these functions is a parameter here, since functions are in turn built from graphs.
-/

import FlowGraph.NodeId
import FlowGraph.Settings
import FlowGraph.Slots

namespace FlowGraph

/-- The identifier of a wire. -/
structure WireId where
  uuid : Uuid
deriving DecidableEq

/-- The id of the virtual function that the Input node calls. -/
def inputFunctionId : String :=
  "standard-actions.input"

/-- The id of the virtual function that the Output node calls. -/
def outputFunctionId : String :=
  "standard-actions.output"

/-- The values that a new node starts with: the signal in slot zero, so that it may run. -/
def Slots.initial : Slots :=
  .single 0 .signal

theorem Slots.get?_initial (slot : Nat) :
    Slots.initial.get? slot = if slot = 0 then some .signal else none := by
  cases slot <;> rfl

/-- A call of a function. -/
structure Node where
  id : NodeId
  position : Position
  /-- The id of the function to call. -/
  function : String
  /-- The values set by hand on the inputs. -/
  values : Slots
deriving DecidableEq

namespace Node

/-- A new node. -/
def new (id : NodeId) (function : String) (position : Position) : Node :=
  ⟨id, position, function, .initial⟩

/-- Sets the value of an input slot. -/
def withValue (node : Node) (slot : Nat) (value : Value) : Node :=
  { node with values := node.values.insert slot value }

end Node

/-- One slot of one node. -/
structure Endpoint where
  node : NodeId
  slot : Nat
deriving DecidableEq

/-- A wire from an output slot to an input slot. -/
structure Wire where
  id : WireId
  start : Endpoint
  stop : Endpoint
deriving DecidableEq

/-- A slot of the node at an index. -/
structure Place where
  node : Nat
  slot : Nat
deriving DecidableEq

/-- A wire by the indices of its nodes. -/
structure Link where
  start : Place
  stop : Place
deriving DecidableEq

/-- A titled group of things to choose from. -/
structure Folder (α : Type) where
  title : String
  content : List α

/-- All things in the folders, in order. -/
def Folder.flatten {α : Type} (folders : List (Folder α)) : List α :=
  folders.flatMap Folder.content

/-- The body of a composite function whose nodes call functions of type `F`. -/
structure Graph (F : Type) where
  nodes : List Node
  wires : List Wire
  /-- The functions that the nodes may call. -/
  roster : List (Folder F)
  inputPosition : Position
  outputPosition : Position
  /-- The values set by hand on the inputs of the Output node. -/
  outputValues : Slots

namespace Graph

variable {F : Type}

/-- A graph without nodes, laid out as `layout` says. -/
def withLayout (roster : List (Folder F)) (layout : Layout) : Graph F where
  nodes := []
  wires := []
  roster := roster
  inputPosition := layout.inputPosition
  outputPosition := layout.outputPosition
  outputValues := .initial

/-- A graph without nodes in the default layout. -/
def new (roster : List (Folder F)) : Graph F :=
  withLayout roster .standard

/-! ### The virtual nodes -/

/-- The virtual node that delivers the arguments. -/
def inputNode (g : Graph F) : Node where
  id := .input
  position := g.inputPosition
  function := inputFunctionId
  values := .empty

/-- The virtual node that collects the results. -/
def outputNode (g : Graph F) : Node where
  id := .output
  position := g.outputPosition
  function := outputFunctionId
  values := g.outputValues

/-- All nodes in the order of their indices: Input, the nodes of the user, Output. -/
def allNodes (g : Graph F) : List Node :=
  g.inputNode :: g.nodes ++ [g.outputNode]

/-! ### Indices -/

/-- The number of nodes, the virtual ones included. -/
def nodeCount (g : Graph F) : Nat :=
  g.nodes.length + 2

/-- The index of the Output node. -/
def outputIndex (g : Graph F) : Nat :=
  g.nodes.length + 1

/-- The user's node with an identifier. -/
def node? (g : Graph F) (id : NodeId) : Option Node :=
  g.nodes.find? fun node => node.id = id

/-- The index of the node with an identifier. -/
def indexOf? (g : Graph F) (id : NodeId) : Option Nat :=
  if id = .input then some 0
  else if id = .output then some g.outputIndex
  else (g.nodes.findIdx? fun node => node.id = id).map (· + 1)

/-- The identifier of the node at an index. -/
def nodeIdAt? (g : Graph F) (index : Nat) : Option NodeId :=
  if index = 0 then some .input
  else if index = g.outputIndex then some .output
  else g.nodes[index - 1]?.map Node.id

/-- The value set by hand on an input slot. -/
def value? (g : Graph F) (node : NodeId) (slot : Nat) : Option Value :=
  if node = .output then g.outputValues.get? slot
  else (g.node? node).bind fun node => node.values.get? slot

/-! ### The positional view of wires -/

/-- A wire by the indices of its nodes, unless one of them is gone. -/
def link? (g : Graph F) (wire : Wire) : Option Link := do
  let start ← g.indexOf? wire.start.node
  let stop ← g.indexOf? wire.stop.node
  return ⟨⟨start, wire.start.slot⟩, ⟨stop, wire.stop.slot⟩⟩

/-- All wires by the indices of their nodes, in order. -/
def links (g : Graph F) : List Link :=
  g.wires.filterMap g.link?

/-- The wires that end at the node at an index. -/
def linksTo (g : Graph F) (index : Nat) : List Link :=
  g.links.filter fun link => link.stop.node = index

end Graph

end FlowGraph
