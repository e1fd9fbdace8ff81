/-
**Validation of composites.**

A report of everything that an editor prevents while a user draws wires: unknown functions and
types, wires with missing ends, slots that do not exist, types that do not agree, and inputs that
are fed more than once. A run does not ask for a clean report; it never runs a node whose inputs are
missing.

The report lists problems of parameter types first, then those of nodes, then those of wires, and
last the inputs with several wires, in the order of their nodes and slots.
-/

import FlowGraph.Arrange
import FlowGraph.Function.Basic
import FlowGraph.Registry

namespace FlowGraph

/-- A problem of a composite. -/
inductive Problem where
  | unknownFunction (node : NodeId) (function : String)
  | danglingWire (wire : WireId) (node : NodeId)
  | inputOutOfRange (node : NodeId) (slot : Nat)
  | outputOutOfRange (node : NodeId) (slot : Nat)
  | incompatibleTypes (wire : WireId) (output input : TypeTag)
  | valueTypeMismatch (node : NodeId) (slot : Nat) (expected found : TypeTag)
  | duplicateFeed (node : NodeId) (slot : Nat)
  | shadowedValue (node : NodeId) (slot : Nat)
  | unregisteredType (parameter : String) (type : TypeTag)
deriving DecidableEq

/-- The message of a problem. -/
def Problem.message : Problem → String
  | .unknownFunction node function =>
    "Node '" ++ node.text ++ "' calls unknown function '" ++ function ++ "'"
  | .danglingWire wire node =>
    "Wire '" ++ wire.uuid.text ++ "' references missing node '" ++ node.text ++ "'"
  | .inputOutOfRange node slot => "Node '" ++ node.text ++ s!"' has no input slot {slot}"
  | .outputOutOfRange node slot => "Node '" ++ node.text ++ s!"' has no output slot {slot}"
  | .incompatibleTypes wire output input =>
    "Wire '" ++ wire.uuid.text ++ "' connects incompatible types: " ++ output.name ++ " -> " ++
      input.name
  | .valueTypeMismatch node slot expected found =>
    s!"Value for input {slot} of node '" ++ node.text ++ "' is " ++ found.name ++ ", expected " ++
      expected.name
  | .duplicateFeed node slot =>
    s!"Input {slot} of node '" ++ node.text ++ "' is fed by several wires"
  | .shadowedValue node slot =>
    s!"Input {slot} of node '" ++ node.text ++ "' has both a wire and a manual value"
  | .unregisteredType parameter type =>
    "Parameter '" ++ parameter ++ "' uses unregistered type '" ++ type.name ++ "'"

namespace Function

/-! ### Parameter types -/

/-- The data parameters of a function and of all functions that it may call. -/
def reachableParameters (f : Function) : List Parameter :=
  (f :: f.callable).flatMap fun f => f.dataInputs ++ f.dataOutputs

/-- The parameters whose types are not registered. -/
def typeProblems (f : Function) (registry : Registry) : List Problem :=
  (f.reachableParameters.filter fun p => !registry.contains p.type).map fun p =>
    .unregisteredType p.name p.type

/-! ### Nodes -/

/-- The problem of a value set by hand on an input of a node. -/
def valueProblem? (node : NodeId) (inputs : List Parameter) (slot : Nat) (value : Value) :
    Option Problem :=
  match inputs[slot]? with
  | none => some (.inputOutOfRange node slot)
  | some p =>
    if p.type = value.tag then none
    else some (.valueTypeMismatch node slot p.type value.tag)

/-- The problems of a node: an unknown function, or values that do not fit its inputs. -/
def nodeProblems (f : Function) (g : Graph Function) (node : Node) : List Problem :=
  match g.indexOf? node.id with
  | none => []
  | some index =>
    match f.calleeIn? g index with
    | none => [.unknownFunction node.id node.function]
    | some callee =>
      node.values.entries.filterMap fun entry =>
        valueProblem? node.id callee.inputs entry.1 entry.2

/-! ### Wires -/

/-- The problem of the slots that a wire joins. Wires at unknown functions are left to the report on
their nodes. -/
def slotProblems (f : Function) (g : Graph Function) (wire : Wire) (link : Link) : List Problem :=
  match f.calleeIn? g link.start.node, f.calleeIn? g link.stop.node with
  | some source, some target =>
    match source.outputs[link.start.slot]?, target.inputs[link.stop.slot]? with
    | none, _ => [.outputOutOfRange wire.start.node wire.start.slot]
    | _, none => [.inputOutOfRange wire.stop.node wire.stop.slot]
    | some output, some input =>
      if output.type = input.type then []
      else [.incompatibleTypes wire.id output.type input.type]
  | _, _ => []

/-- The problem of an input that has both a wire and a value. -/
def shadowProblems (g : Graph Function) (stop : Endpoint) : List Problem :=
  if (g.value? stop.node stop.slot).isSome then [.shadowedValue stop.node stop.slot] else []

/-- The problems of a wire. -/
def wireProblems (f : Function) (g : Graph Function) (wire : Wire) : List Problem :=
  match g.indexOf? wire.start.node, g.indexOf? wire.stop.node with
  | none, _ => [.danglingWire wire.id wire.start.node]
  | _, none => [.danglingWire wire.id wire.stop.node]
  | some start, some stop =>
    shadowProblems g wire.stop ++
      f.slotProblems g wire ⟨⟨start, wire.start.slot⟩, ⟨stop, wire.stop.slot⟩⟩

/-! ### Inputs with several wires -/

/-- Whether a place comes no later than another: by node, then by slot. -/
def noLater (a b : Place) : Bool :=
  a.node < b.node || (a.node = b.node && a.slot ≤ b.slot)

/-- The inputs that wires end at, by place and by identifier. -/
def fedInputs (g : Graph Function) : List (Place × Endpoint) :=
  g.wires.filterMap fun wire => (g.link? wire).map fun link => (link.stop, wire.stop)

/-- The inputs that more than one wire ends at, in the order of their places. -/
def feedProblems (g : Graph Function) : List Problem :=
  let fed := fedInputs g
  let repeated := fed.eraseDups.filter fun input => 1 < fed.count input
  (arrange (fun a b => noLater a.1 b.1) repeated).map fun input =>
    .duplicateFeed input.2.node input.2.slot

/-- The report on a function. Parameter types are checked if a registry is given; a native function
has no problems. -/
def validate (f : Function) (types : Option Registry) : List Problem :=
  match f.graph? with
  | none => []
  | some g =>
    (match types with
      | some registry => f.typeProblems registry
      | none => []) ++
      g.allNodes.flatMap (f.nodeProblems g) ++
      g.wires.flatMap (f.wireProblems g) ++
      feedProblems g

end Function

end FlowGraph
