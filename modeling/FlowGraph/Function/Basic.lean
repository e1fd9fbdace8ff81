/-
**Functions.**

A function is native, a mapping supplied by the host, or composite, a graph of nodes that call other
functions. Both kinds show the same signature: an implicit control flow parameter in slot zero of
the inputs and of the outputs, and then the data parameters.

Two virtual functions describe the boundary of a composite. The input function has no inputs and
puts out the data inputs of the composite; the output function takes the data outputs and puts out
nothing.
-/

import FlowGraph.Error
import FlowGraph.Graph.Basic
import FlowGraph.Parameter

namespace FlowGraph

/-- How a function works. -/
inductive Body (F : Type) where
  /-- A mapping from the data inputs to the data outputs. -/
  | native (mapping : List Value → List Value)
  /-- A graph whose nodes call functions of type `F`. -/
  | composite (graph : Graph F)

/-- A function. -/
structure Function where
  id : String
  name : String
  description : String
  dataInputs : List Parameter
  dataOutputs : List Parameter
  body : Body Function
  /-- Whether the function may run as soon as one of its data inputs is present. -/
  anyInput : Bool
  /-- The width of the box that an editor draws. -/
  width : Float

/-- The parameters that carry data: control flow is implicit and has no slot of its own. -/
def dataParameters (parameters : List Parameter) : List Parameter :=
  parameters.filter fun p => !p.isControlFlow

/-- The parameter lists of a function, without the implicit control flow. -/
structure Signature where
  inputs : List Parameter
  outputs : List Parameter
deriving DecidableEq

namespace Function

/-! ### Making functions -/

/-- A function with the given signature and body. -/
def new (id name : String) (inputs outputs : List Parameter) (body : Body Function) : Function where
  id := id
  name := name
  description := ""
  dataInputs := dataParameters inputs
  dataOutputs := dataParameters outputs
  body := body
  anyInput := false
  width := Layout.standard.nodeWidth

/-- A function that the host computes. -/
def native (id name : String) (inputs outputs : List Parameter)
    (mapping : List Value → List Value) : Function :=
  new id name inputs outputs (.native mapping)

/-- A function computed by a graph. -/
def composite (id name : String) (inputs outputs : List Parameter) (graph : Graph Function) :
    Function :=
  new id name inputs outputs (.composite graph)

/-- The same function with a description. -/
def withDescription (f : Function) (description : String) : Function :=
  { f with description := description }

/-- The same function with other inputs. -/
def setInputs (f : Function) (inputs : List Parameter) : Function :=
  { f with dataInputs := dataParameters inputs }

/-- The same function with other outputs. -/
def setOutputs (f : Function) (outputs : List Parameter) : Function :=
  { f with dataOutputs := dataParameters outputs }

/-! ### Signatures -/

/-- The input slots. The virtual input function has none. -/
def inputs (f : Function) : List Parameter :=
  if f.id = inputFunctionId then [] else .controlFlow :: f.dataInputs

/-- The output slots. The virtual output function has none. -/
def outputs (f : Function) : List Parameter :=
  if f.id = outputFunctionId then [] else .controlFlow :: f.dataOutputs

/-- The larger of the numbers of input and output slots. -/
def maxCount (f : Function) : Nat :=
  max f.inputs.length f.outputs.length

/-- The parameter lists of a function. -/
def signature (f : Function) : Signature :=
  ⟨f.dataInputs, f.dataOutputs⟩

/-! ### Composites -/

/-- The graph of a composite. -/
def graph? (f : Function) : Option (Graph Function) :=
  match f.body with
  | .composite g => some g
  | .native _ => none

/-- Whether the function is a composite. -/
def isComposite (f : Function) : Bool :=
  f.graph?.isSome

/-- The same function with another graph for its body. -/
def setGraph (f : Function) (g : Graph Function) : Function :=
  { f with body := .composite g }

/-- The virtual function of the Input node. -/
def inputBoundary (f : Function) : Function where
  id := inputFunctionId
  name := "Input"
  description := ""
  dataInputs := []
  dataOutputs := f.dataInputs
  body := .native fun inputs => inputs
  anyInput := false
  width := f.width

/-- The virtual function of the Output node. -/
def outputBoundary (f : Function) : Function where
  id := outputFunctionId
  name := "Output"
  description := ""
  dataInputs := f.dataOutputs
  dataOutputs := []
  body := .native fun _ => []
  anyInput := false
  width := f.width

/-- The function with an id among the functions of some folders; of several the first. -/
def find? (folders : List (Folder Function)) (id : String) : Option Function :=
  (Folder.flatten folders).find? fun f => f.id = id

/-- The functions that the nodes of a composite may call. -/
def callable (f : Function) : List Function :=
  match f.graph? with
  | some g => Folder.flatten g.roster
  | none => []

/-- The callable functions and the two virtual ones. -/
def allFunctions (f : Function) : List Function :=
  f.callable ++ [f.inputBoundary, f.outputBoundary]

/-- The callable or virtual function with an id. -/
def function? (f : Function) (id : String) : Option Function :=
  if id = inputFunctionId then some f.inputBoundary
  else if id = outputFunctionId then some f.outputBoundary
  else f.graph?.bind fun g => find? g.roster id

/-- The function called by the node at an index of a composite's graph. -/
def calleeIn? (f : Function) (g : Graph Function) (index : Nat) : Option Function :=
  if index = 0 then some f.inputBoundary
  else if index = g.outputIndex then some f.outputBoundary
  else g.nodes[index - 1]?.bind fun node => find? g.roster node.function

/-- The function called by the node at an index. -/
def functionAt? (f : Function) (index : Nat) : Option Function :=
  f.graph?.bind fun g => f.calleeIn? g index

/-- The parameter of an output slot. -/
def outputAt? (f : Function) (place : Place) : Option Parameter :=
  (f.functionAt? place.node).bind fun callee => callee.outputs[place.slot]?

/-- The parameter of an input slot. -/
def inputAt? (f : Function) (place : Place) : Option Parameter :=
  (f.functionAt? place.node).bind fun callee => callee.inputs[place.slot]?

end Function

end FlowGraph
