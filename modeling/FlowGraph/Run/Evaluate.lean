/-
**Evaluating functions.**

A native function applies its mapping. A composite runs its circuit, in which every node is bound to
the function of the roster that it calls; binding follows the nesting of functions, so it needs no
bound on the depth. Evaluation goes from all inputs to all outputs, the control flow in slot zero
included; `Function.run` adds the signal in front of data inputs and takes it off the outputs.

* `Function.callee_eq`, `Graph.callees_eq`: binding in terms of functions and their parts;
* `Function.evaluateAt_native`, `Function.evaluateAt_composite`: what evaluation does.
-/

import FlowGraph.Function.Basic
import FlowGraph.Run.Circuit

namespace FlowGraph

/-- The same outcome with the control flow signal in front of its outputs. -/
def Outcome.signalled (outcome : Outcome) : Outcome :=
  { outcome with result := outcome.result.map (Value.signal :: ·) }

/-- The node as a run sees it, given the functions that may be called. -/
def Station.ofNode (callees : List Callee) (node : Node) : Station where
  nodeId := node.id
  values := node.values
  callee? := callees.find? fun callee => callee.id = node.function

/-- The virtual nodes call the virtual functions, which a run does not evaluate: it hands the inputs
out at the Input node and takes the results at the Output node. -/
def Station.ofBoundary (node : Node) (arity : Nat) : Station where
  nodeId := node.id
  values := node.values
  callee? := some ⟨node.function, false, arity, fun _ _ => ⟨.ok [], []⟩⟩

/-- The circuit of a graph, given the functions that its nodes may call. -/
def Circuit.ofGraph {F : Type} (functionId : String) (outputCount : Nat) (g : Graph F)
    (callees : List Callee) : Circuit where
  functionId := functionId
  outputCount := outputCount
  stations := .ofBoundary g.inputNode 0 :: g.nodes.map (.ofNode callees) ++
    [.ofBoundary g.outputNode (outputCount + 1)]
  links := g.links

/-- The number of input slots of a function with a given id. -/
def slotCount (id : String) (dataInputs : List Parameter) : Nat :=
  if id = inputFunctionId then 0 else dataInputs.length + 1

mutual

/-- A function as a run sees it. -/
def Function.callee : Function → Callee
  | ⟨id, _, _, dataInputs, dataOutputs, body, anyInput, _⟩ =>
    ⟨id, anyInput, slotCount id dataInputs, Body.evaluateAt id dataOutputs.length body⟩

/-- Evaluation of a body at some depth of nesting. -/
def Body.evaluateAt (id : String) (outputCount : Nat) : Body Function → Nat → List Value → Outcome
  | .native mapping => fun _ inputs => ⟨.ok (.signal :: mapping (inputs.drop 1)), []⟩
  | .composite g => fun depth inputs =>
    ((Circuit.ofGraph id outputCount g (Graph.callees g)).run depth (inputs.drop 1)).signalled

/-- The functions that the nodes of a graph may call. -/
def Graph.callees : Graph Function → List Callee
  | ⟨_, _, roster, _, _, _⟩ => calleesOfFolders roster

/-- The functions in folders. -/
def calleesOfFolders : List (Folder Function) → List Callee
  | [] => []
  | folder :: folders => calleesOfFolder folder ++ calleesOfFolders folders

/-- The functions in a folder. -/
def calleesOfFolder : Folder Function → List Callee
  | ⟨_, content⟩ => calleesOfList content

/-- A row of functions. -/
def calleesOfList : List Function → List Callee
  | [] => []
  | f :: rest => f.callee :: calleesOfList rest

end

/-! ### Binding in terms of functions -/

/-- Binding a row of functions binds each of them. -/
theorem calleesOfList_eq (functions : List Function) :
    calleesOfList functions = functions.map Function.callee := by
  induction functions with
  | nil => rfl
  | cons f rest ih => rw [calleesOfList, ih, List.map_cons]

/-- Binding folders binds each function in them. -/
theorem calleesOfFolders_eq (folders : List (Folder Function)) :
    calleesOfFolders folders = (Folder.flatten folders).map Function.callee := by
  induction folders with
  | nil => rfl
  | cons folder rest ih =>
    obtain ⟨title, content⟩ := folder
    simp only [calleesOfFolders, calleesOfFolder, ih, calleesOfList_eq, Folder.flatten,
      List.flatMap_cons, List.map_append]

/-- The nodes of a graph may call exactly the functions of its roster. -/
theorem Graph.callees_eq (g : Graph Function) :
    g.callees = (Folder.flatten g.roster).map Function.callee := by
  obtain ⟨nodes, wires, roster, inputPosition, outputPosition, outputValues⟩ := g
  exact calleesOfFolders_eq roster

namespace Function

/-- Evaluation at some depth of nesting, from all inputs to all outputs. -/
def evaluateAt (f : Function) (depth : Nat) (inputs : List Value) : Outcome :=
  f.callee.evaluate depth inputs

/-- Evaluation from all inputs to all outputs. -/
def evaluate (f : Function) (inputs : List Value) : Outcome :=
  f.evaluateAt 0 inputs

/-- Evaluation from data inputs to data outputs. -/
def run (f : Function) (inputs : List Value) : Outcome :=
  let outcome := f.evaluate (.signal :: inputs)
  { outcome with result := outcome.result.map (List.drop 1) }

/-- The circuit of a composite with a given graph. -/
def circuit (f : Function) (g : Graph Function) : Circuit :=
  .ofGraph f.id f.dataOutputs.length g g.callees

/-- What a run sees of a function. -/
theorem callee_eq (f : Function) :
    f.callee = ⟨f.id, f.anyInput, f.inputs.length, f.evaluateAt⟩ := by
  obtain ⟨id, name, description, dataInputs, dataOutputs, body, anyInput, width⟩ := f
  simp only [callee, inputs, slotCount]
  congr 1
  split <;> rfl

/-- A native function applies its mapping to the data inputs. -/
theorem evaluateAt_native {f : Function} {mapping : List Value → List Value}
    (native : f.body = .native mapping) (depth : Nat) (inputs : List Value) :
    f.evaluateAt depth inputs = ⟨.ok (.signal :: mapping (inputs.drop 1)), []⟩ := by
  obtain ⟨id, name, description, dataInputs, dataOutputs, body, anyInput, width⟩ := f
  cases native
  rfl

/-- A composite runs its circuit on the data inputs. -/
theorem evaluateAt_composite {f : Function} {g : Graph Function}
    (composite : f.body = .composite g) (depth : Nat) (inputs : List Value) :
    f.evaluateAt depth inputs = ((f.circuit g).run depth (inputs.drop 1)).signalled := by
  obtain ⟨id, name, description, dataInputs, dataOutputs, body, anyInput, width⟩ := f
  cases composite
  rfl

end Function

end FlowGraph
