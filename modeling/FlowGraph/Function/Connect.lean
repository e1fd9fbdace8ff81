/-
**Connecting the nodes of a composite.**

`Function.connect` draws a wire between two places after checking them: both nodes and both slots
have to exist and the types of the slots have to agree. The wire takes the place of every other wire
and of any value that feeds the same input.
-/

import FlowGraph.Function.Basic
import FlowGraph.Graph.Edit

namespace FlowGraph

namespace Function

/-- The graph to edit. -/
def editable (f : Function) : Except EditError (Graph Function) :=
  match f.graph? with
  | some g => .ok g
  | none => .error (.notComposite f.id)

/-- The two ends of a wire between two places, after all checks. -/
def checkLink (f : Function) (link : Link) :
    Except EditError (Graph Function × Endpoint × Endpoint) := do
  let g ← f.editable
  let start ← g.endpointAt link.start
  let stop ← g.endpointAt link.stop
  match f.outputAt? link.start, f.inputAt? link.stop with
  | none, _ => .error (.slotOutOfRange link.start.node link.start.slot)
  | _, none => .error (.slotOutOfRange link.stop.node link.stop.slot)
  | some output, some input =>
    if output.type = input.type then .ok (g, start, stop)
    else .error (.typeMismatch output.type input.type)

/-- Draws a wire between two places. The outcome comes with the function afterwards, since the wires
that end at the input are already gone when its value turns out not to be editable. -/
def connect (f : Function) (id : WireId) (link : Link) : Function × Except EditError Unit :=
  match f.checkLink link with
  | .error error => (f, .error error)
  | .ok (g, start, stop) =>
    let cut := g.disconnect stop
    match cut.clearValue stop.node stop.slot with
    | .error error => (f.setGraph cut, .error error)
    | .ok cleared =>
      match cleared.addWire id start stop with
      | .error error => (f.setGraph cleared, .error error)
      | .ok wired => (f.setGraph wired, .ok ())

/-- Removes the wires that end at a place; also gives their number. -/
def disconnect (f : Function) (stop : Place) : Except EditError (Nat × Function) := do
  let g ← f.editable
  let endpoint ← g.endpointAt stop
  return (g.feedCount endpoint, f.setGraph (g.disconnect endpoint))

end Function

end FlowGraph
