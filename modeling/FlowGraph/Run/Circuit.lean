/-
**Circuits and how they run.**

A circuit is all that the run of a composite depends on: its nodes in positional order, with their
values and the functions that they call, the wires between them by index, and the number of outputs
to deliver.

A run sweeps over the pending nodes in order, again and again. A node runs once all its inputs have
a value (any one data input, for functions that ask for no more) and its first input is the signal.
What it puts out is in the pool at once, so that later nodes of the same pass can use it. The run
ends as soon as the Output node has delivered the right number of values, and fails when a pass runs
no node or when the run of a node fails.

* `Circuit.step`: one node's turn;
* `Circuit.sweep`: one pass;
* `Circuit.drive`: passes until the end; the number of pending nodes falls with every pass but the
  last, which is why it ends;
* `Circuit.run`: a run with all its events.
-/

import FlowGraph.Error
import FlowGraph.Event
import FlowGraph.Run.Pool

namespace FlowGraph

/-- The result of an evaluation and the events that it told. -/
structure Outcome where
  result : Except RunError (List Value)
  events : List Event
deriving DecidableEq

/-- What a run has to know about the function that a node calls. -/
structure Callee where
  id : String
  /-- Whether any one data input is enough. -/
  anyInput : Bool
  /-- The number of input slots. -/
  arity : Nat
  /-- Evaluation at some depth of nesting, from all inputs to all outputs. -/
  evaluate : Nat → List Value → Outcome

/-- A node as a run sees it. -/
structure Station where
  nodeId : NodeId
  /-- The values set by hand. -/
  values : Slots
  /-- The function that the node calls, if it is known. -/
  callee? : Option Callee

/-- What the run of a composite depends on. -/
structure Circuit where
  functionId : String
  /-- The number of values that the Output node has to deliver. -/
  outputCount : Nat
  /-- The nodes in order, Input first and Output last. -/
  stations : List Station
  links : List Link

/-- What a run has reached: the pool, and what the Output node delivered in this pass. -/
structure Reached where
  pool : Pool
  delivered? : Option (List Value)

/-- What became of a node when its turn came. -/
inductive Step where
  /-- The node cannot run yet. -/
  | waits
  /-- The node ran. -/
  | runs (reached : Reached) (events : List Event)
  /-- The node's own run failed. -/
  | fails (events : List Event)

/-- What a pass came to. -/
structure Sweep where
  reached : Reached
  /-- The nodes that are still pending. -/
  pending : List Nat
  events : List Event
  /-- The node whose own run failed and ended the pass. -/
  failed? : Option Nat

/-- How the passes ended: with the delivered values and the number of passes, or with an error. -/
structure Ending where
  result : Except RunError (List Value × Nat)
  events : List Event

/-- The pool extended by what a node puts out. -/
def Reached.extend (reached : Reached) (index : Nat) (outputs : List Value) : Reached :=
  { reached with pool := reached.pool ++ Pool.ofOutputs index outputs }

namespace Callee

/-- Whether the feeds at hand are all that the function needs. -/
def ready (callee : Callee) (feeds : List Feed) : Bool :=
  if callee.anyInput then 1 < feeds.length
  else (List.range callee.arity).all fun slot => feeds.any fun feed => feed.1 = slot

end Callee

namespace Circuit

/-- The index of the Output node. -/
def outputIndex (c : Circuit) : Nat :=
  c.stations.length - 1

/-- The pool before the first pass: all values set by hand. -/
def initialPool (c : Circuit) : Pool :=
  c.stations.zipIdx.flatMap fun (station, index) => Pool.ofSlots index station.values

/-- The feed that a wire delivers to the node at an index. -/
def wiredFeed? (pool : Pool) (index : Nat) (link : Link) : Option Feed :=
  if link.stop.node = index then (pool.produced? link.start).map (link.stop.slot, ·) else none

/-- The feeds of the node at an index, by slot: those of wires in front of those set by hand. -/
def feeds (c : Circuit) (pool : Pool) (index : Nat) : List Feed :=
  Feed.bySlot (c.links.filterMap (wiredFeed? pool index) ++ pool.manualFeeds index)

/-- Whether the node may run: the first of its feeds is the signal. The Input node always may. -/
def gated (index : Nat) (feeds : List Feed) : Bool :=
  index = 0 || (feeds.head?.any fun feed => feed.2.isSignal)

/-- The turn of the node at an index. -/
def step (c : Circuit) (inputs : List Value) (depth : Nat) (reached : Reached) (index : Nat) :
    Step :=
  match c.stations[index]? with
  | none => .waits
  | some station =>
    match station.callee? with
    | none => .waits
    | some callee =>
      let feeds := c.feeds reached.pool index
      if callee.ready feeds && gated index feeds then
        let started := Event.stepStarted callee.id index station.nodeId depth
        if index = 0 then
          .runs (reached.extend index (.signal :: inputs)) [started]
        else if index = c.outputIndex then
          .runs { reached with delivered? := some ((feeds.drop 1).map Prod.snd) } [started]
        else
          let outcome := callee.evaluate (depth + 1) (feeds.map Prod.snd)
          match outcome.result with
          | .ok outputs => .runs (reached.extend index outputs) (started :: outcome.events)
          | .error _ => .fails (started :: outcome.events)
      else .waits

/-- One pass over the pending nodes. -/
def sweep (c : Circuit) (inputs : List Value) (depth : Nat) : Reached → List Nat → Sweep
  | reached, [] => ⟨reached, [], [], none⟩
  | reached, index :: rest =>
    match c.step inputs depth reached index with
    | .waits =>
      let later := c.sweep inputs depth reached rest
      { later with pending := index :: later.pending }
    | .runs reached events =>
      let later := c.sweep inputs depth reached rest
      { later with events := events ++ later.events }
    | .fails events => ⟨reached, index :: rest, events, some index⟩

/-- The values that end the run, if the right number of them was delivered. A function without
outputs needs no delivery. -/
def accept? (c : Circuit) : Option (List Value) → Option (List Value)
  | some values => if values.length = c.outputCount then some values else none
  | none => if c.outputCount = 0 then some [] else none

/-- Passes over the pending nodes, numbered from `pass` on, until the run ends. -/
def drive (c : Circuit) (inputs : List Value) (depth pass : Nat) (pool : Pool)
    (pending : List Nat) : Ending :=
  let swept := c.sweep inputs depth ⟨pool, none⟩ pending
  match swept.failed? with
  | some index => ⟨.error ⟨some index⟩, swept.events⟩
  | none =>
    let progressed := decide (swept.pending.length < pending.length)
    let events := swept.events ++ [.passCompleted c.functionId pass progressed depth]
    match c.accept? swept.reached.delivered? with
    | some values => ⟨.ok (values, pass), events⟩
    | none =>
      if swept.pending.length < pending.length then
        let later := c.drive inputs depth (pass + 1) swept.reached.pool swept.pending
        { later with events := events ++ later.events }
      else ⟨.error ⟨none⟩, events⟩
termination_by pending.length

/-- The event that ends a run. -/
def lastEvent (c : Circuit) (depth : Nat) : Except RunError (List Value × Nat) → Event
  | .ok (_, passes) => .runCompleted c.functionId passes depth
  | .error error => .runFailed c.functionId error.message depth

/-- A run on data inputs at some depth of nesting: the data outputs and all events. -/
def run (c : Circuit) (depth : Nat) (inputs : List Value) : Outcome :=
  let ending := c.drive inputs depth 1 c.initialPool (List.range c.stations.length)
  { result := ending.result.map Prod.fst
    events := .runStarted c.functionId depth :: ending.events ++
      [c.lastEvent depth ending.result] }

end Circuit

end FlowGraph
