/-
**Events of a run.**

A run tells what happens in it by a row of events: when it starts, when it runs a node, when it has
swept over all pending nodes, and how it ends. A composite node's own run tells its events in
between, one level deeper. Observers are functions of that row.
-/

import FlowGraph.NodeId

namespace FlowGraph

/-- Something that happened in a run, at some depth of nesting. -/
inductive Event where
  | runStarted (functionId : String) (depth : Nat)
  | stepStarted (functionId : String) (nodeIndex : Nat) (nodeId : NodeId) (depth : Nat)
  | passCompleted (functionId : String) (pass : Nat) (progressed : Bool) (depth : Nat)
  | runCompleted (functionId : String) (passes : Nat) (depth : Nat)
  | runFailed (functionId : String) (error : String) (depth : Nat)
deriving DecidableEq

namespace Event

/-- The depth of nesting. -/
def depth : Event → Nat
  | runStarted _ depth => depth
  | stepStarted _ _ _ depth => depth
  | passCompleted _ _ _ depth => depth
  | runCompleted _ _ depth => depth
  | runFailed _ _ depth => depth

/-- The node that an event of the outermost run starts. -/
def step? : Event → Option Nat
  | stepStarted _ index _ 0 => some index
  | _ => none

/-- The number of passes, if the event completes the outermost run. -/
def passes? : Event → Option Nat
  | runCompleted _ passes 0 => some passes
  | _ => none

/-- The nodes that the outermost run started, in order. -/
def steps (events : List Event) : List Nat :=
  events.filterMap step?

/-- The number of passes of the outermost run, if it completed. -/
def passes (events : List Event) : Option Nat :=
  events.findSome? passes?

end Event

end FlowGraph
