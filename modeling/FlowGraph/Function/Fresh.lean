/-
**New parameters and merge functions.**

A new parameter draws a fresh identifier. A merge function joins two alternative branches: it runs
as soon as either of its inputs arrives and hands the first one on.
-/

import FlowGraph.Function.Basic
import FlowGraph.IdSupply
import FlowGraph.ValueType

namespace FlowGraph

/-- A new parameter. -/
def Parameter.fresh (name : String) (type : TypeTag) : Fresh Parameter := do
  let id ← Fresh.id
  return ⟨id, name, type⟩

/-- New parameters of one type. -/
def Parameter.freshAll (names : List String) (type : TypeTag) : Fresh (List Parameter) :=
  names.mapM fun name => Parameter.fresh name type

/-- The id of the function that merges two branches of one type. -/
def mergeId (tag : TypeTag) : String :=
  "merge-" ++ tag.name

/-- Hands the first of the inputs on, or the default if there is none. -/
def mergeMapping (default : Value) (inputs : List Value) : List Value :=
  [inputs.headD default]

/-- The function that merges two branches of one type. -/
def Function.merge (valueType : ValueType) : Fresh Function := do
  let inputs ← Parameter.freshAll ["Value 1", "Value 2"] valueType.tag
  let outputs ← Parameter.freshAll ["Value"] valueType.tag
  let name := "Merge (" ++ valueType.name ++ ")"
  let f := Function.native (mergeId valueType.tag) name inputs outputs
    (mergeMapping valueType.default)
  return { f with anyInput := true }

end FlowGraph
