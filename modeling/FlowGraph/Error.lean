/-
**Errors.**

Each family of operations has its own causes of failure, and each cause has one message.
-/

import FlowGraph.NodeId
import FlowGraph.Value

namespace FlowGraph

/-- Outcomes of fallible operations can be compared. -/
instance exceptDecidableEq {ε α : Type} [DecidableEq ε] [DecidableEq α] : DecidableEq (Except ε α)
  | .ok a, .ok b => decidable_of_iff (a = b) (Except.ok.injEq a b ▸ Iff.rfl)
  | .error a, .error b => decidable_of_iff (a = b) (Except.error.injEq a b ▸ Iff.rfl)
  | .ok _, .error _ => isFalse (by simp)
  | .error _, .ok _ => isFalse (by simp)

/-- Why a run gave no result. -/
structure RunError where
  /-- The node whose own run failed; none if no node could run any more. -/
  node : Option Nat
deriving DecidableEq

/-- The message of a failed run. -/
def RunError.message (error : RunError) : String :=
  match error.node with
  | some index => s!"Empty iteration inside composite node at index {index}"
  | none => "Empty iteration: no node could execute"

/-- Why an edit was refused. -/
inductive EditError where
  | unknownNode (node : NodeId)
  | nodeIndexOutOfRange (index : Nat)
  | unknownFunction (id : String)
  | slotOutOfRange (node slot : Nat)
  | typeMismatch (output input : TypeTag)
  | boundaryNode (node : NodeId)
  | notComposite (id : String)
deriving DecidableEq

/-- The message of a refused edit. -/
def EditError.message : EditError → String
  | .unknownNode node => "Unknown node: " ++ node.text
  | .nodeIndexOutOfRange index => s!"Node index {index} is out of range"
  | .unknownFunction id => "Unknown function: " ++ id
  | .slotOutOfRange node slot => s!"Slot {slot} is out of range for node at index {node}"
  | .typeMismatch output input =>
    "Type mismatch: cannot connect " ++ output.name ++ " to " ++ input.name
  | .boundaryNode node => "Boundary node " ++ node.text ++ " cannot be edited"
  | .notComposite id => "Function '" ++ id ++ "' is not a composite"

/-- Why a function could not be persisted. -/
inductive CodecError where
  | notComposite (id : String)
  | unknownValueType (tag : TypeTag)
deriving DecidableEq

/-- The message of a function that could not be persisted. -/
def CodecError.message : CodecError → String
  | .notComposite id => "Function '" ++ id ++ "' is not a composite"
  | .unknownValueType tag => "Value type '" ++ tag.name ++ "' is not registered"

/-- Any failure that a host may have to show. -/
inductive Error where
  | run (cause : RunError)
  | edit (cause : EditError)
  | codec (cause : CodecError)
  | compression (detail : String)
  | storage (detail : String)
  | event (detail : String)
deriving DecidableEq

/-- The message of any failure. -/
def Error.message : Error → String
  | .run cause => cause.message
  | .edit cause => cause.message
  | .codec cause => cause.message
  | .compression detail => "Compression error: " ++ detail
  | .storage detail => "I/O error: " ++ detail
  | .event detail => "Event error: " ++ detail

end FlowGraph
