/-
**Built-in truth-value and control flow functions.**

Logical operators and the conversions between truth values and control flow.
-/

import FlowGraph.Catalog.Entry

namespace FlowGraph

namespace Catalog

/-- The truth value at a place. -/
def booleanAt (inputs : List Value) (place : Nat) (default : Bool) : Bool :=
  (inputs[place]?.bind Value.boolean?).getD default

/-- A function of two truth values. -/
def twoBooleans : Side :=
  ⟨["Boolean 1", "Boolean 2"], .boolean⟩

/-- A single truth value. -/
def oneBoolean : Side :=
  ⟨["Boolean"], .boolean⟩

/-- Whether both truth values hold. -/
def logicalAnd : Entry where
  id := "standard-actions.and"
  name := "And"
  description := "The output is only true if both of the inputs are true."
  inputs := twoBooleans
  outputs := oneBoolean
  mapping inputs := [.boolean (booleanAt inputs 0 false && booleanAt inputs 1 false)]

/-- Whether at least one truth value holds. -/
def logicalOr : Entry where
  id := "standard-actions.or"
  name := "Or"
  description := "The output is true if at least one of the inputs is true."
  inputs := twoBooleans
  outputs := oneBoolean
  mapping inputs := [.boolean (booleanAt inputs 0 false || booleanAt inputs 1 false)]

/-- The opposite truth value; a missing one counts as true. -/
def logicalNot : Entry where
  id := "standard-actions.not"
  name := "Not"
  description := "Reverse the logical state of the input."
  inputs := oneBoolean
  outputs := oneBoolean
  mapping inputs := [.boolean (!booleanAt inputs 0 true)]

/-- Lets the signal through where a truth value holds. The result follows the implicit control flow,
although no output slot is declared for it. -/
def booleanToControlFlow : Entry where
  id := "standard-actions.boolean-to-control-flow"
  name := "Boolean to Control Flow"
  description := "Convert a boolean into the control flow."
  inputs := oneBoolean
  outputs := .none
  mapping inputs := [.flow (.ofBool (booleanAt inputs 0 false))]

/-- Whether the control flow that comes as data is the signal; a missing one counts as the
signal. -/
def controlFlowToBoolean : Entry where
  id := "standard-actions.control-flow-to-boolean"
  name := "Control Flow to Boolean"
  description := "Convert the control flow into a boolean."
  inputs := .none
  outputs := oneBoolean
  mapping inputs := [.boolean ((inputs.head?.bind Value.flow?).getD .signal).isSignal]

/-- The folders of truth-value and control flow functions. -/
def logicFolders : List (Folder Entry) :=
  [⟨"Logical Operators", [logicalAnd, logicalOr, logicalNot]⟩,
    ⟨"Convert Boolean", [booleanToControlFlow]⟩,
    ⟨"Convert Control Flow", [controlFlowToBoolean]⟩]

end Catalog

end FlowGraph
