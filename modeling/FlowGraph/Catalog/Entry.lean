/-
**Entries of the catalog.**

An entry describes a built-in native function without its parameter identifiers. Making the function
draws these. All parameters of one side of a built-in function have the same type.
-/

import FlowGraph.Function.Fresh

namespace FlowGraph

/-- The names of the parameters on one side of a function, and their common type. -/
structure Side where
  names : List String
  type : TypeTag

namespace Side

/-- A side without parameters. -/
def none : Side :=
  ⟨[], .controlFlow⟩

/-- The parameters of a side. -/
def parameters (side : Side) : Fresh (List Parameter) :=
  Parameter.freshAll side.names side.type

end Side

/-- A built-in native function. -/
structure Entry where
  id : String
  name : String
  description : String
  inputs : Side
  outputs : Side
  mapping : List Value → List Value

/-- The function of an entry. -/
def Entry.function (entry : Entry) : Fresh Function := do
  let inputs ← entry.inputs.parameters
  let outputs ← entry.outputs.parameters
  let f := Function.native entry.id entry.name inputs outputs entry.mapping
  return f.withDescription entry.description

/-- A folder of built-in functions. -/
def Folder.ofEntries (folder : Folder Entry) : Fresh (Folder Function) := do
  let content ← folder.content.mapM Entry.function
  return ⟨folder.title, content⟩

end FlowGraph
