/-
**The catalog of built-in functions.**

The catalog is the roster that an editor offers: the built-in functions in their folders and, at the
end, one merge function for every registered type. Merge functions of built-in types come first, in
a fixed order; those of host types follow in the order of registration.
-/

import FlowGraph.Arrange
import FlowGraph.Catalog.Logic
import FlowGraph.Catalog.Number
import FlowGraph.Catalog.Text
import FlowGraph.Registry

namespace FlowGraph

namespace Catalog

/-- The built-in types in the order of their merge functions. -/
def mergeOrder : List TypeTag :=
  [.text, .number, .boolean, .controlFlow]

/-- The rank of a type among the merge functions. -/
def mergeRank (valueType : ValueType) : Nat :=
  mergeOrder.idxOf valueType.tag

/-- The registered types in the order of their merge functions. -/
def mergeTypes (registry : Registry) : List ValueType :=
  arrange (fun a b => mergeRank a ≤ mergeRank b) registry.types

/-- One merge function for every registered type. -/
def mergeFunctions (registry : Registry) : Fresh (List Function) :=
  (mergeTypes registry).mapM Function.merge

/-- The folders of entries. -/
def entryFolders : List (Folder Entry) :=
  numberFolders ++ textFolders ++ logicFolders

/-- The whole catalog for a registry. -/
def folders (registry : Registry) : Fresh (List (Folder Function)) := do
  let entries ← entryFolders.mapM Folder.ofEntries
  let merges ← mergeFunctions registry
  return entries ++ [⟨"Merge Flow", merges⟩]

end Catalog

end FlowGraph
