/-
**The registry of value types.**

A registry lists the value types that a host works with, in the order of their registration. Control
flow is always registered, always first, and cannot be replaced; any other type replaces an earlier
one with the same tag and then keeps that one's place.
-/

import FlowGraph.ValueType

namespace FlowGraph

/-- The registered value types. -/
structure Registry where
  /-- Every registered type except control flow, in the order of registration. -/
  others : List ValueType

namespace Registry

/-- The registry of control flow alone. -/
def new : Registry :=
  ⟨[]⟩

/-- All types, control flow first. -/
def types (registry : Registry) : List ValueType :=
  .controlFlow :: registry.others

/-- The number of types. -/
def size (registry : Registry) : Nat :=
  registry.types.length

/-- The type registered under a tag. -/
def get? (registry : Registry) (tag : TypeTag) : Option ValueType :=
  registry.types.find? fun valueType => valueType.tag = tag

/-- Whether a type is registered under a tag. -/
def contains (registry : Registry) (tag : TypeTag) : Bool :=
  (registry.get? tag).isSome

/-- The type registered under a tag, or control flow if there is none. -/
def resolve (registry : Registry) (tag : TypeTag) : ValueType :=
  (registry.get? tag).getD .controlFlow

/-- The default value of the type that a tag resolves to. -/
def default (registry : Registry) (tag : TypeTag) : Value :=
  (registry.resolve tag).default

/-- Puts a type in place of the one with the same tag, or at the end. -/
def place (valueType : ValueType) : List ValueType → List ValueType
  | [] => [valueType]
  | first :: rest =>
    if first.tag = valueType.tag then valueType :: rest else first :: place valueType rest

/-- Registers a type. A type that claims the tag of control flow is ignored. -/
def register (registry : Registry) (valueType : ValueType) : Registry :=
  if valueType.tag.isControlFlow then registry else ⟨place valueType registry.others⟩

/-- Registers every type of another registry, in its order. -/
def merge (registry other : Registry) : Registry :=
  other.others.foldl register registry

/-- The registry of the built-in types. -/
def builtins : Registry :=
  new.register .number |>.register .text |>.register .boolean

end Registry

end FlowGraph
