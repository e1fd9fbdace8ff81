/-
**Values that travel along wires.**

Four kinds of values are built in: control flow, numbers, texts and truth values. A host adds kinds
of its own, whose values carry a tag and a JSON payload. The tag of a value says which type it has.
-/

import FlowGraph.Json.Basic

namespace FlowGraph

/-- The name of a value type. -/
structure TypeTag where
  name : String
deriving DecidableEq

namespace TypeTag

/-- The tag of control flow. -/
def controlFlow : TypeTag := ⟨"control-flow"⟩

/-- The tag of numbers. -/
def number : TypeTag := ⟨"number"⟩

/-- The tag of texts. -/
def text : TypeTag := ⟨"text"⟩

/-- The tag of truth values. -/
def boolean : TypeTag := ⟨"boolean"⟩

/-- Whether this is the tag of control flow. -/
def isControlFlow (tag : TypeTag) : Bool :=
  tag = controlFlow

end TypeTag

/-- Whether a node is allowed to run. -/
inductive Flow where
  | signal
  | noSignal
deriving DecidableEq

namespace Flow

/-- A true condition lets the signal through. -/
def ofBool (b : Bool) : Flow :=
  if b then signal else noSignal

/-- Whether the signal is on. -/
def isSignal (flow : Flow) : Bool :=
  flow = signal

end Flow

/-- A value. -/
inductive Value where
  | flow (state : Flow)
  | number (x : Float)
  | text (s : String)
  | boolean (b : Bool)
  | custom (tag : TypeTag) (data : Json)
deriving DecidableEq

namespace Value

/-- The signal that lets a node run. -/
def signal : Value :=
  .flow .signal

/-- The value that keeps a node from running. -/
def noSignal : Value :=
  .flow .noSignal

/-- The tag of a value's type. -/
def tag : Value → TypeTag
  | .flow _ => .controlFlow
  | .number _ => .number
  | .text _ => .text
  | .boolean _ => .boolean
  | .custom tag _ => tag

/-- Whether the value is the signal. -/
def isSignal (value : Value) : Bool :=
  value = signal

/-- The control flow, if the value is one. -/
def flow? : Value → Option Flow
  | .flow state => some state
  | _ => none

/-- The number, if the value is one. -/
def number? : Value → Option Float
  | .number x => some x
  | _ => none

/-- The text, if the value is one. -/
def text? : Value → Option String
  | .text s => some s
  | _ => none

/-- The truth value, if the value is one. -/
def boolean? : Value → Option Bool
  | .boolean b => some b
  | _ => none

/-- Equality of content: numbers compare as numbers, so `NaN` differs from itself and the two zeros
are equal; payloads compare by `Json.same`. -/
def same : Value → Value → Bool
  | .flow a, .flow b => a = b
  | .number a, .number b => a == b
  | .text a, .text b => a = b
  | .boolean a, .boolean b => a = b
  | .custom s a, .custom t b => s = t && a.same b
  | _, _ => false

end Value

end FlowGraph
