/-
**Reading typed values from a JSON document.**

A reader turns a document, or a part of one, into a value of some type. It is given the number of
containers that may still be opened: at most `nestingLimit` arrays and objects may be nested in what
is read. A structure may be written as an object or as the row of its fields in order. In an object
unknown keys are skipped together with their values, however deep these are, while a field that
comes twice is refused.

Texts do not settle how a decimal becomes a floating-point number: some readers take the nearest
one, others round on the way and can miss it. So this is left open (`DecimalReading`); the nearest
one is taken where nothing else is said.

* `Reader.json`: any value;
* `Reader.fields`: the fields of a structure, by name;
* `Reader.run`: a whole text.
-/

import FlowGraph.Json.Basic
import FlowGraph.Json.Written
import FlowGraph.Uuid

namespace FlowGraph

namespace Json

/-- The number of arrays and objects that may be nested in what is read. -/
def nestingLimit : Nat :=
  127

/-! ### Numbers -/

/-- The way in which decimals are read as floating-point numbers. -/
class DecimalReading where
  toFloat : Decimal → Float

/-- Every decimal is read as the nearest number. -/
instance DecimalReading.nearest : DecimalReading where
  toFloat := Decimal.toFloat

variable [DecimalReading]

/-- The number that a numeral denotes, as a floating-point number; it has to be finite. -/
def Numeral.float? (n : Numeral) : Option Float :=
  let d := Decimal.ofParts n.whole (n.fraction.getD []) (n.exponent.getD 0)
  let x := if n.negative then -DecimalReading.toFloat d else DecimalReading.toFloat d
  if x.isFinite then some x else none

/-- The whole number that a numeral without fraction and exponent denotes, when sixty-four bits hold
it. Minus zero is not a whole number. -/
def Numeral.int? (n : Numeral) : Option Int :=
  if n.fraction.isSome ∨ n.exponent.isSome then none
  else
    let value := digitsValue n.whole
    if n.negative then
      if 0 < value ∧ value ≤ Nat.pow 2 63 then some (-(value : Int)) else none
    else if value < Nat.pow 2 64 then some value else none

/-- The number that a numeral denotes. -/
def Numeral.json? (n : Numeral) : Option Json :=
  match n.int? with
  | some i => some (.int i)
  | none => n.float?.map .float

/-! ### Readers -/

/-- A reader: given how many containers may still be opened, reads a document. -/
abbrev Reader (α : Type) : Type :=
  Nat → Written → Option α

namespace Reader

mutual

/-- Reads any value; of several fields with one key the last one stays. -/
def json (room : Nat) : Written → Option Json
  | .null => some .null
  | .bool b => some (.bool b)
  | .number n => n.json?
  | .str s => s.map .str
  | .arr items =>
    match room with
    | 0 => none
    | room + 1 => (jsonItems room items).map .arr
  | .obj fields =>
    match room with
    | 0 => none
    | room + 1 => (jsonFields room fields).map .object

/-- Reads a row of items. -/
def jsonItems (room : Nat) : List Written → Option (List Json)
  | [] => some []
  | item :: items => do
    let value ← json room item
    let values ← jsonItems room items
    return value :: values

/-- Reads a row of fields. -/
def jsonFields (room : Nat) : List (Option String × Written) → Option (List (String × Json))
  | [] => some []
  | (key, item) :: fields => do
    let key ← key
    let value ← json room item
    let values ← jsonFields room fields
    return (key, value) :: values

end

/-- Reads a text. -/
def text : Reader String
  | _, .str s => s
  | _, _ => none

/-- Reads a truth value. -/
def bool : Reader Bool
  | _, .bool b => some b
  | _, _ => none

/-- Reads a floating-point number from any numeral. -/
def float : Reader Float
  | _, .number n => n.json?.bind Json.number?
  | _, _ => none

/-- Reads a whole number between two bounds. -/
def intBetween (low high : Int) : Reader Int
  | _, .number n => n.int?.bind fun i => if low ≤ i ∧ i ≤ high then some i else none
  | _, _ => none

/-- Reads a natural number of sixty-four bits. -/
def nat : Reader Nat
  | _, .number n => n.int?.bind fun i => if 0 ≤ i then some i.toNat else none
  | _, _ => none

/-- Reads an identifier. -/
def uuid : Reader Uuid
  | room, doc => (text room doc).bind Uuid.parse?

/-- Reads a row of values. -/
def list {α : Type} (item : Reader α) : Reader (List α)
  | room + 1, .arr items => items.mapM (item room)
  | _, _ => none

/-- Reads a value that may be absent, which `null` says. -/
def optional {α : Type} (item : Reader α) : Reader (Option α)
  | _, .null => some none
  | room, doc => (item room doc).map some

/-- Changes what is read. -/
def map {α β : Type} (f : α → β) (item : Reader α) : Reader β :=
  fun room doc => (item room doc).map f

/-! ### Structures -/

/-- A structure as it was found: the fields that are present, by name, and how many containers may
still be opened inside them. -/
structure Found where
  room : Nat
  present : List (String × Written)

/-- Takes the known fields out of an object. Every key has to have a value, and no known field may
come twice. `name?` gives the field that a key stands for. -/
def known? (name? : String → Option String) :
    List (Option String × Written) → Option (List (String × Written))
  | [] => some []
  | (key, doc) :: rest => do
    let key ← key
    let found ← known? name? rest
    match name? key with
    | none => return found
    | some name => if (found.lookup name).isSome then none else return (name, doc) :: found

/-- Reads a structure with the given field names, written as an object or as a row. Some keys may be
other spellings of a field. -/
def fields (names : List String) (spellings : List (String × String)) : Reader Found
  | room + 1, .obj fields =>
    let name? (key : String) : Option String :=
      let name := (spellings.lookup key).getD key
      if name ∈ names then some name else none
    (known? name? fields).map (⟨room, ·⟩)
  | room + 1, .arr items =>
    if items.length ≤ names.length then some ⟨room, names.zip items⟩ else none
  | _, _ => none

/-- A field that has to be present. -/
def Found.required {α : Type} (found : Found) (name : String) (item : Reader α) : Option α :=
  (found.present.lookup name).bind (item found.room)

/-- A field with a default, used when it is absent. -/
def Found.withDefault {α : Type} (found : Found) (name : String) (default : α) (item : Reader α) :
    Option α :=
  match found.present.lookup name with
  | none => some default
  | some doc => item found.room doc

/-- Reads a whole text. -/
def run {α : Type} (item : Reader α) (text : String) : Option α :=
  (Written.parse? text).bind (item nestingLimit)

end Reader

/-- The value of a text. -/
def parse? (text : String) : Option Json :=
  Reader.run Reader.json text

end Json

end FlowGraph
