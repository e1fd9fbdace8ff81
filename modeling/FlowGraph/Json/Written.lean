/-
**A JSON document as written.**

Between the tokens of a text and the values read from it stands the document as written: numerals
keep their digits, an object keeps every field in order, and a quoted text may lack a value. Nesting
is not limited here; a reader limits the nesting of what it reads.

The tokens are taken one at a time by a machine with a stack of the containers that are still open.

* `Written.step?`: what one token does to the machine;
* `Written.parse?`: the document of a text.
-/

import FlowGraph.Json.Token

namespace FlowGraph

namespace Json

/-- A document as written. -/
inductive Written where
  | null
  | bool (b : Bool)
  | number (n : Numeral)
  | str (s : Option String)
  | arr (items : List Written)
  | obj (fields : List (Option String × Written))

namespace Written

/-- A container that is still open, its finished parts last first. -/
inductive Frame where
  | arr (items : List Written)
  /-- An object that waits for the value of `key`. -/
  | obj (fields : List (Option String × Written)) (key : Option String)

/-- What the machine is ready for. -/
inductive Phase where
  /-- A value has to come. -/
  | value
  /-- An array was opened: a value or its end has to come. -/
  | item
  /-- An object was opened: a key or its end has to come. -/
  | member
  /-- A comma in an object with these fields, last first: a key has to come. -/
  | key (fields : List (Option String × Written))
  /-- A key in an object with these fields, last first: a colon has to come. -/
  | colon (fields : List (Option String × Written)) (key : Option String)
  /-- A value is complete: its container goes on or ends, or the text ends. -/
  | complete (value : Written)

/-- The machine: what it is ready for and the containers that are open, innermost first. -/
structure Machine where
  phase : Phase
  frames : List Frame

/-- The machine before the first token. -/
def Machine.start : Machine :=
  ⟨.value, []⟩

/-- What a token that starts a value does. -/
def Machine.begin? (frames : List Frame) : Token → Option Machine
  | .null => some ⟨.complete .null, frames⟩
  | .bool b => some ⟨.complete (.bool b), frames⟩
  | .number n => some ⟨.complete (.number n), frames⟩
  | .str s => some ⟨.complete (.str s), frames⟩
  | .openArr => some ⟨.item, frames⟩
  | .openObj => some ⟨.member, frames⟩
  | _ => none

/-- What a token does after a complete value, by the innermost open container. -/
def Machine.continue? (value : Written) : List Frame → Token → Option Machine
  | .arr items :: frames, .comma => some ⟨.value, .arr (value :: items) :: frames⟩
  | .arr items :: frames, .closeArr => some ⟨.complete (.arr (value :: items).reverse), frames⟩
  | .obj fields key :: frames, .comma => some ⟨.key ((key, value) :: fields), frames⟩
  | .obj fields key :: frames, .closeObj =>
    some ⟨.complete (.obj ((key, value) :: fields).reverse), frames⟩
  | _, _ => none

/-- What one token does to the machine. -/
def Machine.step? (m : Machine) (token : Token) : Option Machine :=
  match m.phase, token with
  | .value, token => begin? m.frames token
  | .item, .closeArr => some ⟨.complete (.arr []), m.frames⟩
  | .item, token => begin? (.arr [] :: m.frames) token
  | .member, .closeObj => some ⟨.complete (.obj []), m.frames⟩
  | .member, .str key => some ⟨.colon [] key, m.frames⟩
  | .key fields, .str key => some ⟨.colon fields key, m.frames⟩
  | .colon fields key, .colon => some ⟨.value, .obj fields key :: m.frames⟩
  | .complete value, token => continue? value m.frames token
  | _, _ => none

/-- The document, when a value is complete and no container is open. -/
def Machine.result? : Machine → Option Written
  | ⟨.complete value, []⟩ => some value
  | _ => none

/-- The document that tokens spell. -/
def ofTokens? (tokens : List Token) : Option Written := do
  let last ← tokens.foldlM Machine.step? Machine.start
  last.result?

/-- The document of a text. -/
def parse? (text : String) : Option Written := do
  let tokens ← Token.all? text.toList
  ofTokens? tokens

end Written

end Json

end FlowGraph
