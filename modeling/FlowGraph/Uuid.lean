/-
**Universally unique identifiers.**

An identifier is thirty-two hexadecimal digits. It is written in lower case, hyphenated into groups
of 8, 4, 4, 4 and 12 digits. It may be read in four spellings, in either case: the bare digits, the
hyphenated form, the hyphenated form in braces, and the hyphenated form behind `urn:uuid:`.

* `Uuid.text`: the written form;
* `Uuid.parse?`: the reader of all four spellings;
* `Uuid.ofNat`: the identifier whose digits spell a number in base sixteen.
-/

import FlowGraph.Hex

namespace FlowGraph

/-- An identifier: thirty-two hexadecimal digits, the most significant first. -/
structure Uuid where
  digits : List (Fin 16)
  length_digits : digits.length = 32
deriving DecidableEq

namespace Uuid

/-! ### Digits -/

/-- The identifier with the given digits, when there are thirty-two of them. -/
def ofDigits? (digits : List (Fin 16)) : Option Uuid :=
  if size : digits.length = 32 then some ⟨digits, size⟩ else none

/-- The identifier whose digits are those of `n` in base sixteen, modulo `16 ^ 32`. -/
def ofNat (n : Nat) : Uuid where
  digits := (List.range 32).map fun place => hexDigit (n / Nat.pow 16 (31 - place))
  length_digits := by simp

/-! ### Hyphens -/

/-- The sizes of the hyphenated groups. -/
def groups : List Nat :=
  [8, 4, 4, 4, 12]

/-- Cuts a row of characters into groups and puts a hyphen between neighbours. -/
def hyphenate : List Nat → List Char → List Char
  | [], cs => cs
  | [_], cs => cs
  | size :: sizes, cs => cs.take size ++ '-' :: hyphenate sizes (cs.drop size)

/-- Takes the hyphens out again; fails unless they stand exactly between the groups. -/
def unhyphenate? : List Nat → List Char → Option (List Char)
  | [], cs => some cs
  | [_], cs => some cs
  | size :: sizes, cs =>
    match cs.drop size with
    | '-' :: rest => (unhyphenate? sizes rest).map (cs.take size ++ ·)
    | _ => none

/-! ### Text -/

/-- The written form: lower case, hyphenated. -/
def text (u : Uuid) : String :=
  String.ofList (hyphenate groups (u.digits.map hexChar))

/-- The marker in front of an identifier written as a resource name, in lower case. -/
def urn : List Char :=
  "urn:uuid:".toList

/-- The bare digits of a spelling: the length of the text tells which spelling it has to be. The
marker of a resource name may be in either case. -/
def bare? (cs : List Char) : Option (List Char) :=
  if cs.length = 32 then some cs
  else if cs.length = 36 then unhyphenate? groups cs
  else if cs.length = 38 then
    if cs.head? = some '\x7b' ∧ cs.getLast? = some '\x7d' then
      unhyphenate? groups (cs.drop 1).dropLast
    else none
  else if cs.length = 45 then
    if (cs.take urn.length).map Char.toLower = urn then unhyphenate? groups (cs.drop urn.length)
    else none
  else none

/-- Reads an identifier in any of its four spellings. -/
def parse? (text : String) : Option Uuid := do
  let cs ← bare? text.toList
  let digits ← cs.mapM hexValue?
  ofDigits? digits

end Uuid

end FlowGraph
