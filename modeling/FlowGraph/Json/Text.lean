/-
**The text of a JSON value.**

The text is compact. In a text value the quote, the backslash and the control characters below a
space are escaped and every other character stands for itself. Floating-point numbers are written in
`Json.numberStyle`.
-/

import FlowGraph.Decimal.Style
import FlowGraph.Hex
import FlowGraph.Json.Basic

namespace FlowGraph

namespace Json

/-- Numbers from `0.00001` up to `10 ^ 16` have no exponent, whole numbers keep a fraction,
exponents carry a sign, and ties go to even. -/
def numberStyle : NumberStyle where
  positional p := -5 ≤ p && p < 16
  wholeEnding := ".0"
  exponentSign := "+"
  tie := .toEven

/-- The written form of one character of a text value. -/
def escapeChar (c : Char) : List Char :=
  if c = '"' then ['\\', '"']
  else if c = '\\' then ['\\', '\\']
  else if c = '\n' then ['\\', 'n']
  else if c = '\r' then ['\\', 'r']
  else if c = '\t' then ['\\', 't']
  else if c = '\x08' then ['\\', 'b']
  else if c = '\x0c' then ['\\', 'f']
  else if c.toNat < 32 then
    ['\\', 'u', '0', '0', hexChar (hexDigit (c.toNat / 16)), hexChar (hexDigit c.toNat)]
  else [c]

/-- The written form of a text value, quotes included. -/
def quote (s : String) : List Char :=
  '"' :: s.toList.flatMap escapeChar ++ ['"']

mutual

/-- The characters of a value's text. -/
def chars : Json → List Char
  | .null => "null".toList
  | .bool true => "true".toList
  | .bool false => "false".toList
  | .int n => (NumberStyle.integerText n).toList
  | .float x => (numberStyle.write x).toList
  | .str s => quote s
  | .arr items => '[' :: itemChars items ++ [']']
  | .obj fields => '\x7b' :: fieldChars fields ++ ['\x7d']

/-- The characters of a row of items, commas between them. -/
def itemChars : List Json → List Char
  | [] => []
  | [item] => chars item
  | item :: items => chars item ++ ',' :: itemChars items

/-- The characters of a row of fields, commas between them. -/
def fieldChars : List (String × Json) → List Char
  | [] => []
  | [(key, value)] => quote key ++ ':' :: chars value
  | (key, value) :: fields => quote key ++ ':' :: chars value ++ ',' :: fieldChars fields

end

/-- The compact text of a value. -/
def text (value : Json) : String :=
  String.ofList value.chars

end Json

end FlowGraph
