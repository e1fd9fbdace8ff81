/-
**Built-in number functions.**

Arithmetic, comparisons and the text of a number. A missing or mistyped operand counts as the
neutral number of the operation: zero for sums, differences and comparisons, one for products and
quotients.
-/

import FlowGraph.Catalog.Entry
import FlowGraph.Decimal.Style

namespace FlowGraph

namespace Catalog

/-- The operand at a place. -/
def numberAt (inputs : List Value) (place : Nat) (default : Float) : Float :=
  (inputs[place]?.bind Value.number?).getD default

/-- A function of two numbers. -/
def twoNumbers : Side :=
  ⟨["Number 1", "Number 2"], .number⟩

/-- The sum of two numbers. -/
def addNumbers : Entry where
  id := "standard-actions.add-numbers"
  name := "Add"
  description := "Add two numbers."
  inputs := twoNumbers
  outputs := ⟨["Sum"], .number⟩
  mapping inputs := [.number (numberAt inputs 0 0.0 + numberAt inputs 1 0.0)]

/-- The difference of two numbers. -/
def subtractNumbers : Entry where
  id := "standard-actions.subtract-numbers"
  name := "Subtract"
  description := "Subtract two numbers."
  inputs := twoNumbers
  outputs := ⟨["Difference"], .number⟩
  mapping inputs := [.number (numberAt inputs 0 0.0 - numberAt inputs 1 0.0)]

/-- The product of two numbers. -/
def multiplyNumbers : Entry where
  id := "standard-actions.multiply-numbers"
  name := "Multiply"
  description := "Multiply two numbers."
  inputs := twoNumbers
  outputs := ⟨["Product"], .number⟩
  mapping inputs := [.number (numberAt inputs 0 1.0 * numberAt inputs 1 1.0)]

/-- The quotient, in which a divisor of zero counts as one. -/
def quotient (dividend divisor : Float) : Float :=
  dividend / (if divisor == 0.0 then 1.0 else divisor)

/-- The quotient of two numbers. -/
def divideNumbers : Entry where
  id := "standard-actions.divide-numbers"
  name := "Divide"
  description := "Divide two numbers."
  inputs := twoNumbers
  outputs := ⟨["Quotient"], .number⟩
  mapping inputs := [.number (quotient (numberAt inputs 0 1.0) (numberAt inputs 1 1.0))]

/-- Whether two numbers are equal. -/
def equalNumbers : Entry where
  id := "standard-actions.equal-numbers"
  name := "Equal"
  description := "Check if two numbers are equal."
  inputs := twoNumbers
  outputs := ⟨["Equal"], .boolean⟩
  mapping inputs := [.boolean (numberAt inputs 0 0.0 == numberAt inputs 1 0.0)]

/-- Whether the first number is the greater one. -/
def greaterThan : Entry where
  id := "standard-actions.greater-than"
  name := "Greater Than"
  description := "Check if the first number is greater than the second number."
  inputs := twoNumbers
  outputs := ⟨["Comparison"], .boolean⟩
  mapping inputs := [.boolean (numberAt inputs 1 0.0 < numberAt inputs 0 0.0)]

/-- The style of numbers turned into texts: never an exponent, and no fraction on whole numbers. -/
def plainStyle : NumberStyle where
  positional _ := true
  wholeEnding := ""
  exponentSign := ""
  tie := .up

/-- The text of a number. A whole number below `2 ^ 63` is written exactly and without the sign of
zero; any other number by its shortest digits. -/
def numberText (x : Float) : String :=
  match (Magnitude.ofFloat x).whole? with
  | some n =>
    if x.isFinite && n < Nat.pow 2 63 then
      NumberStyle.integerText (if isNegative x then -(n : Int) else n)
    else plainStyle.write x
  | none => plainStyle.write x

/-- The text of a number. -/
def numberToText : Entry where
  id := "standard-actions.number-to-text"
  name := "Number to Text"
  description := "Convert a number into a text."
  inputs := ⟨["Number"], .number⟩
  outputs := ⟨["Text"], .text⟩
  mapping inputs := [.text (numberText (numberAt inputs 0 0.0))]

/-- The folders of number functions. -/
def numberFolders : List (Folder Entry) :=
  [⟨"Number Operators", [addNumbers, subtractNumbers, multiplyNumbers, divideNumbers]⟩,
    ⟨"Number Relations", [equalNumbers, greaterThan]⟩,
    ⟨"Convert Number", [numberToText]⟩]

end Catalog

end FlowGraph
