/-
**Built-in text functions.**

A missing or mistyped text counts as the empty text. A text that spells no number converts to zero.
-/

import FlowGraph.Catalog.Entry
import FlowGraph.Decimal.Reading

namespace FlowGraph

namespace Catalog

/-- The text at a place. -/
def textAt (inputs : List Value) (place : Nat) : String :=
  (inputs[place]?.bind Value.text?).getD ""

/-- A function of two texts. -/
def twoTexts : Side :=
  ⟨["Text 1", "Text 2"], .text⟩

/-- Two texts, one behind the other. -/
def addText : Entry where
  id := "standard-actions.add-text"
  name := "Add Text"
  description := "Combine two texts."
  inputs := twoTexts
  outputs := ⟨["Text"], .text⟩
  mapping inputs := [.text (textAt inputs 0 ++ textAt inputs 1)]

/-- Whether two texts are equal. -/
def equalText : Entry where
  id := "standard-actions.equal-text"
  name := "Equal"
  description := "Check if two texts are equal."
  inputs := twoTexts
  outputs := ⟨["Comparison"], .boolean⟩
  mapping inputs := [.boolean (textAt inputs 0 = textAt inputs 1)]

/-- The number that a text spells. -/
def textToNumber : Entry where
  id := "standard-actions.text-to-number"
  name := "Text to Number"
  description := "Convert a text into a number."
  inputs := ⟨["Text"], .text⟩
  outputs := ⟨["Number"], .number⟩
  mapping inputs := [.number ((readNumber? (textAt inputs 0)).getD 0.0)]

/-- The folders of text functions. -/
def textFolders : List (Folder Entry) :=
  [⟨"Text Operators", [addText]⟩,
    ⟨"Text Relations", [equalText]⟩,
    ⟨"Convert Text", [textToNumber]⟩]

end Catalog

end FlowGraph
