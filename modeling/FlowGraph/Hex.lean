/-
**Hexadecimal digits.**

Digits are written in lower case and read in either case.
-/

namespace FlowGraph

/-- The last hexadecimal digit of a number. -/
def hexDigit (n : Nat) : Fin 16 :=
  Fin.ofNat 16 n

/-- The character of a hexadecimal digit, in lower case. -/
def hexChar (digit : Fin 16) : Char :=
  Nat.digitChar digit

/-- The hexadecimal digit that a character stands for, in either case. -/
def hexValue? (c : Char) : Option (Fin 16) :=
  if '0' ≤ c ∧ c ≤ '9' then some (hexDigit (c.toNat - '0'.toNat))
  else if 'a' ≤ c ∧ c ≤ 'f' then some (hexDigit (c.toNat - 'a'.toNat + 10))
  else if 'A' ≤ c ∧ c ≤ 'F' then some (hexDigit (c.toNat - 'A'.toNat + 10))
  else none

/-- A digit's character reads back as the digit. -/
@[simp] theorem hexValue?_hexChar (digit : Fin 16) : hexValue? (hexChar digit) = some digit := by
  revert digit
  decide

end FlowGraph
