/-
**The tokens of a JSON text.**

A text splits into punctuation, the three literal words, numerals and quoted texts, with blanks
(space, tab, line feed, carriage return) allowed between them. A numeral keeps its digits as
written, since how it is read depends on where it stands. A quoted text whose escapes leave half of
a surrogate pair alone has no value; it is still a token, since it may stand where nobody reads it.

* `Token.next?`: the first token and the rest of the text;
* `Token.length_next?_lt`: a token takes at least one character;
* `Token.all?`: all tokens of a text.
-/

import FlowGraph.Decimal.Reading
import FlowGraph.Hex

namespace FlowGraph

namespace Json

/-- A numeral as written. -/
structure Numeral where
  negative : Bool
  /-- The digits before the point. -/
  whole : List Char
  /-- The digits after the point, if there is one. -/
  fraction : Option (List Char)
  /-- The exponent, if there is one. -/
  exponent : Option Int
deriving DecidableEq

/-- A token of a JSON text. -/
inductive Token where
  | openArr
  | closeArr
  | openObj
  | closeObj
  | comma
  | colon
  | null
  | bool (b : Bool)
  | number (n : Numeral)
  /-- A quoted text, without a value if half of a surrogate pair stands alone in it. -/
  | str (s : Option String)
deriving DecidableEq

/-! ### Quoted texts -/

/-- The sixteen-bit unit that four hexadecimal digits spell. -/
def unit? (a b c d : Char) : Option Nat := do
  let a ← hexValue? a
  let b ← hexValue? b
  let c ← hexValue? c
  let d ← hexValue? d
  return ((a.val * 16 + b.val) * 16 + c.val) * 16 + d.val

/-- A piece of a quoted text. -/
inductive Piece where
  /-- A character that stands for itself or has an escape of its own. -/
  | char (c : Char)
  /-- A sixteen-bit unit, escaped by its number. -/
  | unit (n : Nat)
deriving DecidableEq

/-- The character that a one-letter escape stands for. -/
def escaped? (c : Char) : Option Char :=
  if c = '"' ∨ c = '\\' ∨ c = '/' then some c
  else if c = 'n' then some '\n'
  else if c = 'r' then some '\r'
  else if c = 't' then some '\t'
  else if c = 'b' then some '\x08'
  else if c = 'f' then some '\x0c'
  else none

/-- The pieces of a quoted text up to its closing quote, and what follows the quote. -/
def pieces? : List Char → Option (List Piece × List Char)
  | [] => none
  | '"' :: rest => some ([], rest)
  | '\\' :: 'u' :: a :: b :: c :: d :: rest => do
    let n ← unit? a b c d
    let (pieces, rest) ← pieces? rest
    return (.unit n :: pieces, rest)
  | '\\' :: e :: rest => do
    let c ← escaped? e
    let (pieces, rest) ← pieces? rest
    return (.char c :: pieces, rest)
  | c :: rest =>
    if c.toNat < 32 ∨ c = '\\' then none
    else do
      let (pieces, rest) ← pieces? rest
      return (.char c :: pieces, rest)

/-- The characters that pieces spell: a high surrogate needs a low one right behind it, and a low
one may not stand without a high one. -/
def spell? : List Piece → Option (List Char)
  | [] => some []
  | .char c :: rest => (spell? rest).map (c :: ·)
  | .unit n :: rest =>
    if 0xD800 ≤ n ∧ n < 0xDC00 then
      match rest with
      | .unit m :: rest =>
        if 0xDC00 ≤ m ∧ m < 0xE000 then
          (spell? rest).map (Char.ofNat (0x10000 + (n - 0xD800) * 0x400 + (m - 0xDC00)) :: ·)
        else none
      | _ => none
    else if 0xDC00 ≤ n ∧ n < 0xE000 then none
    else (spell? rest).map (Char.ofNat n :: ·)

/-! ### Numerals -/

/-- The digits before the point: a single zero, or digits that do not start with a zero. -/
def whole? (cs : List Char) : Option (List Char × List Char) :=
  let (digits, rest) := spanDigits cs
  if digits = [] ∨ (digits.head? = some '0' ∧ digits.length ≠ 1) then none
  else some (digits, rest)

/-- The digits after a point, if a point comes next. -/
def fraction? : List Char → Option (Option (List Char) × List Char)
  | '.' :: rest =>
    let (digits, rest) := spanDigits rest
    if digits = [] then none else some (some digits, rest)
  | cs => some (none, cs)

/-- An exponent, if its mark comes next. -/
def exponent? : List Char → Option (Option Int × List Char)
  | [] => some (none, [])
  | c :: rest =>
    if c = 'e' ∨ c = 'E' then
      let (negative, rest) := spanSign rest
      let (digits, rest) := spanDigits rest
      if digits = [] then none
      else some (some (if negative then -(digitsValue digits : Int) else digitsValue digits), rest)
    else some (none, c :: rest)

/-- An unsigned numeral. -/
def numeral? (negative : Bool) (cs : List Char) : Option (Numeral × List Char) := do
  let (whole, rest) ← whole? cs
  let (fraction, rest) ← fraction? rest
  let (exponent, rest) ← exponent? rest
  return (⟨negative, whole, fraction, exponent⟩, rest)

/-! ### Tokens -/

/-- Whether a character is a blank between tokens. -/
def isBlank (c : Char) : Bool :=
  c = ' ' || c = '\t' || c = '\n' || c = '\r'

namespace Token

/-- The first token of a text that does not start with a blank, and the rest. -/
def next? : List Char → Option (Token × List Char)
  | [] => none
  | '[' :: rest => some (.openArr, rest)
  | ']' :: rest => some (.closeArr, rest)
  | '\x7b' :: rest => some (.openObj, rest)
  | '\x7d' :: rest => some (.closeObj, rest)
  | ',' :: rest => some (.comma, rest)
  | ':' :: rest => some (.colon, rest)
  | 'n' :: 'u' :: 'l' :: 'l' :: rest => some (.null, rest)
  | 't' :: 'r' :: 'u' :: 'e' :: rest => some (.bool true, rest)
  | 'f' :: 'a' :: 'l' :: 's' :: 'e' :: rest => some (.bool false, rest)
  | '"' :: rest => (pieces? rest).map fun (pieces, rest) =>
      (.str ((spell? pieces).map String.ofList), rest)
  | '-' :: rest => (numeral? true rest).map fun (n, rest) => (.number n, rest)
  | cs => (numeral? false cs).map fun (n, rest) => (.number n, rest)

end Token

/-! ### Scanners take characters off the front -/

theorem length_spanDigits_le (cs : List Char) : (spanDigits cs).2.length ≤ cs.length :=
  (List.dropWhile_sublist _).length_le

theorem length_spanSign_le (cs : List Char) : (spanSign cs).2.length ≤ cs.length := by
  unfold spanSign
  split <;> simp

/-- A quoted text takes at least its closing quote. -/
theorem length_pieces?_lt {cs : List Char} {found : List Piece × List Char}
    (scanned : pieces? cs = some found) : found.2.length < cs.length := by
  fun_induction pieces? cs generalizing found with
  | case1 => simp at scanned
  | case2 rest => simp_all; simp [← scanned]
  | case3 a b c d rest ih =>
    simp only [bind, Option.bind_eq_some_iff, pure, Option.some.injEq] at scanned
    obtain ⟨_, _, inner, more, rfl⟩ := scanned
    have := ih more
    simp only [List.length_cons] at *
    omega
  | case4 e rest _ ih =>
    simp only [bind, Option.bind_eq_some_iff, pure, Option.some.injEq] at scanned
    obtain ⟨_, _, inner, more, rfl⟩ := scanned
    have := ih more
    simp only [List.length_cons] at *
    omega
  | case5 => simp at scanned
  | case6 c rest _ _ _ _ ih =>
    simp only [bind, Option.bind_eq_some_iff, pure, Option.some.injEq] at scanned
    obtain ⟨inner, more, rfl⟩ := scanned
    have := ih more
    simp only [List.length_cons] at *
    omega

/-- The digits before the point are at least one character. -/
theorem length_whole?_lt {cs : List Char} {found : List Char × List Char}
    (scanned : whole? cs = some found) : found.2.length < cs.length := by
  simp only [whole?] at scanned
  split at scanned
  · simp at scanned
  · next nonempty =>
    simp only [Option.some.injEq] at scanned
    subst scanned
    have split : cs.takeWhile Char.isDigit ++ cs.dropWhile Char.isDigit = cs :=
      List.takeWhile_append_dropWhile
    have total := congrArg List.length split
    have first : 0 < (cs.takeWhile Char.isDigit).length := by
      rw [List.length_pos_iff]
      exact fun none => nonempty (.inl none)
    rw [List.length_append] at total
    simp only [spanDigits]
    omega

theorem length_fraction?_le {cs : List Char} {found : Option (List Char) × List Char}
    (scanned : fraction? cs = some found) : found.2.length ≤ cs.length := by
  unfold fraction? at scanned
  split at scanned
  · next rest =>
    simp only at scanned
    split at scanned
    · simp at scanned
    · simp only [Option.some.injEq] at scanned
      subst scanned
      have := length_spanDigits_le rest
      simp only [List.length_cons]
      omega
  · simp only [Option.some.injEq] at scanned
    subst scanned
    exact Nat.le_refl _

theorem length_exponent?_le {cs : List Char} {found : Option Int × List Char}
    (scanned : exponent? cs = some found) : found.2.length ≤ cs.length := by
  unfold exponent? at scanned
  split at scanned
  · simp only [Option.some.injEq] at scanned
    subst scanned
    exact Nat.le_refl _
  · next c rest =>
    split at scanned
    · simp only at scanned
      split at scanned
      · simp at scanned
      · simp only [Option.some.injEq] at scanned
        subst scanned
        have := length_spanDigits_le (spanSign rest).2
        have := length_spanSign_le rest
        simp only [List.length_cons]
        omega
    · simp only [Option.some.injEq] at scanned
      subst scanned
      exact Nat.le_refl _

/-- A numeral takes at least one character. -/
theorem length_numeral?_lt {negative : Bool} {cs : List Char} {found : Numeral × List Char}
    (scanned : numeral? negative cs = some found) : found.2.length < cs.length := by
  simp only [numeral?, bind, Option.bind_eq_some_iff, pure, Option.some.injEq] at scanned
  obtain ⟨whole, scannedWhole, fraction, scannedFraction, exponent, scannedExponent, rfl⟩ := scanned
  have := length_whole?_lt scannedWhole
  have := length_fraction?_le scannedFraction
  have := length_exponent?_le scannedExponent
  simp only
  omega

/-- A token takes at least one character. -/
theorem Token.length_next?_lt {cs : List Char} {found : Token × List Char}
    (scanned : Token.next? cs = some found) : found.2.length < cs.length := by
  unfold Token.next? at scanned
  split at scanned
  case h_1 => simp at scanned
  case h_11 rest =>
    simp only [Option.map_eq_some_iff] at scanned
    obtain ⟨inner, more, rfl⟩ := scanned
    have := length_pieces?_lt more
    simp only [List.length_cons]
    omega
  case h_12 rest =>
    simp only [Option.map_eq_some_iff] at scanned
    obtain ⟨inner, more, rfl⟩ := scanned
    have := length_numeral?_lt more
    simp only [List.length_cons]
    omega
  case h_13 =>
    simp only [Option.map_eq_some_iff] at scanned
    obtain ⟨inner, more, rfl⟩ := scanned
    exact length_numeral?_lt more
  all_goals
    simp only [Option.some.injEq] at scanned
    subst scanned
    simp only [List.length_cons]
    omega

/-! ### All tokens of a text -/

/-- The tokens of a text, blanks between them skipped. -/
def Token.all? (cs : List Char) : Option (List Token) :=
  match cs with
  | [] => some []
  | c :: rest =>
    if isBlank c then Token.all? rest
    else
      match _scanned : Token.next? (c :: rest) with
      | none => none
      | some found => (Token.all? found.2).map (found.1 :: ·)
termination_by cs.length
decreasing_by
  · simp
  · exact Token.length_next?_lt _scanned

end Json

end FlowGraph
