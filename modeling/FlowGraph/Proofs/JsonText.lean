/-
**JSON texts are read back.**

The text of a value is cut into tokens, and the tokens drive a machine with a stack of open
containers. Each part of a value is scanned independently of what follows it, and leaves the machine
with that part complete and the stack as it was. What the machine builds is a document that spells
the value; readers of documents see the value in it.

A number is spelled by its own text only if decimals are read so that it comes back. That depends on
the number and on the reading; if the nearest number is read, it holds of all of them.

* `Json.all`, `Json.fits`, `Json.depth`: what holds of all parts of a value, which numbers can be
  written, and the nesting of a value;
* `Json.keeps`, `Json.kept`: numbers that are read back from their texts;
* `Json.all_kept_nearest`: **the nearest number to a text is the number that was written**;
* `Json.Spells`: a document spells a value;
* `Json.scanned_of_fits`: **a value is scanned and built, whatever follows it**;
* `Json.parse?_text_spells`: the text of a value is the text of a document that spells it;
* `Json.Spells.json`: any value is read back from such a document, if there is room;
* `Json.parse?_text`: **a value is read back from its text.**
-/

import FlowGraph.Proofs.NumberText

namespace FlowGraph

namespace Json

/-! ### Quoted texts -/

/-- Four hexadecimal digits of a small number. -/
theorem unit?_hexChar {n : ℕ} (small : n < 256) :
    unit? '0' '0' (hexChar (hexDigit (n / 16))) (hexChar (hexDigit n)) = some n := by
  have zero : hexValue? '0' = some 0 := hexValue?_hexChar 0
  simp [unit?, zero, hexDigit, Fin.ofNat]
  omega

/-- The written form of a character is one piece that spells it. -/
theorem pieces?_escapeChar (c : Char) : ∃ piece : Piece,
    (∀ cs, pieces? (escapeChar c ++ cs) =
      (pieces? cs).map fun found => (piece :: found.1, found.2)) ∧
    ∀ pieces, spell? (piece :: pieces) = (spell? pieces).map (c :: ·) := by
  by_cases named : c ∈ ['"', '\\', '\n', '\r', '\t', '\x08', '\x0c']
  · refine ⟨.char c, fun cs => ?_, fun pieces => rfl⟩
    simp only [List.mem_cons, List.not_mem_nil, or_false] at named
    rcases named with rfl | rfl | rfl | rfl | rfl | rfl | rfl <;>
      (simp [escapeChar, pieces?, escaped?]; cases pieces? cs <;> rfl)
  simp only [List.mem_cons, List.not_mem_nil, or_false, not_or] at named
  by_cases control : c.toNat < 32
  · have unit := unit?_hexChar (n := c.toNat) (by omega)
    refine ⟨.unit c.toNat, fun cs => ?_, fun pieces => ?_⟩
    · simp [escapeChar, named, control, pieces?, unit]
      cases pieces? cs <;> rfl
    · have low : ¬ 55296 ≤ c.toNat := by omega
      have low' : ¬ 56320 ≤ c.toNat := by omega
      rw [spell?.eq_def]
      simp [low, low']
  · refine ⟨.char c, fun cs => ?_, fun pieces => rfl⟩
    have text : escapeChar c = [c] := by simp [escapeChar, named, control]
    rw [text, List.singleton_append, pieces?]
    · simp [control, named]
      cases pieces? cs <;> rfl
    · exact named.1
    all_goals
      intros
      simp_all

/-- A quoted text is scanned to its closing quote. -/
theorem pieces?_flatMap (cs rest : List Char) : ∃ pieces,
    pieces? (cs.flatMap escapeChar ++ '"' :: rest) = some (pieces, rest) ∧
      spell? pieces = some cs := by
  induction cs with
  | nil => exact ⟨[], rfl, rfl⟩
  | cons c cs ih =>
    obtain ⟨pieces, scanned, spelled⟩ := ih
    obtain ⟨piece, first, spells⟩ := pieces?_escapeChar c
    refine ⟨piece :: pieces, ?_, ?_⟩
    · rw [List.flatMap_cons, List.append_assoc, first, scanned]
      rfl
    · rw [spells, spelled]
      rfl

/-- **A quoted text is scanned as the text.** -/
theorem next?_quote (s : String) (rest : List Char) :
    Token.next? (quote s ++ rest) = some (.str (some s), rest) := by
  obtain ⟨pieces, scanned, spelled⟩ := pieces?_flatMap s.toList rest
  simp [quote, Token.next?, scanned, spelled]

/-! ### Tokens -/

/-- No token starts with a blank. -/
theorem isBlank_of_next? {c : Char} {cs : List Char} {found : Token × List Char}
    (scanned : Token.next? (c :: cs) = some found) : isBlank c = false := by
  by_contra blank
  simp only [Bool.not_eq_false, isBlank, Bool.or_eq_true, decide_eq_true_eq] at blank
  rcases blank with ((rfl | rfl) | rfl) | rfl <;>
    simp [Token.next?, numeral?, whole?, spanDigits] at scanned

/-- The tokens of a text that starts with a token. -/
theorem all?_of_next? {cs rest : List Char} {token : Token}
    (scanned : Token.next? cs = some (token, rest)) :
    Token.all? cs = (Token.all? rest).map (token :: ·) := by
  cases cs with
  | nil => cases scanned
  | cons c cs =>
    rw [Token.all?.eq_def]
    simp only [isBlank_of_next? scanned, Bool.false_eq_true, if_false]
    split
    · next missing =>
      rw [scanned] at missing
      cases missing
    · next found' same =>
      rw [scanned] at same
      cases same
      rfl

/-- A character that is a token. -/
theorem all?_cons (c : Char) (cs : List Char) (token : Token)
    (scanned : Token.next? (c :: cs) = some (token, cs)) :
    Token.all? (c :: cs) = (Token.all? cs).map (token :: ·) :=
  all?_of_next? scanned

/-! ### Parts of a value -/

mutual

/-- Whether all parts of a value pass a test. -/
def all (test : Json → Bool) : Json → Bool
  | .arr items => test (.arr items) && allItems test items
  | .obj fields => test (.obj fields) && allFields test fields
  | value => test value

/-- Whether all parts of a row of items pass a test. -/
def allItems (test : Json → Bool) : List Json → Bool
  | [] => true
  | item :: items => all test item && allItems test items

/-- Whether all parts of a row of fields pass a test. -/
def allFields (test : Json → Bool) : List (String × Json) → Bool
  | [] => true
  | (_, value) :: fields => all test value && allFields test fields

end

mutual

/-- The number of arrays and objects that are nested in a value, itself included. -/
def depth : Json → Nat
  | .arr items => itemsDepth items + 1
  | .obj fields => fieldsDepth fields + 1
  | _ => 0

/-- The nesting in a row of items. -/
def itemsDepth : List Json → Nat
  | [] => 0
  | item :: items => max (depth item) (itemsDepth items)

/-- The nesting in a row of fields. -/
def fieldsDepth : List (String × Json) → Nat
  | [] => 0
  | (_, value) :: fields => max (depth value) (fieldsDepth fields)

end

/-- A number that can be written: a whole number of sixty-four bits or a finite one. -/
def fits : Json → Bool
  | .int i => -2 ^ 63 ≤ i && i < 2 ^ 64
  | .float x => x.isFinite
  | _ => true

/-- An object whose fields are sorted by key. -/
def ordered : Json → Bool
  | .obj fields => decide ((fields.map Prod.fst).Pairwise (· < ·))
  | _ => true

mutual

/-- What holds of everything, holds of all parts of a value. -/
theorem all_of_forall {test : Json → Bool} (always : ∀ part, test part = true) :
    ∀ value : Json, value.all test = true
  | .null => always _
  | .bool _ => always _
  | .int _ => always _
  | .float _ => always _
  | .str _ => always _
  | .arr items => (Bool.and_eq_true _ _).mpr ⟨always _, allItems_of_forall always items⟩
  | .obj fields => (Bool.and_eq_true _ _).mpr ⟨always _, allFields_of_forall always fields⟩

theorem allItems_of_forall {test : Json → Bool} (always : ∀ part, test part = true) :
    ∀ items : List Json, allItems test items = true
  | [] => rfl
  | item :: items =>
    (Bool.and_eq_true _ _).mpr ⟨all_of_forall always item, allItems_of_forall always items⟩

theorem allFields_of_forall {test : Json → Bool} (always : ∀ part, test part = true) :
    ∀ fields : List (String × Json), allFields test fields = true
  | [] => rfl
  | (_, value) :: fields =>
    (Bool.and_eq_true _ _).mpr ⟨all_of_forall always value, allFields_of_forall always fields⟩

end

/-! ### Sorted objects -/

/-- A field whose key is behind all others stands at the end. -/
theorem setField_last {key : String} {value : Json} {fields : List (String × Json)}
    (behind : ∀ field ∈ fields, field.1 < key) :
    setField key value fields = fields ++ [(key, value)] := by
  induction fields with
  | nil => rfl
  | cons field fields ih =>
    have less := behind field List.mem_cons_self
    rw [setField, if_neg less.ne', if_neg less.not_gt,
      ih fun other member => behind other (List.mem_cons_of_mem _ member)]
    rfl

theorem foldl_setField {before fields : List (String × Json)}
    (sorted : ((before ++ fields).map Prod.fst).Pairwise (· < ·)) :
    fields.foldl (fun sorted field => setField field.1 field.2 sorted) before =
      before ++ fields := by
  induction fields generalizing before with
  | nil => simp
  | cons field fields ih =>
    have last : setField field.1 field.2 before = before ++ [field] :=
      setField_last fun other member => by
        rw [List.map_append, List.pairwise_append] at sorted
        exact sorted.2.2 other.1 (List.mem_map_of_mem member) field.1 (by simp)
    rw [List.foldl_cons, last, ih (by simpa using sorted)]
    simp

/-- An object with sorted fields is built from them. -/
theorem object_of_ordered {fields : List (String × Json)} (sorted : ordered (.obj fields) = true) :
    object fields = .obj fields := by
  have pairwise : (([] ++ fields).map Prod.fst).Pairwise (· < ·) := of_decide_eq_true sorted
  exact congrArg Json.obj (foldl_setField pairwise)

/-! ### Open containers -/

/-- An array that was opened goes on like one with no items yet. -/
theorem foldlM_item {tokens : List Token} {frames later : List Written.Frame} {doc : Written}
    (built : tokens.foldlM Written.Machine.step? ⟨.value, .arr [] :: frames⟩ =
      some ⟨.complete doc, later⟩) :
    tokens.foldlM Written.Machine.step? ⟨.item, frames⟩ = some ⟨.complete doc, later⟩ := by
  cases tokens with
  | nil => simp at built
  | cons token rest =>
    rw [List.foldlM_cons] at built ⊢
    cases token <;>
      first | exact built | simp [Written.Machine.step?, Written.Machine.begin?] at built

/-- An object that was opened goes on like one with no fields yet. -/
theorem foldlM_member {tokens : List Token} {frames later : List Written.Frame} {doc : Written}
    (built : tokens.foldlM Written.Machine.step? ⟨.key [], frames⟩ = some ⟨.complete doc, later⟩) :
    tokens.foldlM Written.Machine.step? ⟨.member, frames⟩ = some ⟨.complete doc, later⟩ := by
  cases tokens with
  | nil => simp at built
  | cons token rest =>
    rw [List.foldlM_cons] at built ⊢
    cases token <;> first | exact built | simp [Written.Machine.step?] at built

theorem endsNumeral_cons (c : Char) (rest : List Char)
    (other : c.isDigit = false ∧ c ≠ '.' ∧ c ≠ 'e' ∧ c ≠ 'E') : EndsNumeral (c :: rest) := by
  intro d member
  cases member
  exact other

/-! ### Numbers that are read back -/

/-- A number is read back from its text. Nothing is asked of numbers that are not finite, which have
no text of their own. -/
def keeps [DecimalReading] (x : Float) : Bool :=
  !x.isFinite || decide (Reader.run Reader.float (numberStyle.write x) = some x)

/-- A number that is read back from its text; other parts of a value have no need to be. -/
def kept [DecimalReading] : Json → Bool
  | .float x => keeps x
  | _ => true

theorem keeps_of_not_isFinite [DecimalReading] {x : Float} (infinite : ¬ x.isFinite = true) :
    keeps x = true := by
  simp [keeps, infinite]

/-- A numeral that is no whole number is read as a floating-point number. -/
theorem json?_of_int?_eq_none [DecimalReading] {n : Numeral} (whole : n.int? = none) :
    n.json? = n.float?.map .float := by
  unfold Numeral.json?
  rw [whole]

/-- A text that is one numeral and no whole number is read as the number of the numeral. -/
theorem run_float_of_next? [DecimalReading] {text : String} {n : Numeral}
    (whole : n.int? = none) (scans : ∀ {rest}, EndsNumeral rest →
      Token.next? (text.toList ++ rest) = some (.number n, rest)) :
    Reader.run Reader.float text = n.float? := by
  have alone := @scans [] fun c member => by cases member
  rw [List.append_nil] at alone
  have tokens : Token.all? text.toList = some [.number n] := by
    rw [all?_of_next? alone, Token.all?.eq_def]
    rfl
  have written : Written.parse? text = some (.number n) := by
    unfold Written.parse?
    rw [tokens]
    rfl
  unfold Reader.run Reader.float
  rw [written, Option.bind_some]
  dsimp only
  rw [json?_of_int?_eq_none whole]
  cases n.float? <;> rfl

/-- A number that is kept is what its numeral denotes. -/
theorem json?_of_keeps [DecimalReading] {x : Float} {n : Numeral} (finite : x.isFinite = true)
    (whole : n.int? = none) (scans : ∀ {rest}, EndsNumeral rest →
      Token.next? ((numberStyle.write x).toList ++ rest) = some (.number n, rest))
    (kept : keeps x = true) : n.json? = some (.float x) := by
  have read : Reader.run Reader.float (numberStyle.write x) = some x := by
    simpa [keeps, finite] using kept
  rw [json?_of_int?_eq_none whole, ← run_float_of_next? whole scans, read]
  rfl

/-- **If the nearest number is read, every number is kept.** -/
theorem keeps_nearest (x : Float) : keeps x = true := by
  by_cases finite : x.isFinite = true
  · obtain ⟨n, whole, nearest, scans⟩ := next?_write finite
    simp [keeps, run_float_of_next? whole scans, nearest]
  · exact keeps_of_not_isFinite finite

/-- A reading that rounds the digits first and then the quotient misses this number. -/
example : @keeps ⟨fun d => d.significand.toFloat / (10 ^ d.exponent.natAbs : ℕ).toFloat⟩
    31.245270191439438 = false := by
  decide +kernel

theorem all_kept_nearest (value : Json) : value.all kept = true :=
  all_of_forall (fun part => by
    cases part with
    | float x => exact keeps_nearest x
    | _ => rfl) value

variable [DecimalReading]

/-! ### Documents that spell a value -/

mutual

/-- A document spells a value: its numerals denote the numbers, and its keys are those of the
value, in order. -/
inductive Spells : Json → Written → Prop
  | null : Spells .null .null
  | bool (b : Bool) : Spells (.bool b) (.bool b)
  | int {i : ℤ} {n : Numeral} (denotes : n.json? = some (.int i)) : Spells (.int i) (.number n)
  | float {x : Float} {n : Numeral} (denotes : n.json? = some (.float x)) :
    Spells (.float x) (.number n)
  | str (s : String) : Spells (.str s) (.str (some s))
  | arr {items : List Json} {docs : List Written} (row : SpellsItems items docs) :
    Spells (.arr items) (.arr docs)
  | obj {fields : List (String × Json)} {docs : List (Option String × Written)}
    (row : SpellsFields fields docs) : Spells (.obj fields) (.obj docs)

/-- A row of documents spells a row of items. -/
inductive SpellsItems : List Json → List Written → Prop
  | nil : SpellsItems [] []
  | cons {item : Json} {doc : Written} {items : List Json} {docs : List Written}
    (first : Spells item doc) (rest : SpellsItems items docs) :
    SpellsItems (item :: items) (doc :: docs)

/-- A row of documents with keys spells a row of fields. -/
inductive SpellsFields : List (String × Json) → List (Option String × Written) → Prop
  | nil : SpellsFields [] []
  | cons {key : String} {value : Json} {doc : Written} {fields : List (String × Json)}
    {docs : List (Option String × Written)} (first : Spells value doc)
    (rest : SpellsFields fields docs) :
    SpellsFields ((key, value) :: fields) ((some key, doc) :: docs)

end

/-! ### The machine -/

/-- The text of a value is cut into tokens and these build a document that spells it, whatever
follows the text and whatever containers are open. -/
structure Scanned (value : Json) (tokens : List Token) (doc : Written) : Prop where
  spells : Spells value doc
  scans : ∀ {rest}, EndsNumeral rest →
    Token.all? (value.chars ++ rest) = (Token.all? rest).map (tokens ++ ·)
  builds : ∀ frames, tokens.foldlM Written.Machine.step? ⟨.value, frames⟩ =
    some ⟨.complete doc, frames⟩

/-- A row of items is cut into tokens, and these complete an array that is open. -/
structure ScannedItems (items : List Json) (tokens : List Token) (docs : List Written) : Prop where
  spells : SpellsItems items docs
  scans : ∀ {rest}, EndsNumeral rest →
    Token.all? (itemChars items ++ rest) = (Token.all? rest).map (tokens ++ ·)
  builds : ∀ done frames,
    (tokens ++ [Token.closeArr]).foldlM Written.Machine.step? ⟨.value, .arr done :: frames⟩ =
      some ⟨.complete (.arr (done.reverse ++ docs)), frames⟩

/-- A row of fields is cut into tokens, and these complete an object that is open. -/
structure ScannedFields (fields : List (String × Json)) (tokens : List Token)
    (docs : List (Option String × Written)) : Prop where
  spells : SpellsFields fields docs
  scans : ∀ {rest}, EndsNumeral rest →
    Token.all? (fieldChars fields ++ rest) = (Token.all? rest).map (tokens ++ ·)
  builds : ∀ done frames,
    (tokens ++ [Token.closeObj]).foldlM Written.Machine.step? ⟨.key done, frames⟩ =
      some ⟨.complete (.obj (done.reverse ++ docs)), frames⟩

/-- A value that is one token. -/
theorem scanned_of_next? {value : Json} {token : Token} {doc : Written} (spells : Spells value doc)
    (scans : ∀ {rest}, EndsNumeral rest →
      Token.next? (value.chars ++ rest) = some (token, rest))
    (begins : ∀ frames, Written.Machine.begin? frames token = some ⟨.complete doc, frames⟩) :
    Scanned value [token] doc where
  spells := spells
  scans ends := all?_of_next? (scans ends)
  builds frames := by
    rw [List.foldlM_cons]
    show (Written.Machine.begin? frames token).bind _ = _
    rw [begins]
    rfl

/-! ### Containers -/

theorem Scanned.arr_nil : Scanned (.arr []) [.openArr, .closeArr] (.arr []) where
  spells := .arr .nil
  scans {rest} _ := by
    show Token.all? ('[' :: ']' :: rest) = _
    rw [all?_cons '[' _ .openArr rfl, all?_cons ']' _ .closeArr rfl]
    simp [Function.comp_def]
  builds _ := rfl

theorem Scanned.obj_nil : Scanned (.obj []) [.openObj, .closeObj] (.obj []) where
  spells := .obj .nil
  scans {rest} _ := by
    show Token.all? ('\x7b' :: '\x7d' :: rest) = _
    rw [all?_cons '\x7b' _ .openObj rfl, all?_cons '\x7d' _ .closeObj rfl]
    simp [Function.comp_def]
  builds _ := rfl

/-- An array around a row of items. -/
theorem ScannedItems.arr {items : List Json} {tokens : List Token} {docs : List Written}
    (row : ScannedItems items tokens docs) :
    Scanned (.arr items) (.openArr :: tokens ++ [.closeArr]) (.arr docs) where
  spells := .arr row.spells
  scans {rest} ends := by
    have inner := row.scans (endsNumeral_cons ']' rest (by decide))
    rw [chars, List.append_assoc]
    show Token.all? ('[' :: (itemChars items ++ ']' :: rest)) = _
    rw [all?_cons '[' _ .openArr rfl, inner, all?_cons ']' _ .closeArr rfl]
    simp [Function.comp_def]
  builds frames := by
    have built := foldlM_item (row.builds [] frames)
    rw [List.cons_append, List.foldlM_cons]
    exact built

/-- An object around a row of fields. -/
theorem ScannedFields.obj {fields : List (String × Json)} {tokens : List Token}
    {docs : List (Option String × Written)} (row : ScannedFields fields tokens docs) :
    Scanned (.obj fields) (.openObj :: tokens ++ [.closeObj]) (.obj docs) where
  spells := .obj row.spells
  scans {rest} ends := by
    have inner := row.scans (endsNumeral_cons '\x7d' rest (by decide))
    rw [chars, List.append_assoc]
    show Token.all? ('\x7b' :: (fieldChars fields ++ '\x7d' :: rest)) = _
    rw [all?_cons '\x7b' _ .openObj rfl, inner, all?_cons '\x7d' _ .closeObj rfl]
    simp [Function.comp_def]
  builds frames := by
    have built := foldlM_member (row.builds [] frames)
    rw [List.cons_append, List.foldlM_cons]
    exact built

/-- A row of one item. -/
theorem Scanned.single {item : Json} {tokens : List Token} {doc : Written}
    (scanned : Scanned item tokens doc) : ScannedItems [item] tokens [doc] where
  spells := .cons scanned.spells .nil
  scans ends := scanned.scans ends
  builds done frames := by
    rw [List.foldlM_append, scanned.builds]
    simp [Written.Machine.step?, Written.Machine.continue?]

/-- A row with one more item in front. -/
theorem ScannedItems.cons {item : Json} {items : List Json} {tokens others : List Token}
    {doc : Written} {docs : List Written} (row : ScannedItems items others docs)
    (nonempty : items ≠ []) (scanned : Scanned item tokens doc) :
    ScannedItems (item :: items) (tokens ++ .comma :: others) (doc :: docs) where
  spells := .cons scanned.spells row.spells
  scans {rest} ends := by
    have text : itemChars (item :: items) ++ rest =
        item.chars ++ ',' :: (itemChars items ++ rest) := by
      cases items with
      | nil => exact absurd rfl nonempty
      | cons next items => simp [itemChars]
    rw [text, scanned.scans (endsNumeral_cons ',' _ (by decide)), all?_cons ',' _ .comma rfl,
      row.scans ends]
    simp [Function.comp_def]
  builds done frames := by
    have rest := row.builds (doc :: done) frames
    rw [List.append_assoc, List.foldlM_append, scanned.builds]
    simpa [Written.Machine.step?, Written.Machine.continue?] using rest

/-- The text of a field. -/
theorem Scanned.scans_field {value : Json} {tokens : List Token} {doc : Written}
    (scanned : Scanned value tokens doc) (key : String) {rest : List Char}
    (ends : EndsNumeral rest) :
    Token.all? (quote key ++ ':' :: (value.chars ++ rest)) =
      (Token.all? rest).map (.str (some key) :: .colon :: tokens ++ ·) := by
  rw [all?_of_next? (next?_quote key _), all?_cons ':' _ .colon rfl, scanned.scans ends]
  simp [Function.comp_def]

/-- The tokens of a field. -/
theorem Scanned.builds_field {value : Json} {tokens : List Token} {doc : Written}
    (scanned : Scanned value tokens doc) (key : String)
    (done : List (Option String × Written)) (frames : List Written.Frame) :
    (.str (some key) :: .colon :: tokens).foldlM Written.Machine.step? ⟨.key done, frames⟩ =
      some ⟨.complete doc, .obj done (some key) :: frames⟩ :=
  scanned.builds (.obj done (some key) :: frames)

/-- A row of one field. -/
theorem Scanned.singleField {value : Json} {tokens : List Token} {doc : Written}
    (scanned : Scanned value tokens doc) (key : String) :
    ScannedFields [(key, value)] (.str (some key) :: .colon :: tokens) [(some key, doc)] where
  spells := .cons scanned.spells .nil
  scans {rest} ends := by
    rw [fieldChars, List.append_assoc]
    exact scanned.scans_field key ends
  builds done frames := by
    rw [List.foldlM_append, scanned.builds_field]
    simp [Written.Machine.step?, Written.Machine.continue?]

/-- A row with one more field in front. -/
theorem ScannedFields.cons {value : Json} {fields : List (String × Json)}
    {tokens others : List Token} {doc : Written} {docs : List (Option String × Written)}
    (row : ScannedFields fields others docs) (nonempty : fields ≠ [])
    (scanned : Scanned value tokens doc) (key : String) :
    ScannedFields ((key, value) :: fields)
      (.str (some key) :: .colon :: tokens ++ .comma :: others) ((some key, doc) :: docs) where
  spells := .cons scanned.spells row.spells
  scans {rest} ends := by
    have text : fieldChars ((key, value) :: fields) ++ rest =
        quote key ++ ':' :: (value.chars ++ ',' :: (fieldChars fields ++ rest)) := by
      cases fields with
      | nil => exact absurd rfl nonempty
      | cons next fields => simp [fieldChars]
    rw [text, scanned.scans_field key (endsNumeral_cons ',' _ (by decide)),
      all?_cons ',' _ .comma rfl, row.scans ends]
    simp [Function.comp_def]
  builds done frames := by
    have rest := row.builds ((some key, doc) :: done) frames
    rw [List.append_assoc, List.foldlM_append, scanned.builds_field]
    simpa [Written.Machine.step?, Written.Machine.continue?] using rest

mutual

/-- **A value is scanned and built, whatever follows it.** -/
theorem scanned_of_fits : ∀ value : Json, value.all fits = true → value.all kept = true →
    ∃ tokens doc, Scanned value tokens doc
  | .null, _, _ => ⟨_, _, scanned_of_next? .null (fun _ => rfl) fun _ => rfl⟩
  | .bool true, _, _ => ⟨_, _, scanned_of_next? (.bool true) (fun _ => rfl) fun _ => rfl⟩
  | .bool false, _, _ => ⟨_, _, scanned_of_next? (.bool false) (fun _ => rfl) fun _ => rfl⟩
  | .int i, fit, _ => by
    have bounds : -2 ^ 63 ≤ i ∧ i < 2 ^ 64 := by simpa [all, fits] using fit
    obtain ⟨n, whole, scans⟩ := next?_integerText bounds.1 bounds.2
    have denotes : n.json? = some (.int i) := by
      unfold Numeral.json?
      rw [whole]
    exact ⟨_, _, scanned_of_next? (.int denotes) scans fun _ => rfl⟩
  | .float x, fit, keeps => by
    obtain ⟨n, whole, _, scans⟩ := next?_write (x := x) fit
    have denotes := json?_of_keeps fit whole scans keeps
    exact ⟨_, _, scanned_of_next? (.float denotes) scans fun _ => rfl⟩
  | .str s, _, _ => ⟨_, _, scanned_of_next? (.str s) (fun _ => next?_quote s _) fun _ => rfl⟩
  | .arr [], _, _ => ⟨_, _, Scanned.arr_nil⟩
  | .arr (item :: items), fit, keeps => by
    obtain ⟨tokens, docs, row⟩ := scannedItems_of_fits (item :: items)
      (by simpa [all, fits] using fit) (by simpa [all, kept] using keeps) (by simp)
    exact ⟨_, _, row.arr⟩
  | .obj [], _, _ => ⟨_, _, Scanned.obj_nil⟩
  | .obj (field :: fields), fit, keeps => by
    obtain ⟨tokens, docs, row⟩ := scannedFields_of_fits (field :: fields)
      (by simpa [all, fits] using fit) (by simpa [all, kept] using keeps) (by simp)
    exact ⟨_, _, row.obj⟩

/-- The same for rows of items. -/
theorem scannedItems_of_fits : ∀ items : List Json, allItems fits items = true →
    allItems kept items = true → items ≠ [] → ∃ tokens docs, ScannedItems items tokens docs
  | [], _, _, nonempty => absurd rfl nonempty
  | [item], fit, keeps, _ => by
    obtain ⟨tokens, doc, scanned⟩ := scanned_of_fits item (by simpa [allItems] using fit)
      (by simpa [allItems] using keeps)
    exact ⟨_, _, scanned.single⟩
  | item :: next :: items, fit, keeps, _ => by
    rw [allItems, Bool.and_eq_true] at fit keeps
    obtain ⟨tokens, doc, scanned⟩ := scanned_of_fits item fit.1 keeps.1
    obtain ⟨others, docs, row⟩ := scannedItems_of_fits (next :: items) fit.2 keeps.2 (by simp)
    exact ⟨_, _, row.cons (by simp) scanned⟩

/-- The same for rows of fields. -/
theorem scannedFields_of_fits : ∀ fields : List (String × Json), allFields fits fields = true →
    allFields kept fields = true → fields ≠ [] → ∃ tokens docs, ScannedFields fields tokens docs
  | [], _, _, nonempty => absurd rfl nonempty
  | [(key, value)], fit, keeps, _ => by
    obtain ⟨tokens, doc, scanned⟩ := scanned_of_fits value (by simpa [allFields] using fit)
      (by simpa [allFields] using keeps)
    exact ⟨_, _, scanned.singleField key⟩
  | (key, value) :: next :: fields, fit, keeps, _ => by
    rw [allFields, Bool.and_eq_true] at fit keeps
    obtain ⟨tokens, doc, scanned⟩ := scanned_of_fits value fit.1 keeps.1
    obtain ⟨others, docs, row⟩ := scannedFields_of_fits (next :: fields) fit.2 keeps.2 (by simp)
    exact ⟨_, _, row.cons (by simp) scanned key⟩

end

/-- **The text of a value is the text of a document that spells it.** -/
theorem parse?_text_spells {value : Json} (fit : value.all fits = true)
    (keeps : value.all kept = true) :
    ∃ doc, Written.parse? value.text = some doc ∧ Spells value doc := by
  obtain ⟨tokens, doc, scanned⟩ := scanned_of_fits value fit keeps
  refine ⟨doc, ?_, scanned.spells⟩
  have cut : Token.all? (value.chars ++ []) = _ := scanned.scans fun c member => by cases member
  have tokenized : Token.all? value.text.toList = some tokens := by
    rw [List.append_nil, Token.all?] at cut
    simpa [text] using cut
  simp [Written.parse?, tokenized, Written.ofTokens?, Written.Machine.start, scanned.builds,
    Written.Machine.result?]

/-! ### Reading a document -/

mutual

/-- **Any value is read back from a document that spells it**, if its objects are sorted and there
is room for its nesting. -/
theorem Spells.json {room : Nat} : ∀ {value : Json} {doc : Written}, Spells value doc →
    value.all ordered = true → value.depth ≤ room → Reader.json room doc = some value
  | _, _, .null, _, _ => by rw [Reader.json]
  | _, _, .bool b, _, _ => by rw [Reader.json]
  | _, _, .int denotes, _, _ => by
    rw [Reader.json]
    exact denotes
  | _, _, .float denotes, _, _ => by
    rw [Reader.json]
    exact denotes
  | _, _, .str s, _, _ => by
    rw [Reader.json]
    rfl
  | _, _, .arr row, sorted, small => by
    cases room with
    | zero => simp [depth] at small
    | succ room =>
      have inner : Reader.jsonItems room _ = some _ :=
        row.json (by simpa [all, ordered] using sorted) (by simpa [depth] using small)
      rw [Reader.json, inner]
      rfl
  | _, _, .obj row, sorted, small => by
    cases room with
    | zero => simp [depth] at small
    | succ room =>
      have parts := (Bool.and_eq_true _ _).mp sorted
      have inner : Reader.jsonFields room _ = some _ :=
        row.json parts.2 (by simpa [depth] using small)
      rw [Reader.json, inner, Option.map_some, object_of_ordered parts.1]

theorem SpellsItems.json {room : Nat} : ∀ {items : List Json} {docs : List Written},
    SpellsItems items docs → allItems ordered items = true → itemsDepth items ≤ room →
      Reader.jsonItems room docs = some items
  | _, _, .nil, _, _ => by rw [Reader.jsonItems]
  | _, _, .cons first rest, sorted, small => by
    have parts := (Bool.and_eq_true _ _).mp sorted
    have sizes := max_le_iff.mp small
    rw [Reader.jsonItems, first.json parts.1 sizes.1, rest.json parts.2 sizes.2]
    rfl

theorem SpellsFields.json {room : Nat} : ∀ {fields : List (String × Json)}
    {docs : List (Option String × Written)}, SpellsFields fields docs →
      allFields ordered fields = true → fieldsDepth fields ≤ room →
        Reader.jsonFields room docs = some fields
  | _, _, .nil, _, _ => by rw [Reader.jsonFields]
  | _, _, .cons first rest, sorted, small => by
    have parts := (Bool.and_eq_true _ _).mp sorted
    have sizes := max_le_iff.mp small
    rw [Reader.jsonFields, first.json parts.1 sizes.1, rest.json parts.2 sizes.2]
    rfl

end

mutual

/-- A value that is nested too deep is not read. -/
theorem Spells.depth_le {room : Nat} {read : Json} : ∀ {value : Json} {doc : Written},
    Spells value doc → Reader.json room doc = some read → value.depth ≤ room
  | _, _, .null, _ => Nat.zero_le _
  | _, _, .bool _, _ => Nat.zero_le _
  | _, _, .int _, _ => Nat.zero_le _
  | _, _, .float _, _ => Nat.zero_le _
  | _, _, .str _, _ => Nat.zero_le _
  | _, _, .arr row, done => by
    cases room with
    | zero => simp [Reader.json] at done
    | succ room =>
      rw [Reader.json] at done
      obtain ⟨items, inner, _⟩ := Option.map_eq_some_iff.mp done
      exact Nat.succ_le_succ (row.depth_le inner)
  | _, _, .obj row, done => by
    cases room with
    | zero => simp [Reader.json] at done
    | succ room =>
      rw [Reader.json] at done
      obtain ⟨fields, inner, _⟩ := Option.map_eq_some_iff.mp done
      exact Nat.succ_le_succ (row.depth_le inner)

theorem SpellsItems.depth_le {room : Nat} {read : List Json} : ∀ {items : List Json}
    {docs : List Written}, SpellsItems items docs → Reader.jsonItems room docs = some read →
      itemsDepth items ≤ room
  | _, _, .nil, _ => Nat.zero_le _
  | _, _, .cons first rest, done => by
    rw [Reader.jsonItems] at done
    obtain ⟨one, head, more⟩ := Option.bind_eq_some_iff.mp done
    obtain ⟨others, tail, _⟩ := Option.bind_eq_some_iff.mp more
    exact max_le (first.depth_le head) (rest.depth_le tail)

theorem SpellsFields.depth_le {room : Nat} {read : List (String × Json)} :
    ∀ {fields : List (String × Json)} {docs : List (Option String × Written)},
      SpellsFields fields docs → Reader.jsonFields room docs = some read → fieldsDepth fields ≤ room
  | _, _, .nil, _ => Nat.zero_le _
  | _, _, .cons first rest, done => by
    rw [Reader.jsonFields] at done
    obtain ⟨key, _, more⟩ := Option.bind_eq_some_iff.mp done
    obtain ⟨one, head, more⟩ := Option.bind_eq_some_iff.mp more
    obtain ⟨others, tail, _⟩ := Option.bind_eq_some_iff.mp more
    exact max_le (first.depth_le head) (rest.depth_le tail)

end

/-- **A value is read back from its text.** -/
theorem parse?_text {value : Json} (fit : value.all fits = true) (keeps : value.all kept = true)
    (sorted : value.all ordered = true) (small : value.depth ≤ nestingLimit) :
    parse? value.text = some value := by
  obtain ⟨doc, parsed, spells⟩ := parse?_text_spells fit keeps
  unfold parse? Reader.run
  rw [parsed, Option.bind_some]
  exact spells.json sorted small

end Json

end FlowGraph
