/-
**Records are read back from their texts.**

Every written form has a reader that undoes it, on any document that spells the form and with room
for its nesting. Structures are read by the names of their fields, which are distinct; a column of a
parameter list that is absent is not written, and not found when the record is read.

* `Uuid.parse?_text`: identifiers;
* `Json.Reader.Undoes`: a reader undoes a written form;
* `Json.Reader.fields_of_spells`: the fields of a structure, by name;
* `Record.Sized`, `Record.Finite`: what columns can hold, and what a text can keep of it;
* `Record.Kept`: the numbers of a record are read back from what is written for them;
* `Record.parse?_text`: **a record is read back from its text**;
* `Record.limits_of_parse?`: no other texts can be read;
* `Record.parse?_text_eq_some_iff`: **which records are read back from their texts.**
-/

import FlowGraph.Form.Record
import FlowGraph.Proofs.JsonText

namespace FlowGraph

/-! ### Identifiers -/

namespace Uuid

theorem length_hyphenate (sizes : List ℕ) (cs : List Char) :
    (hyphenate sizes cs).length = cs.length + (sizes.length - 1) := by
  fun_induction hyphenate sizes cs with
  | case1 cs => simp
  | case2 size cs => simp
  | case3 size sizes cs many ih =>
    have some : 0 < sizes.length := List.length_pos_iff.mpr many
    simp [ih]
    omega

/-- Hyphens between groups can be taken out again. -/
theorem unhyphenate?_hyphenate (sizes : List ℕ) (cs : List Char)
    (long : sizes.sum ≤ cs.length) :
    unhyphenate? sizes (hyphenate sizes cs) = some cs := by
  fun_induction hyphenate sizes cs with
  | case1 cs => rfl
  | case2 size cs => rfl
  | case3 size sizes cs many ih =>
    have fits : size ≤ cs.length := by
      rw [List.sum_cons] at long
      omega
    have cut : (cs.take size).length = size := by simpa using fits
    have inner := ih (by simp at long ⊢; omega)
    rw [unhyphenate?.eq_def]
    split
    · contradiction
    · next same => simp at same; simp_all
    · next same =>
      cases same
      rw [List.drop_left' cut]
      simp [inner, cut]

/-- **An identifier is read back from its text.** -/
theorem parse?_text (u : Uuid) : parse? u.text = some u := by
  have length : (hyphenate groups (u.digits.map hexChar)).length = 36 := by
    rw [length_hyphenate, List.length_map, u.length_digits]
    rfl
  have bare : bare? (hyphenate groups (u.digits.map hexChar)) = some (u.digits.map hexChar) := by
    unfold bare?
    rw [length, if_neg (by decide), if_pos rfl]
    exact unhyphenate?_hyphenate groups _ (by simp [u.length_digits, groups])
  have digits : (u.digits.map hexChar).mapM hexValue? = some u.digits := by
    have each := List.mapM_pure (m := Option) (l := u.digits) (f := id)
    rw [List.mapM_map]
    simpa [Function.comp_def] using each
  simp [parse?, text, bare, digits, ofDigits?, u.length_digits]

end Uuid

/-- Both coordinates are finite. -/
def Position.isFinite (p : Position) : Bool :=
  p.x.isFinite && p.y.isFinite

/-- Both coordinates are read back from their texts. -/
def Position.keeps [Json.DecimalReading] (p : Position) : Bool :=
  Json.keeps p.x && Json.keeps p.y

theorem Position.keeps_nearest (p : Position) : p.keeps = true :=
  (Bool.and_eq_true _ _).mpr ⟨Json.keeps_nearest p.x, Json.keeps_nearest p.y⟩

namespace Json

namespace Reader

/-- Nothing is found without room. -/
theorem fields_zero (names : List String) (spellings : List (String × String)) (doc : Written) :
    Reader.fields names spellings 0 doc = none := by
  unfold Reader.fields
  rfl

theorem depth_le_of_lookup {fields : List (String × Json)} {room : ℕ}
    (small : fieldsDepth fields ≤ room) {key : String} {value : Json}
    (found : fields.lookup key = some value) : value.depth ≤ room := by
  induction fields with
  | nil => simp at found
  | cons field fields ih =>
    obtain ⟨name, first⟩ := field
    have sizes := max_le_iff.mp small
    rw [List.lookup_cons] at found
    split at found
    · cases found
      exact sizes.1
    · exact ih sizes.2 found

/-! ### Readers and written forms -/

variable [DecimalReading] {α : Type}

/-- A reader undoes a written form of a thing, wherever there is room for it. -/
def Undoes (item : Reader α) (form : α → Json) (thing : α) : Prop :=
  ∀ {room doc}, Spells (form thing) doc → (form thing).depth ≤ room → item room doc = some thing

theorem undoes_text (s : String) : Undoes text .str s := by
  intro room doc spells _
  cases spells
  rfl

theorem undoes_json {value : Json} (sorted : value.all ordered = true) : Undoes json id value :=
  fun spells small => Spells.json spells sorted small

theorem undoes_float {x : Float} (finite : x.isFinite = true) : Undoes float Json.ofFloat x := by
  intro room doc spells _
  rw [Json.ofFloat, if_pos finite] at spells
  cases spells with
  | float denotes => simp [float, denotes, number?]

theorem int?_of_json? {n : Numeral} {i : ℤ} (denotes : n.json? = some (.int i)) :
    n.int? = some i := by
  unfold Numeral.json? at denotes
  split at denotes
  · next whole =>
    cases denotes
    exact whole
  · simp at denotes

theorem undoes_nat (n : ℕ) : Undoes nat Json.ofNat n := by
  intro room doc spells _
  cases spells with
  | int denotes => simp [nat, int?_of_json? denotes]

theorem undoes_uuid (u : Uuid) : Undoes uuid Form.ofUuid u := by
  intro room doc spells small
  show (text room doc).bind Uuid.parse? = _
  rw [undoes_text u.text spells small, Option.bind_some, Uuid.parse?_text]

theorem undoes_tag (tag : TypeTag) : Undoes Form.readTag Form.ofTag tag := by
  intro room doc spells small
  show (text room doc).map TypeTag.mk = _
  rw [undoes_text tag.name spells small]
  rfl

/-- Rows are read item by item. -/
theorem undoes_list {item : Reader α} {form : α → Json} {things : List α}
    (each : ∀ thing ∈ things, Undoes item form thing) :
    Undoes (list item) (Json.ofList form) things := by
  intro room doc spells small
  cases spells with
  | arr row =>
    cases room with
    | zero => simp [Json.ofList, depth] at small
    | succ room =>
      replace small : itemsDepth (things.map form) ≤ room := Nat.le_of_succ_le_succ small
      show List.mapM (item room) _ = _
      rename_i docs
      induction things generalizing docs with
      | nil =>
        cases row
        rfl
      | cons thing things ih =>
        cases row with
        | cons first rest =>
          have sizes := max_le_iff.mp small
          rw [List.mapM_cons, each thing List.mem_cons_self first sizes.1,
            ih (fun other member => each other (List.mem_cons_of_mem _ member)) rest sizes.2]
          rfl

theorem undoes_position {p : Position} (finite : p.isFinite = true) :
    Undoes Form.readPosition Form.ofPosition p := by
  obtain ⟨across, down⟩ := (Bool.and_eq_true _ _).mp finite
  intro room doc spells small
  cases spells with
  | arr row =>
    cases room with
    | zero => simp [Form.ofPosition, depth] at small
    | succ room =>
      cases row with
      | cons first rest =>
        cases rest with
        | cons second rest =>
          cases rest
          have sizes : (Json.ofFloat p.x).depth ≤ room ∧ (Json.ofFloat p.y).depth ≤ room := by
            simpa [Form.ofPosition, depth, itemsDepth] using small
          simp [Form.readPosition, undoes_float across first sizes.1,
            undoes_float down second sizes.2]

/-! ### Structures -/

/-- The fields that are known are found under their names. -/
theorem known?_of_spells {name? : String → Option String} {fields : List (String × Json)}
    {docs : List (Option String × Written)} (row : SpellsFields fields docs)
    (nodup : (fields.map Prod.fst).Nodup)
    (plain : ∀ key ∈ fields.map Prod.fst, name? key = some key) :
    ∃ present, known? name? docs = some present ∧
      ∀ key, Option.Rel Spells (fields.lookup key) (present.lookup key) := by
  induction fields generalizing docs with
  | nil =>
    cases row
    exact ⟨[], rfl, fun key => .none⟩
  | cons field fields ih =>
    obtain ⟨key, value⟩ := field
    cases row with
    | @cons _ _ doc _ _ first rest =>
      rw [List.map_cons, List.nodup_cons] at nodup
      obtain ⟨present, known, shows⟩ := ih rest nodup.2 fun other member =>
        plain other (List.mem_cons_of_mem _ member)
      have new : present.lookup key = none := by
        have missing : fields.lookup key = none := by
          rw [List.lookup_eq_none_iff]
          intro other member
          exact bne_iff_ne.mpr fun same => nodup.1 (List.mem_map.mpr ⟨other, member, same.symm⟩)
        have related := shows key
        rw [missing] at related
        generalize present.lookup key = looked at related
        cases related
        rfl
      refine ⟨(key, doc) :: present, ?_, fun other => ?_⟩
      · simp [known?, known, plain key List.mem_cons_self, new]
      · rw [List.lookup_cons, List.lookup_cons]
        by_cases same : (other == key) = true
        · simpa [same] using Option.Rel.some first
        · simpa [same] using shows other

/-- The fields of a structure are found, and no others. -/
structure Found.Shows (found : Found) (fields : List (String × Json)) : Prop where
  present : ∀ {key value}, fields.lookup key = some value → ∃ doc,
    found.present.lookup key = some doc ∧ Spells value doc
  absent : ∀ {key}, fields.lookup key = none → found.present.lookup key = none

/-- **A structure is found in a document that spells it**, if it has fields of the given names only.
-/
theorem fields_of_spells (names : List String) (spellings : List (String × String))
    {fields : List (String × Json)} {doc : Written} (spells : Spells (.obj fields) doc)
    (named : (fields.map Prod.fst).Sublist names) (nodup : names.Nodup)
    (plain : ∀ name ∈ names, spellings.lookup name = none) :
    ∃ present, ∀ room, Reader.fields names spellings (room + 1) doc = some ⟨room, present⟩ ∧
      Found.Shows ⟨room, present⟩ fields := by
  cases spells with
  | obj row =>
    have known : ∀ key ∈ fields.map Prod.fst,
        (if (spellings.lookup key).getD key ∈ names then some ((spellings.lookup key).getD key)
          else none) = some key := fun key member => by
      have listed := named.subset member
      rw [plain key listed, Option.getD_none, if_pos listed]
    obtain ⟨present, read, shows⟩ := known?_of_spells row (nodup.sublist named) known
    refine ⟨present, fun room => ⟨?_, fun {key value} written => ?_, fun {key} missing => ?_⟩⟩
    · unfold Reader.fields
      dsimp only
      rw [read]
      rfl
    · have related := shows key
      rw [written] at related
      generalize present.lookup key = looked at related
      cases related with
      | some spells => exact ⟨_, rfl, spells⟩
    · have related := shows key
      rw [missing] at related
      generalize present.lookup key = looked at related
      cases related
      rfl

namespace Found.Shows

variable {found : Found} {fields : List (String × Json)} {item : Reader α} {form : α → Json}
  {thing : α}

theorem required (shows : found.Shows fields) (small : fieldsDepth fields ≤ found.room)
    (name : String) (undoes : Undoes item form thing)
    (written : fields.lookup name = some (form thing)) :
    found.required name item = some thing := by
  obtain ⟨doc, present, spells⟩ := shows.present written
  unfold Found.required
  rw [present]
  exact undoes spells (depth_le_of_lookup small written)

theorem withDefault (shows : found.Shows fields) (small : fieldsDepth fields ≤ found.room)
    (name : String) (default : α) (undoes : Undoes item form thing)
    (written : fields.lookup name = some (form thing)) :
    found.withDefault name default item = some thing := by
  obtain ⟨doc, present, spells⟩ := shows.present written
  unfold Found.withDefault
  rw [present]
  exact undoes spells (depth_le_of_lookup small written)

/-- A row that may be absent. -/
theorem column {column : Option (List α)} (shows : found.Shows fields)
    (small : fieldsDepth fields ≤ found.room) (name : String)
    (each : ∀ thing, Undoes item form thing)
    (written : fields.lookup name = column.map (Json.ofList form)) :
    found.withDefault name none (optional (list item)) = some column := by
  cases column with
  | none =>
    unfold Found.withDefault
    rw [shows.absent written]
  | some things =>
    obtain ⟨doc, present, spells⟩ := shows.present written
    have read := undoes_list (fun thing _ => each thing) spells (depth_le_of_lookup small written)
    unfold Found.withDefault
    rw [present]
    cases spells with
    | arr row =>
      show (list item found.room _).map some = _
      rw [read]
      rfl

end Found.Shows

/-! ### Small things -/

theorem undoes_encodedValue {encoded : EncodedValue}
    (sorted : encoded.payload.all ordered = true) :
    Undoes Form.readEncodedValue Form.ofEncodedValue encoded := by
  intro room doc spells small
  obtain ⟨present, found⟩ := fields_of_spells ["tag", "value"] [] spells (List.Sublist.refl _)
    (by decide) (by simp)
  cases room with
  | zero => simp [Form.ofEncodedValue, depth] at small
  | succ room =>
    obtain ⟨read, shows⟩ := found room
    have inner := Nat.le_of_succ_le_succ small
    have tag := shows.required inner "tag" (undoes_tag encoded.tag) rfl
    have payload := shows.required inner "value" (undoes_json sorted) rfl
    simp [Form.readEncodedValue, read, tag, payload]

/-! ### What was read could be read -/

theorem finite_of_float {x y : Float} {room : ℕ} {doc : Written}
    (spells : Spells (Json.ofFloat x) doc) (done : float room doc = some y) :
    x.isFinite = true := by
  by_contra infinite
  rw [Json.ofFloat, if_neg infinite] at spells
  cases spells
  cases done

theorem finite_of_position {p q : Position} {room : ℕ} {doc : Written}
    (spells : Spells (Form.ofPosition p) doc) (done : Form.readPosition room doc = some q) :
    p.isFinite = true := by
  cases spells with
  | arr row =>
    cases row with
    | cons first rest =>
      cases rest with
      | cons second rest =>
        cases rest
        cases room with
        | zero => cases done
        | succ room =>
          obtain ⟨x, across, done⟩ := Option.bind_eq_some_iff.mp done
          obtain ⟨y, down, _⟩ := Option.bind_eq_some_iff.mp done
          exact (Bool.and_eq_true _ _).mpr
            ⟨finite_of_float first across, finite_of_float second down⟩

/-- The items of a row were read. -/
theorem items_of_list {item : Reader α} {form : α → Json} {things read : List α} {room : ℕ}
    {doc : Written} (spells : Spells (Json.ofList form things) doc)
    (done : list item room doc = some read) :
    ∃ inner, room = inner + 1 ∧ ∀ thing ∈ things, ∃ part result,
      Spells (form thing) part ∧ item inner part = some result := by
  cases spells with
  | arr row =>
    cases room with
    | zero => cases done
    | succ room =>
      refine ⟨room, rfl, ?_⟩
      replace done : List.mapM (item room) _ = some read := done
      rename_i docs
      induction things generalizing docs read with
      | nil => simp
      | cons thing things ih =>
        cases row with
        | cons first rest =>
          rw [List.mapM_cons] at done
          obtain ⟨one, head, done⟩ := Option.bind_eq_some_iff.mp done
          obtain ⟨others, tail, _⟩ := Option.bind_eq_some_iff.mp done
          exact List.forall_mem_cons.mpr ⟨⟨_, one, first, head⟩, ih rest tail⟩

theorem depth_of_encodedValue {encoded value : EncodedValue} {room : ℕ} {doc : Written}
    (spells : Spells (Form.ofEncodedValue encoded) doc)
    (done : Form.readEncodedValue room doc = some value) : encoded.payload.depth + 1 ≤ room := by
  obtain ⟨present, found⟩ := fields_of_spells ["tag", "value"] [] spells (List.Sublist.refl _)
    (by decide) (by simp)
  unfold Form.readEncodedValue at done
  cases room with
  | zero =>
    obtain ⟨_, first, _⟩ := Option.bind_eq_some_iff.mp done
    rw [fields_zero] at first
    cases first
  | succ room =>
    obtain ⟨read, shows⟩ := found room
    obtain ⟨_, first, done⟩ := Option.bind_eq_some_iff.mp done
    cases read.symm.trans first
    obtain ⟨_, _, done⟩ := Option.bind_eq_some_iff.mp done
    obtain ⟨_, payload, _⟩ := Option.bind_eq_some_iff.mp done
    obtain ⟨part, placed, spells⟩ :=
      shows.present (show List.lookup "value" _ = some encoded.payload from rfl)
    obtain ⟨_, looked, payload⟩ := Option.bind_eq_some_iff.mp payload
    cases placed.symm.trans looked
    exact Nat.succ_le_succ (spells.depth_le payload)

/-- A field that was read was found. -/
theorem Found.Shows.read {found : Found} {fields : List (String × Json)} {item : Reader α}
    {name : String} {default result : α} {value : Json} (shows : found.Shows fields)
    (written : fields.lookup name = some value)
    (done : found.withDefault name default item = some result) :
    ∃ doc, Spells value doc ∧ item found.room doc = some result := by
  obtain ⟨doc, present, spells⟩ := shows.present written
  unfold Found.withDefault at done
  rw [present] at done
  exact ⟨doc, spells, done⟩

end Reader

/-! ### Rows of parts -/

theorem allItems_eq (test : Json → Bool) (items : List Json) :
    allItems test items = items.all (all test) := by
  induction items with
  | nil => rfl
  | cons item items ih => rw [allItems, ih, List.all_cons]

theorem allFields_eq (test : Json → Bool) (fields : List (String × Json)) :
    allFields test fields = fields.all fun field => field.2.all test := by
  induction fields with
  | nil => rfl
  | cons field fields ih => rw [allFields, ih, List.all_cons]

theorem itemsDepth_le {items : List Json} {room : ℕ} :
    itemsDepth items ≤ room ↔ ∀ item ∈ items, item.depth ≤ room := by
  induction items with
  | nil => simp [itemsDepth]
  | cons item items ih => simp [itemsDepth, ih]

theorem fieldsDepth_le {fields : List (String × Json)} {room : ℕ} :
    fieldsDepth fields ≤ room ↔ ∀ field ∈ fields, field.2.depth ≤ room := by
  induction fields with
  | nil => simp [fieldsDepth]
  | cons field fields ih => simp [fieldsDepth, ih]

/-- A row of things is nested one deeper than the deepest of them. -/
theorem depth_ofList_le {α : Type} {form : α → Json} {things : List α} {room : ℕ} :
    (Json.ofList form things).depth ≤ room + 1 ↔ ∀ thing ∈ things, (form thing).depth ≤ room := by
  simp [Json.ofList, depth, itemsDepth_le]

/-- A test that all parts of a record pass but perhaps numbers; slots and indices pass it as well. -/
structure Lenient (test : Json → Bool) : Prop where
  str : ∀ s, test (.str s) = true
  arr : ∀ items, test (.arr items) = true
  obj : ∀ fields, test (.obj fields) = true
  nat : ∀ n < 2 ^ 64, test (.ofNat n) = true

theorem lenient_fits : Lenient fits where
  str _ := rfl
  arr _ := rfl
  obj _ := rfl
  nat n small := by
    simp [Json.ofNat, fits]
    omega

theorem lenient_kept [DecimalReading] : Lenient kept :=
  ⟨fun _ => rfl, fun _ => rfl, fun _ => rfl, fun _ _ => rfl⟩

/-- What is written for a number is finite, if it is a number. -/
theorem all_fits_ofFloat (x : Float) : (Json.ofFloat x).all fits = true := by
  unfold Json.ofFloat
  split
  · next finite => exact finite
  · rfl

theorem all_kept_ofFloat [DecimalReading] {x : Float} (keeps : keeps x = true) :
    (Json.ofFloat x).all kept = true := by
  unfold Json.ofFloat
  split
  · exact keeps
  · rfl

section Lenient

variable {test : Json → Bool} (lenient : Lenient test)

include lenient

/-- A row of things is as good as each of them. -/
theorem all_ofList {α : Type} {form : α → Json} {things : List α} :
    (Json.ofList form things).all test = true ↔
      ∀ thing ∈ things, (form thing).all test = true := by
  simp [Json.ofList, all, lenient.arr, allItems_eq]

theorem all_ofPosition {p : Position} (across : (Json.ofFloat p.x).all test = true)
    (down : (Json.ofFloat p.y).all test = true) : (Form.ofPosition p).all test = true := by
  simp [Form.ofPosition, all, allItems, lenient.arr, across, down]

theorem all_ofEncodedValue {encoded : EncodedValue} (payload : encoded.payload.all test = true) :
    (Form.ofEncodedValue encoded).all test = true := by
  simp [Form.ofEncodedValue, all, allFields, lenient.obj, lenient.str, payload, Form.ofTag]

theorem all_ofColumn {α : Type} {item : α → Json} (name : String) (column : Option (List α))
    (each : ∀ thing, (item thing).all test = true) :
    (Form.ofColumn name item column).all (fun field => field.2.all test) = true := by
  cases column with
  | none => rfl
  | some things => simpa [Form.ofColumn, all_ofList lenient] using fun thing _ => each thing

end Lenient

end Json

/-! ### Records -/

/-- What payloads can hold: numbers that can be written, and sorted objects. -/
def Json.Sized (value : Json) : Prop :=
  value.all fits = true ∧ value.all ordered = true

namespace Record

/-- What the columns of a record can hold: slots and indices are of sixty-four bits. -/
structure Sized (r : Record) : Prop where
  nodeValueKeys : ∀ row ∈ r.nodeValueKeys, ∀ slot ∈ row, slot < 2 ^ 64
  outputValueKeys : ∀ slot ∈ r.outputValueKeys, slot < 2 ^ 64
  wires : ∀ row ∈ r.wires, ∀ n ∈ row, n < 2 ^ 64
  nodeValueValues : ∀ row ∈ r.nodeValueValues, ∀ encoded ∈ row, encoded.payload.Sized
  outputValueValues : ∀ encoded ∈ r.outputValueValues, encoded.payload.Sized

/-- The positions and the width of a record are finite. -/
structure Finite (r : Record) : Prop where
  width : r.width.isFinite = true
  nodePositions : ∀ p ∈ r.nodePositions, p.isFinite = true
  inputPosition : r.inputPosition.isFinite = true
  outputPosition : r.outputPosition.isFinite = true

variable {r : Record}

/-- The numbers of a record are read back from what is written for them. -/
structure Kept [Json.DecimalReading] (r : Record) : Prop where
  width : Json.keeps r.width = true
  nodePositions : ∀ p ∈ r.nodePositions, p.keeps = true
  inputPosition : r.inputPosition.keeps = true
  outputPosition : r.outputPosition.keeps = true
  nodeValueValues : ∀ row ∈ r.nodeValueValues, ∀ encoded ∈ row,
    encoded.payload.all Json.kept = true
  outputValueValues : ∀ encoded ∈ r.outputValueValues, encoded.payload.all Json.kept = true

theorem kept_nearest (r : Record) : r.Kept where
  width := Json.keeps_nearest _
  nodePositions p _ := p.keeps_nearest
  inputPosition := r.inputPosition.keeps_nearest
  outputPosition := r.outputPosition.keeps_nearest
  nodeValueValues _ _ encoded _ := Json.all_kept_nearest encoded.payload
  outputValueValues encoded _ := Json.all_kept_nearest encoded.payload

/-- A lenient test passes a record if it passes the numbers and the payloads in it. -/
theorem all_ofRecord {test : Json → Bool} (lenient : Json.Lenient test) (sized : r.Sized)
    (width : (Json.ofFloat r.width).all test = true)
    (nodePositions : ∀ p ∈ r.nodePositions, (Form.ofPosition p).all test = true)
    (inputPosition : (Form.ofPosition r.inputPosition).all test = true)
    (outputPosition : (Form.ofPosition r.outputPosition).all test = true)
    (nodeValues : ∀ row ∈ r.nodeValueValues, ∀ encoded ∈ row, encoded.payload.all test = true)
    (outputValues : ∀ encoded ∈ r.outputValueValues, encoded.payload.all test = true) :
    (Form.ofRecord r).all test = true := by
  have row : ∀ {α : Type} {form : α → Json} {things : List α},
      (∀ thing ∈ things, (form thing).all test = true) →
        (Json.ofList form things).all test = true := (Json.all_ofList lenient).mpr
  have number : ∀ {n : ℕ}, n < 2 ^ 64 → (Json.ofNat n).all test = true := fun small =>
    lenient.nat _ small
  have text : ∀ s : String, (Json.str s).all test = true := lenient.str
  have encoded : ∀ {value : EncodedValue}, value.payload.all test = true →
      (Form.ofEncodedValue value).all test = true := Json.all_ofEncodedValue lenient
  have nodeKeys : (Json.ofList (Json.ofList Json.ofNat) r.nodeValueKeys).all test = true :=
    row fun keys member => row fun slot inside =>
      number (sized.nodeValueKeys keys member slot inside)
  have nodeRows :
      (Json.ofList (Json.ofList Form.ofEncodedValue) r.nodeValueValues).all test = true :=
    row fun values member => row fun value inside =>
      encoded (nodeValues values member value inside)
  have outputKeys : (Json.ofList Json.ofNat r.outputValueKeys).all test = true :=
    row fun slot member => number (sized.outputValueKeys slot member)
  have outputRow : (Json.ofList Form.ofEncodedValue r.outputValueValues).all test = true :=
    row fun value member => encoded (outputValues value member)
  have wires : (Json.ofList (Json.ofList Json.ofNat) r.wires).all test = true :=
    row fun ends member => row fun n inside => number (sized.wires ends member n inside)
  have ids := fun name column =>
    Json.all_ofColumn lenient name column fun id : Uuid => text id.text
  have names := fun name column => Json.all_ofColumn lenient name column text
  have types := fun name column =>
    Json.all_ofColumn lenient name column fun tag : TypeTag => text tag.name
  simp only [Form.ofRecord, Json.all, lenient.obj, Bool.true_and, Json.allFields_eq,
    List.all_append, List.all_cons, List.all_nil, Bool.and_true, Bool.and_eq_true]
  exact ⟨⟨⟨⟨⟨⟨⟨text _, text _, text _, row fun id _ => text id.text, row nodePositions,
    row fun s _ => text s, nodeKeys, nodeRows, outputKeys, outputRow, wires, width, inputPosition,
    outputPosition⟩, ids _ _⟩, names _ _⟩, types _ _⟩, ids _ _⟩, names _ _⟩, types _ _⟩

/-- The numbers in a record can be written. -/
theorem all_fits_ofRecord (sized : r.Sized) : (Form.ofRecord r).all Json.fits = true := by
  have position : ∀ p : Position, (Form.ofPosition p).all Json.fits = true := fun p =>
    Json.all_ofPosition Json.lenient_fits (Json.all_fits_ofFloat p.x) (Json.all_fits_ofFloat p.y)
  exact all_ofRecord Json.lenient_fits sized (Json.all_fits_ofFloat _) (fun p _ => position p)
    (position _) (position _)
    (fun row member encoded inside => (sized.nodeValueValues row member encoded inside).1)
    (fun encoded member => (sized.outputValueValues encoded member).1)

/-- The numbers in a record are kept. -/
theorem all_kept_ofRecord [Json.DecimalReading] (sized : r.Sized) (kept : r.Kept) :
    (Form.ofRecord r).all Json.kept = true := by
  have position : ∀ {p : Position}, p.keeps = true →
      (Form.ofPosition p).all Json.kept = true := fun keeps => by
    obtain ⟨across, down⟩ := (Bool.and_eq_true _ _).mp keeps
    exact Json.all_ofPosition Json.lenient_kept (Json.all_kept_ofFloat across)
      (Json.all_kept_ofFloat down)
  exact all_ofRecord Json.lenient_kept sized (Json.all_kept_ofFloat kept.width)
    (fun p member => position (kept.nodePositions p member)) (position kept.inputPosition)
    (position kept.outputPosition) kept.nodeValueValues kept.outputValueValues

theorem lookup_ofColumn {α : Type} (name key : String) (item : α → Json)
    (column : Option (List α)) :
    (Form.ofColumn name item column).lookup key =
      if key == name then column.map (Json.ofList item) else none := by
  cases column with
  | none => simp [Form.ofColumn]
  | some things =>
    by_cases same : (key == name) = true
    · simp [Form.ofColumn, List.lookup_cons, same]
    · simp [Form.ofColumn, List.lookup_cons, same]

theorem map_fst_ofColumn {α : Type} (name : String) (item : α → Json) (column : Option (List α)) :
    ((Form.ofColumn name item column).map Prod.fst).Sublist [name] := by
  cases column with
  | none => exact List.nil_sublist _
  | some things => exact List.Sublist.refl _

/-- The fields of a record have the names of its fields, in order. -/
theorem map_fst_ofRecord (r : Record) {fields : List (String × Json)}
    (form : Form.ofRecord r = .obj fields) : (fields.map Prod.fst).Sublist Form.recordFields := by
  cases form
  simp only [List.map_append]
  have columns := fun {α : Type} (name : String) (item : α → Json) column =>
    map_fst_ofColumn name item column
  exact ((((((List.Sublist.refl _).append (columns _ _ _)).append (columns _ _ _)).append
    (columns _ _ _)).append (columns _ _ _)).append (columns _ _ _)).append (columns _ _ _)

/-- Going on after something was read. -/
theorem bind_of_eq {α β : Type} {step : Option α} {value : α} {next : α → Option β} {result : β}
    (read : step = some value) (rest : next value = some result) : step >>= next = some result := by
  rw [read]
  exact rest

open Json.Reader in
/-- A record is read back from any document that spells it. -/
theorem undoes_record [Json.DecimalReading] (sized : r.Sized) (finite : r.Finite) :
    Undoes Form.readRecord Form.ofRecord r := by
  intro room doc spells small
  obtain ⟨present, found⟩ := fields_of_spells Form.recordFields [("nodeIDs", "nodeIds")] spells
    (map_fst_ofRecord r rfl) (by decide) (by decide)
  obtain ⟨room, rfl⟩ : ∃ inner, room = inner + 1 := Nat.exists_eq_succ_of_ne_zero fun none => by
    rw [none] at small
    cases small
  obtain ⟨read, shows⟩ := found room
  replace small := Nat.le_of_succ_le_succ small
  have id := shows.withDefault small "id" "" (undoes_text r.id) rfl
  have name := shows.withDefault small "name" "" (undoes_text r.name) rfl
  have description := shows.withDefault small "description" "" (undoes_text r.description) rfl
  have nodeIds := shows.withDefault small "nodeIds" []
    (undoes_list fun id (_ : id ∈ r.nodeIds) => undoes_uuid id) rfl
  have nodePositions := shows.withDefault small "nodePositions" []
    (undoes_list fun p member => undoes_position (finite.nodePositions p member)) rfl
  have nodeFunctions := shows.withDefault small "nodeFunctions" []
    (undoes_list fun s (_ : s ∈ r.nodeFunctions) => undoes_text s) rfl
  have nodeValueKeys := shows.withDefault small "nodeValueKeys" []
    (undoes_list fun row (_ : row ∈ r.nodeValueKeys) =>
      undoes_list fun slot (_ : slot ∈ row) => undoes_nat slot) rfl
  have nodeValueValues := shows.withDefault small "nodeValueValues" []
    (undoes_list fun row member => undoes_list fun encoded inside =>
      undoes_encodedValue (sized.nodeValueValues row member encoded inside).2) rfl
  have outputValueKeys := shows.withDefault small "outputNodeValueKeys" []
    (undoes_list fun slot (_ : slot ∈ r.outputValueKeys) => undoes_nat slot) rfl
  have outputValueValues := shows.withDefault small "outputNodeValueValues" []
    (undoes_list fun encoded member =>
      undoes_encodedValue (sized.outputValueValues encoded member).2) rfl
  have wires := shows.withDefault small "wires" []
    (undoes_list fun row (_ : row ∈ r.wires) =>
      undoes_list fun n (_ : n ∈ row) => undoes_nat n) rfl
  have width := shows.withDefault small "width" Layout.standard.nodeWidth
    (undoes_float finite.width) rfl
  have inputPosition := shows.withDefault small "inputNodePosition" Layout.standard.inputPosition
    (undoes_position finite.inputPosition) rfl
  have outputPosition := shows.withDefault small "outputNodePosition" Layout.standard.outputPosition
    (undoes_position finite.outputPosition) rfl
  have inputIds := shows.column small "inputIds" undoes_uuid
    (show List.lookup _ _ = r.inputs.ids.map _ by
      simp [List.lookup_append, List.lookup_cons, lookup_ofColumn])
  have inputNames := shows.column small "inputNames" undoes_text
    (show List.lookup _ _ = r.inputs.names.map _ by
      simp [List.lookup_append, List.lookup_cons, lookup_ofColumn])
  have inputTypes := shows.column small "inputTypes" undoes_tag
    (show List.lookup _ _ = r.inputs.types.map _ by
      simp [List.lookup_append, List.lookup_cons, lookup_ofColumn])
  have outputIds := shows.column small "outputIds" undoes_uuid
    (show List.lookup _ _ = r.outputs.ids.map _ by
      simp [List.lookup_append, List.lookup_cons, lookup_ofColumn])
  have outputNames := shows.column small "outputNames" undoes_text
    (show List.lookup _ _ = r.outputs.names.map _ by
      simp [List.lookup_append, List.lookup_cons, lookup_ofColumn])
  have outputTypes := shows.column small "outputTypes" undoes_tag
    (show List.lookup _ _ = r.outputs.types.map _ by
      simp [List.lookup_append, List.lookup_cons, lookup_ofColumn])
  exact bind_of_eq read <| bind_of_eq id <| bind_of_eq name <| bind_of_eq description <|
    bind_of_eq nodeIds <| bind_of_eq nodePositions <| bind_of_eq nodeFunctions <|
    bind_of_eq nodeValueKeys <| bind_of_eq nodeValueValues <| bind_of_eq outputValueKeys <|
    bind_of_eq outputValueValues <| bind_of_eq wires <| bind_of_eq width <|
    bind_of_eq inputPosition <| bind_of_eq outputPosition <| bind_of_eq inputIds <|
    bind_of_eq inputNames <| bind_of_eq inputTypes <| bind_of_eq outputIds <|
    bind_of_eq outputNames <| bind_of_eq outputTypes rfl

/-- **A record is read back from its text.** -/
theorem parse?_text [Json.DecimalReading] (sized : r.Sized) (finite : r.Finite) (kept : r.Kept)
    (small : (Form.ofRecord r).depth ≤ Json.nestingLimit) : parse? r.text = some r := by
  obtain ⟨doc, parsed, spells⟩ :=
    Json.parse?_text_spells (all_fits_ofRecord sized) (all_kept_ofRecord sized kept)
  unfold parse? Json.Reader.run text
  rw [parsed, Option.bind_some]
  exact undoes_record sized finite spells small

/-- The nesting of a record: payloads of nodes stand in four containers, those of the Output node in
three. -/
theorem depth_ofRecord_le {room : ℕ}
    (nodes : ∀ row ∈ r.nodeValueValues, ∀ encoded ∈ row, encoded.payload.depth ≤ room)
    (outputs : ∀ encoded ∈ r.outputValueValues, encoded.payload.depth ≤ room + 1) :
    (Form.ofRecord r).depth ≤ room + 4 := by
  have text : ∀ (s : String) (k : ℕ), (Json.str s).depth ≤ k := fun s k => Nat.zero_le _
  have number : ∀ (n k : ℕ), (Json.ofNat n).depth ≤ k := fun n k => Nat.zero_le _
  have float : ∀ (x : Float) (k : ℕ), (Json.ofFloat x).depth ≤ k := fun x k => by
    unfold Json.ofFloat
    split <;> exact Nat.zero_le _
  have position : ∀ (p : Position) (k : ℕ), (Form.ofPosition p).depth ≤ k + 1 := fun p k => by
    simp [Form.ofPosition, Json.depth, Json.itemsDepth, float]
  have encoded : ∀ {value : EncodedValue} {k : ℕ}, value.payload.depth ≤ k →
      (Form.ofEncodedValue value).depth ≤ k + 1 := fun small => by
    simpa [Form.ofEncodedValue, Json.depth, Json.fieldsDepth, Form.ofTag] using small
  have column : ∀ {α : Type} (name : String) (item : α → Json) (things : Option (List α)),
      (∀ thing, (item thing).depth ≤ room + 2) →
        ∀ field ∈ Form.ofColumn name item things, field.2.depth ≤ room + 3 := by
    intro α name item things each field member
    cases things with
    | none => cases member
    | some things =>
      rw [List.mem_singleton.mp member]
      exact Json.depth_ofList_le.mpr fun thing _ => each thing
  refine Nat.succ_le_succ (Json.fieldsDepth_le.mpr ?_)
  simp only [List.forall_mem_append, List.forall_mem_cons]
  refine ⟨⟨⟨⟨⟨⟨⟨text _ _, text _ _, text _ _,
    Json.depth_ofList_le.mpr fun id _ => text _ _,
    Json.depth_ofList_le.mpr fun p _ => position p _,
    Json.depth_ofList_le.mpr fun s _ => text s _,
    Json.depth_ofList_le.mpr fun row _ => Json.depth_ofList_le.mpr fun slot _ => number slot _,
    Json.depth_ofList_le.mpr fun row member => Json.depth_ofList_le.mpr fun value inside =>
      encoded (nodes row member value inside),
    Json.depth_ofList_le.mpr fun slot _ => number slot _,
    Json.depth_ofList_le.mpr fun value member => encoded (outputs value member),
    Json.depth_ofList_le.mpr fun row _ => Json.depth_ofList_le.mpr fun n _ => number n _,
    float _ _, position _ _, position _ _, by simp⟩, ?_⟩, ?_⟩, ?_⟩, ?_⟩, ?_⟩, ?_⟩
  all_goals exact column _ _ _ fun thing => text _ _

open Json.Reader in
/-- What can be read off the text of a record was finite and not nested too deep. -/
theorem limits_of_parse? [Json.DecimalReading] {other : Record} (sized : r.Sized) (kept : r.Kept)
    (parsed : parse? r.text = some other) : r.Finite ∧
      (∀ row ∈ r.nodeValueValues, ∀ encoded ∈ row,
        encoded.payload.depth + 4 ≤ Json.nestingLimit) ∧
      ∀ encoded ∈ r.outputValueValues, encoded.payload.depth + 3 ≤ Json.nestingLimit := by
  obtain ⟨doc, written, spells⟩ :=
    Json.parse?_text_spells (all_fits_ofRecord sized) (all_kept_ofRecord sized kept)
  unfold parse? Json.Reader.run text at parsed
  rw [written, Option.bind_some] at parsed
  obtain ⟨present, found⟩ := fields_of_spells Form.recordFields [("nodeIDs", "nodeIds")] spells
    (map_fst_ofRecord r rfl) (by decide) (by decide)
  obtain ⟨read, shows⟩ := found 126
  obtain ⟨_, first, rest⟩ := Option.bind_eq_some_iff.mp parsed
  cases read.symm.trans first
  -- The fields are read in order; only those with numbers or payloads are looked at.
  obtain ⟨_, _, rest⟩ := Option.bind_eq_some_iff.mp rest
  obtain ⟨_, _, rest⟩ := Option.bind_eq_some_iff.mp rest
  obtain ⟨_, _, rest⟩ := Option.bind_eq_some_iff.mp rest
  obtain ⟨_, _, rest⟩ := Option.bind_eq_some_iff.mp rest
  obtain ⟨_, positions, rest⟩ := Option.bind_eq_some_iff.mp rest
  obtain ⟨_, _, rest⟩ := Option.bind_eq_some_iff.mp rest
  obtain ⟨_, _, rest⟩ := Option.bind_eq_some_iff.mp rest
  obtain ⟨_, values, rest⟩ := Option.bind_eq_some_iff.mp rest
  obtain ⟨_, _, rest⟩ := Option.bind_eq_some_iff.mp rest
  obtain ⟨_, outputs, rest⟩ := Option.bind_eq_some_iff.mp rest
  obtain ⟨_, _, rest⟩ := Option.bind_eq_some_iff.mp rest
  obtain ⟨_, width, rest⟩ := Option.bind_eq_some_iff.mp rest
  obtain ⟨_, input, rest⟩ := Option.bind_eq_some_iff.mp rest
  obtain ⟨_, output, _⟩ := Option.bind_eq_some_iff.mp rest
  have boundary : ∀ {p q default : Position} {name : String},
      List.lookup name _ = some (Form.ofPosition p) →
        Found.withDefault ⟨126, present⟩ name default Form.readPosition = some q →
          p.isFinite = true := fun placed done =>
    have ⟨_, spells, done⟩ := shows.read placed done
    finite_of_position spells done
  refine ⟨⟨?_, fun p member => ?_, boundary rfl input, boundary rfl output⟩,
    fun row member encoded inside => ?_, fun encoded member => ?_⟩
  · obtain ⟨doc, spells, done⟩ := shows.read rfl width
    exact finite_of_float spells done
  · obtain ⟨doc, spells, done⟩ := shows.read rfl positions
    obtain ⟨inner, _, each⟩ := items_of_list spells done
    obtain ⟨part, q, spells, done⟩ := each p member
    exact finite_of_position spells done
  · obtain ⟨doc, spells, done⟩ := shows.read rfl values
    obtain ⟨inner, outer, each⟩ := items_of_list spells done
    obtain ⟨part, _, spells, done⟩ := each row member
    obtain ⟨innermost, middle, each⟩ := items_of_list spells done
    obtain ⟨part, _, spells, done⟩ := each encoded inside
    have deepest := depth_of_encodedValue spells done
    have room : 126 = inner + 1 := outer
    rw [Json.nestingLimit]
    omega
  · obtain ⟨doc, spells, done⟩ := shows.read rfl outputs
    obtain ⟨inner, outer, each⟩ := items_of_list spells done
    obtain ⟨part, _, spells, done⟩ := each encoded member
    have deepest := depth_of_encodedValue spells done
    have room : 126 = inner + 1 := outer
    rw [Json.nestingLimit]
    omega

/-- **Exactly the finite records within the nesting limit are read back from their texts**, and each
as it was: all its columns, and which of the six columns of its parameter lists are absent. Other
records are written too, but nothing can be read off their texts. -/
theorem parse?_text_eq_some_iff (sized : r.Sized) (other : Record) :
    parse? r.text = some other ↔
      other = r ∧ r.Finite ∧ (Form.ofRecord r).depth ≤ Json.nestingLimit := by
  constructor
  · intro parsed
    obtain ⟨finite, nodes, outputs⟩ := limits_of_parse? sized r.kept_nearest parsed
    -- Only payloads are nested without a bound of their own.
    have small : (Form.ofRecord r).depth ≤ 123 + 4 := depth_ofRecord_le
      (fun row member encoded inside =>
        Nat.le_of_add_le_add_right (nodes row member encoded inside))
      (fun encoded member => Nat.le_of_add_le_add_right (outputs encoded member))
    rw [parse?_text sized finite r.kept_nearest small] at parsed
    exact ⟨(Option.some_injective _ parsed).symm, finite, small⟩
  · rintro ⟨rfl, finite, small⟩
    exact parse?_text sized finite (kept_nearest _) small

/-- A record with odd texts, wires of odd lengths and a nested payload. -/
def oddRecord (inputs : ParameterColumns) : Record where
  id := "a \"b\" \\ \n"
  name := "Größe"
  nodeIds := [.ofNat 7]
  nodePositions := [⟨0.1, -2.5⟩]
  nodeValueKeys := [[3, 0], []]
  nodeValueValues := [[⟨.text, .str "\t"⟩,
    ⟨⟨"note"⟩, .obj [("a", .null), ("b", .arr [.int (-1), .bool true, .float 0.3])]⟩]]
  wires := [[], [1, 2, 3, 4, 18446744073709551615]]
  width := 1e21
  inputs := inputs

theorem oddRecord_sized (inputs : ParameterColumns) : (oddRecord inputs).Sized where
  nodeValueKeys := show ∀ row ∈ [[3, 0], []], ∀ slot ∈ row, slot < 2 ^ 64 by decide
  outputValueKeys _ member := by cases member
  wires := show ∀ row ∈ [[], [1, 2, 3, 4, 18446744073709551615]], ∀ n ∈ row, n < 2 ^ 64 by decide
  nodeValueValues := List.forall_mem_singleton.mpr <| List.forall_mem_cons.mpr
    ⟨⟨rfl, rfl⟩, List.forall_mem_singleton.mpr ⟨by decide +kernel, by decide +kernel⟩⟩
  outputValueValues _ member := by cases member

theorem oddRecord_finite (inputs : ParameterColumns) : (oddRecord inputs).Finite where
  width := show (1e21 : Float).isFinite = true by decide +kernel
  nodePositions := List.forall_mem_singleton.mpr (by decide +kernel)
  inputPosition := show Layout.standard.inputPosition.isFinite = true by decide +kernel
  outputPosition := show Layout.standard.outputPosition.isFinite = true by decide +kernel

/-- An empty column and an absent one are told apart. -/
theorem oddRecord_parse?_text :
    parse? (oddRecord { names := some [] }).text = some (oddRecord { names := some [] }) ∧
      (oddRecord { names := some [] }).variant = .withSignature ∧
      parse? (oddRecord {}).text = some (oddRecord {}) ∧
      (oddRecord {}).variant = .hostSignature :=
  ⟨(parse?_text_eq_some_iff (oddRecord_sized _) _).mpr
      ⟨rfl, oddRecord_finite _, by decide +kernel⟩, rfl,
    (parse?_text_eq_some_iff (oddRecord_sized _) _).mpr
      ⟨rfl, oddRecord_finite _, by decide +kernel⟩, rfl⟩

end Record

end FlowGraph
