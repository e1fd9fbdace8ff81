/-
**Clean records are read without loss.**

Reading a record never fails, so what cannot be kept has to be reported. This is so: if the columns
of a record match and nothing is reported of it but unknown functions, then writing what was read
gives the record again. Only the values of a node are put in the order of their slots, and payloads
are written as their types write them.

* `Record.Rectangular`: the columns of a record match;
* `Codec.canonical`, `Codec.canonical_perm`: the record with its values in order and canonical
  payloads, and that no value is lost by this;
* `Slots.entries_ofList`, `Codec.encodeSlots_decodeSlots`: what is written of a row of values;
* `Codec.decodeNodesFrom_clean`: the nodes of a clean record are its rows;
* `Codec.encode_decode`: **encoding undoes decoding**, on clean records.
-/

import FlowGraph.Proofs.Placement

namespace FlowGraph

/-! ### Rows of values -/

/-- Arranging commutes with what keeps the order. -/
theorem arrange_map {α β : Type} (precedes : β → β → Bool) (f : α → β) (things : List α) :
    arrange precedes (things.map f) =
      (arrange (fun a b => precedes (f a) (f b)) things).map f := by
  have insert : ∀ (a : α) (others : List α), insertBefore precedes (f a) (others.map f) =
      (insertBefore (fun a b => precedes (f a) (f b)) a others).map f := by
    intro a others
    induction others with
    | nil => rfl
    | cons b rest ih =>
      rw [List.map_cons, insertBefore, insertBefore, ih]
      split <;> rfl
  induction things with
  | nil => rfl
  | cons a rest ih =>
    show insertBefore precedes (f a) (arrange precedes (rest.map f)) = _
    rw [ih, insert]
    rfl

namespace Slots

/-- A value for a slot that has none is added. -/
theorem perm_insertEntry {slot : Nat} {value : Value} {entries : List (Nat × Value)}
    (free : ∀ entry ∈ entries, entry.1 ≠ slot) :
    (insertEntry slot value entries).Perm ((slot, value) :: entries) := by
  induction entries with
  | nil => exact .refl _
  | cons first rest ih =>
    unfold insertEntry
    split
    · exact .refl _
    · rw [if_neg (free first List.mem_cons_self).symm]
      exact ((ih fun entry member => free entry (List.mem_cons_of_mem _ member)).cons first).trans
        (.swap ..)

theorem perm_insertAll {before : Slots} {entries : List (Nat × Value)}
    (distinct : ((before.entries ++ entries).map Prod.fst).Nodup) :
    (before.insertAll entries).entries.Perm (before.entries ++ entries) := by
  induction entries generalizing before with
  | nil => rw [List.append_nil]; exact .refl _
  | cons entry rest ih =>
    obtain ⟨slot, value⟩ := entry
    have free : ∀ other ∈ before.entries, other.1 ≠ slot := by
      intro other member same
      rw [List.map_append, List.map_cons] at distinct
      exact (List.nodup_append.mp distinct).2.2 other.1 (List.mem_map_of_mem member) slot
        List.mem_cons_self same
    have added : ((before.insert slot value).entries ++ rest).Perm
        (before.entries ++ (slot, value) :: rest) :=
      ((perm_insertEntry free).append_right rest).trans List.perm_middle.symm
    exact (ih ((added.map Prod.fst).nodup_iff.mpr distinct)).trans added

/-- **Values of distinct slots are all kept**, in the order of the slots. -/
theorem entries_ofList {entries : List (Nat × Value)} (distinct : (entries.map Prod.fst).Nodup) :
    (ofList entries).entries = arrange (fun a b => a.1 ≤ b.1) entries := by
  have kept : (empty.insertAll entries).entries.Perm (empty.entries ++ entries) :=
    perm_insertAll distinct
  have ordered := Feed.bySlot_perm entries
  refine List.Perm.eq_of_pairwise (fun a b member member' least most => ?_)
    ((ofList entries).sorted.imp Nat.le_of_lt) (Feed.bySlot_sorted entries)
    (kept.trans ordered.symm)
  exact List.inj_on_of_nodup_map distinct (kept.mem_iff.mp member) (ordered.mem_iff.mp member')
    (Nat.le_antisymm least most)

end Slots

/-! ### Canonical records -/

/-- All columns of a parameter list are present, with as many rows each. -/
def ParameterColumns.Full (columns : ParameterColumns) : Prop :=
  ∃ ids names types, columns = ⟨some ids, some names, some types⟩ ∧
    names.length = ids.length ∧ types.length = ids.length

/-- The columns of a record match: there is a row for each node, each slot of a row has a value of
its own, wires have four numbers, and the parameter lists are complete or left to the host. -/
structure Record.Rectangular (r : Record) : Prop where
  nodePositions : r.nodePositions.length = r.nodeIds.length
  nodeFunctions : r.nodeFunctions.length = r.nodeIds.length
  nodeValueKeys : r.nodeValueKeys.length = r.nodeIds.length
  nodeValueValues : r.nodeValueValues.length = r.nodeIds.length
  nodeValues : ∀ row ∈ r.nodeValueKeys.zip r.nodeValueValues,
    row.1.length = row.2.length ∧ row.1.Nodup
  outputValues : r.outputValueKeys.length = r.outputValueValues.length ∧ r.outputValueKeys.Nodup
  wires : ∀ row ∈ r.wires, row.length = 4
  parameters : r.inputs.Full ∧ r.outputs.Full ∨ r.inputs = {} ∧ r.outputs = {}

namespace Codec

variable {codec : Codec} {r : Record} {keys : List Nat} {values : List EncodedValue}

/-- A row of values in ascending order of their slots. -/
def ascending (keys : List Nat) (values : List EncodedValue) : List (Nat × EncodedValue) :=
  arrange (fun a b => a.1 ≤ b.1) (keys.zip values)

/-- The slots of a row in order. -/
def canonicalKeys (keys : List Nat) (values : List EncodedValue) : List Nat :=
  (ascending keys values).map Prod.fst

/-- A value with the payload that its type writes for what it reads; a payload that cannot be read
stays as it is. -/
def canonicalValue (codec : Codec) (encoded : EncodedValue) : EncodedValue :=
  let payload? := (codec.registry.get? encoded.tag).bind fun valueType =>
    (valueType.decode encoded.payload).bind valueType.encode
  ⟨encoded.tag, payload?.getD encoded.payload⟩

/-- The values of a row in the order of their slots, with canonical payloads. -/
def canonicalValues (codec : Codec) (keys : List Nat) (values : List EncodedValue) :
    List EncodedValue :=
  (ascending keys values).map fun entry => codec.canonicalValue entry.2

/-- The record with the values of each node in the order of their slots and with canonical
payloads; all else stays. -/
def canonical (codec : Codec) (r : Record) : Record :=
  { r with
    nodeValueKeys := List.zipWith canonicalKeys r.nodeValueKeys r.nodeValueValues
    nodeValueValues := List.zipWith codec.canonicalValues r.nodeValueKeys r.nodeValueValues
    outputValueKeys := canonicalKeys r.outputValueKeys r.outputValueValues
    outputValueValues := codec.canonicalValues r.outputValueKeys r.outputValueValues }

/-- Nothing is lost of a row when it is put in order. -/
theorem canonical_perm (codec : Codec) (paired : keys.length = values.length) :
    (canonicalKeys keys values).Perm keys ∧
      (codec.canonicalValues keys values).Perm (values.map codec.canonicalValue) := by
  have ordered : (ascending keys values).Perm (keys.zip values) := arrange_perm _
  constructor
  · refine (ordered.map Prod.fst).trans ?_
    rw [List.map_fst_zip (Nat.le_of_eq paired)]
  · refine (ordered.map fun entry => codec.canonicalValue entry.2).trans ?_
    rw [← Function.comp_def codec.canonicalValue Prod.snd, ← List.map_map,
      List.map_snd_zip (Nat.le_of_eq paired.symm)]

/-! ### What is written of values -/

/-- **A value that is read is written with its canonical payload.** -/
theorem encodeValue_decodeValue (built : codec.registry.Built) {encoded : EncodedValue}
    (clean : (codec.decodeValue encoded).2 = []) :
    codec.encodeValue (codec.decodeValue encoded).1 = .ok (codec.canonicalValue encoded) := by
  unfold canonicalValue
  unfold decodeValue at clean ⊢
  cases found : codec.registry.get? encoded.tag with
  | none =>
    rw [found] at clean
    cases clean
  | some valueType =>
    rw [found] at clean
    dsimp only at clean ⊢
    cases decoded : valueType.decode encoded.payload with
    | none =>
      rw [decoded] at clean
      cases clean
    | some value =>
      obtain ⟨tag, payload, written⟩ := (built.supplied_of_get? found).holds_decode decoded
      have registered : valueType.tag = encoded.tag := by simpa using List.find?_some found
      unfold encodeValue
      dsimp only
      rw [tag, registered, found, Option.bind_some, Option.bind_some, decoded, Option.bind_some,
        written]
      rfl

/-- **A row of values that is read is written in order.** -/
theorem encodeSlots_decodeSlots (built : codec.registry.Built)
    (paired : keys.length = values.length) (distinct : keys.Nodup)
    (clean : (codec.decodeSlots keys values).2 = []) :
    slotKeys (codec.decodeSlots keys values).1 = canonicalKeys keys values ∧
      codec.encodeSlots (codec.decodeSlots keys values).1 =
        .ok (codec.canonicalValues keys values) := by
  let read : Nat × EncodedValue → Nat × Value := fun entry =>
    (entry.1, (codec.decodeValue entry.2).1)
  have entries : (codec.decodeSlots keys values).1.entries = (ascending keys values).map read := by
    have slots : (((keys.zip values).map read).map Prod.fst).Nodup := by
      rw [List.map_map]
      exact (List.map_fst_zip (Nat.le_of_eq paired)).symm ▸ distinct
    unfold decodeSlots
    dsimp only
    rw [List.map_map]
    exact (Slots.entries_ofList slots).trans (arrange_map _ read _)
  have each : ∀ entry ∈ ascending keys values,
      codec.encodeValue (read entry).2 = pure (codec.canonicalValue entry.2) := by
    intro entry member
    have listed : entry ∈ keys.zip values := (arrange_perm _).mem_iff.mp member
    exact encodeValue_decodeValue built
      (List.flatMap_eq_nil_iff.mp clean _ (List.mem_map_of_mem listed))
  constructor
  · unfold slotKeys canonicalKeys
    rw [entries, List.map_map]
    rfl
  · unfold encodeSlots
    rw [entries, List.mapM_map]
    exact mapM_eq_pure each

theorem decodeSlots_clean (harmless : Harmless (codec.decodeSlots keys values).2) :
    (codec.decodeSlots keys values).2 = [] := by
  refine List.eq_nil_iff_forall_not_mem.mpr fun warning member => ?_
  obtain ⟨_, _, rfl⟩ := harmless warning member
  obtain ⟨_, told | told⟩ := warning_of_decodeSlots member <;> cases told

/-! ### Signatures -/

/-- Complete columns are those of a parameter list. -/
theorem exists_ofParameters {columns : ParameterColumns} (full : columns.Full) :
    ∃ parameters, columns = .ofParameters parameters := by
  obtain ⟨ids, names, types, rfl, named, typed⟩ := full
  induction ids generalizing names types with
  | nil =>
    cases List.length_eq_zero_iff.mp named
    cases List.length_eq_zero_iff.mp typed
    exact ⟨[], rfl⟩
  | cons id ids ih =>
    obtain ⟨name, names, rfl⟩ := List.exists_cons_of_length_eq_add_one named
    obtain ⟨type, types, rfl⟩ := List.exists_cons_of_length_eq_add_one typed
    obtain ⟨parameters, same⟩ := ih names types (Nat.succ.inj named) (Nat.succ.inj typed)
    cases same
    exact ⟨⟨id, name, type⟩ :: parameters, rfl⟩

theorem registered_of_harmless {parameters : List Parameter}
    (harmless : Harmless (parameters.flatMap fun p => (codec.readParameter p).2)) :
    ∀ p ∈ parameters, codec.registry.contains p.type = true := by
  intro p member
  by_contra unknown
  have told : .unknownParameterType p.name p.type ∈ (codec.readParameter p).2 := by
    unfold readParameter
    rw [if_neg unknown]
    exact List.mem_singleton_self _
  obtain ⟨_, _, same⟩ := harmless _ (List.mem_flatMap.mpr ⟨p, member, told⟩)
  cases same

/-- The signature of a clean record has the columns of the record. -/
theorem decodeSignature_clean (parameters : r.inputs.Full ∧ r.outputs.Full ∨
      r.inputs = {} ∧ r.outputs = {}) {signature : Signature} {warnings : List Warning}
    {supply later : IdSupply}
    (read : codec.decodeSignature r supply = ((signature, warnings), later))
    (harmless : Harmless warnings) :
    r.inputs = signatureColumns signature.inputs r.variant ∧
      r.outputs = signatureColumns signature.outputs r.variant := by
  rcases parameters with ⟨first, second⟩ | ⟨first, second⟩
  · obtain ⟨inputs, first⟩ := exists_ofParameters first
    obtain ⟨outputs, second⟩ := exists_ofParameters second
    have carries : r.variant = .withSignature := variant_of_columns first second
    rw [decodeSignature_ofParameters first second] at read
    cases read
    obtain ⟨one, other⟩ := List.forall_mem_append.mp harmless
    rw [carries, (readParameters_of_registered (registered_of_harmless one)).1,
      (readParameters_of_registered (registered_of_harmless other)).1]
    exact ⟨first, second⟩
  · have hosted : r.variant = .hostSignature := @variant_of_columns [] [] _ _ first second
    rw [hosted]
    exact ⟨first, second⟩

/-! ### Nodes -/

/-- **The nodes of a clean record are its rows**: identifiers are kept, and all values are read. -/
theorem decodeNodesFrom_clean (codec : Codec) (r : Record) (ids : List Uuid) :
    ∀ {place : Nat} {seen : List NodeId} {supply later : IdSupply} {nodes : List Node}
      {warnings : List Warning}, r.nodeIds.drop place = ids →
      codec.decodeNodesFrom r (List.range' place ids.length) seen supply =
        ((nodes, warnings), later) → Harmless warnings →
        nodes = List.zipWith (codec.nodeAt r) (List.range' place ids.length) (ids.map NodeId.mk) ∧
        Assigned r seen [] (ids.map NodeId.mk) ∧
        ∀ row ∈ List.range' place ids.length, (codec.decodeSlots (r.nodeValueKeys[row]?.getD [])
          (r.nodeValueValues[row]?.getD [])).2 = [] := by
  induction ids with
  | nil =>
    intro place seen supply later nodes warnings _ read _
    cases read
    exact ⟨rfl, ⟨.nil, nofun, nofun, nofun⟩, nofun⟩
  | cons id rest ih =>
    intro place seen supply later nodes warnings remaining read harmless
    have found : r.nodeIds[place]? = some id := by
      rw [← List.head?_drop, remaining]
      rfl
    have remaining' : r.nodeIds.drop (place + 1) = rest := by
      rw [← List.tail_drop, remaining]
      rfl
    rw [List.length_cons, List.range'_succ] at read ⊢
    rcases decodeNodeId_cases r place seen supply with
      ⟨kept, present, inner, unseen, named⟩ | ⟨_, named⟩
    · cases found.symm.trans present
      rcases follow : codec.decodeNodesFrom r (List.range' (place + 1) rest.length)
        (remember r place seen kept) supply with ⟨⟨others, told⟩, last⟩
      rw [decodeNodesFrom_cons named follow] at read
      cases read
      rw [remember_of_recorded present] at follow
      obtain ⟨here, behind⟩ := List.forall_mem_append.mp harmless
      obtain ⟨rfl, assigned, clean⟩ := ih remaining' follow behind
      have first := decodeSlots_clean (List.forall_mem_append.mp here).2
      exact ⟨rfl, assigned.keep (List.mem_of_getElem? present) inner unseen,
        List.forall_mem_cons.mpr ⟨first, clean⟩⟩
    · -- An identifier that is given up is reported, and this is no unknown function.
      rcases follow : codec.decodeNodesFrom r (List.range' (place + 1) rest.length)
        (remember r place seen ⟨supply.draw supply.next⟩) { supply with next := supply.next + 1 }
        with ⟨⟨others, told⟩, last⟩
      rw [decodeNodesFrom_cons named follow, found] at read
      cases read
      obtain ⟨here, _⟩ := List.forall_mem_append.mp harmless
      obtain ⟨front, _⟩ := List.forall_mem_append.mp here
      obtain ⟨_, _, same⟩ := (List.forall_mem_append.mp front).2 _ List.mem_cons_self
      cases same

/-- The columns of nodes at all places. -/
theorem map_nodeAt {α : Type} {field : Node → α} {column : List α} {ids : List NodeId} {count : Nat}
    (named : ids.length = count) (length : column.length = count)
    (read : ∀ place id, (inside : place < column.length) →
      field (codec.nodeAt r place id) = column[place]) :
    (List.zipWith (codec.nodeAt r) (List.range count) ids).map field = column := by
  refine List.ext_getElem (by simp [named, length]) fun place _ inside => ?_
  rw [List.getElem_map, List.getElem_zipWith, List.getElem_range]
  exact read place _ inside

/-- The values of a node are written as the row that they were read from, in order. -/
theorem encodeSlots_nodeAt (built : codec.registry.Built) (rectangular : r.Rectangular)
    {place : Nat} (inKeys : place < r.nodeValueKeys.length)
    (inValues : place < r.nodeValueValues.length)
    (clean : (codec.decodeSlots (r.nodeValueKeys[place]?.getD [])
      (r.nodeValueValues[place]?.getD [])).2 = []) (id : NodeId) :
    slotKeys (codec.nodeAt r place id).values =
        canonicalKeys r.nodeValueKeys[place] r.nodeValueValues[place] ∧
      codec.encodeSlots (codec.nodeAt r place id).values =
        .ok (codec.canonicalValues r.nodeValueKeys[place] r.nodeValueValues[place]) := by
  unfold nodeAt
  rw [List.getElem?_eq_getElem inKeys, List.getElem?_eq_getElem inValues] at clean ⊢
  have inside : place < (r.nodeValueKeys.zip r.nodeValueValues).length := by
    rw [List.length_zip]
    exact Nat.lt_min.mpr ⟨inKeys, inValues⟩
  obtain ⟨paired, distinct⟩ := rectangular.nodeValues
    (r.nodeValueKeys[place], r.nodeValueValues[place])
    (List.mem_iff_getElem.mpr ⟨place, inside, List.getElem_zip⟩)
  exact encodeSlots_decodeSlots built paired distinct clean

/-- The nodes of a clean record have distinct identifiers, none of them reserved, and the columns of
the canonical record. -/
theorem decodeNodes_clean (built : codec.registry.Built) (rectangular : r.Rectangular)
    {nodes : List Node} {warnings : List Warning} {supply later : IdSupply}
    (read : codec.decodeNodes r supply = ((nodes, warnings), later))
    (harmless : Harmless warnings) :
    (nodes.map Node.id).Nodup ∧ (∀ node ∈ nodes, node.id.isBoundary = false) ∧
      nodes.map (fun node => node.id.uuid) = r.nodeIds ∧
      nodes.map Node.position = r.nodePositions ∧ nodes.map Node.function = r.nodeFunctions ∧
      nodes.map (fun node => slotKeys node.values) = (codec.canonical r).nodeValueKeys ∧
      List.Forall₂ (fun node row => codec.encodeSlots node.values = .ok row) nodes
        (codec.canonical r).nodeValueValues := by
  have count : nodeCount r = r.nodeIds.length := by
    unfold nodeCount
    rw [rectangular.nodePositions, rectangular.nodeFunctions, Nat.max_self, Nat.max_self]
  unfold decodeNodes at read
  rw [count, List.range_eq_range'] at read
  obtain ⟨rfl, assigned, clean⟩ := decodeNodesFrom_clean codec r r.nodeIds rfl read harmless
  rw [← List.range_eq_range'] at clean ⊢
  have length : (r.nodeIds.map NodeId.mk).length = r.nodeIds.length := List.length_map _
  have names := map_id_nodeAt codec r (length.trans List.length_range.symm)
  have written := fun place (inKeys : place < r.nodeValueKeys.length) inValues =>
    encodeSlots_nodeAt built rectangular inKeys inValues
      (clean place (List.mem_range.mpr (rectangular.nodeValueKeys ▸ inKeys)))
  refine ⟨names.symm ▸ assigned.nodup, fun node member => ?_, ?_, ?_, ?_, ?_, ?_⟩
  · exact assigned.inner node.id (names ▸ List.mem_map_of_mem member)
  · have uuids := congrArg (List.map NodeId.uuid) names
    rw [List.map_map, List.map_map] at uuids
    exact uuids.trans (List.map_id _)
  · refine map_nodeAt length rectangular.nodePositions fun place id inside => ?_
    unfold nodeAt
    rw [List.getElem?_eq_getElem inside]
    rfl
  · refine map_nodeAt length rectangular.nodeFunctions fun place id inside => ?_
    unfold nodeAt
    rw [List.getElem?_eq_getElem inside]
    rfl
  · refine map_nodeAt length ?_ fun place id inside => ?_
    · simp [canonical, rectangular.nodeValueKeys, rectangular.nodeValueValues]
    obtain ⟨inKeys, inValues⟩ := Nat.lt_min.mp (List.length_zipWith ▸ inside)
    exact (written place inKeys inValues id).1.trans List.getElem_zipWith.symm
  · refine List.forall₂_iff_get.mpr ⟨?_, fun place _ inside => ?_⟩
    · simp [canonical, rectangular.nodeValueKeys, rectangular.nodeValueValues]
    obtain ⟨inKeys, inValues⟩ := Nat.lt_min.mp (List.length_zipWith ▸ inside)
    rw [List.get_eq_getElem, List.get_eq_getElem, List.getElem_zipWith, List.getElem_range,
      (written place inKeys inValues _).2]
    exact congrArg Except.ok List.getElem_zipWith.symm

/-! ### Wires -/

/-- The wires of a clean record are all there. -/
theorem decodeWires_clean {rows : List (List Nat)} (four : ∀ row ∈ rows, row.length = 4)
    {g wired : Graph Function} (distinct : g.DistinctIds) {warnings : List Warning}
    {supply later : IdSupply} (read : decodeWires rows g supply = ((wired, warnings), later))
    (harmless : Harmless warnings) :
    ∃ wires, wired = { g with wires := g.wires ++ wires } ∧
      (wires.filterMap g.link?).map wireRow = rows := by
  obtain ⟨wires, last, placed, links⟩ := decodeWires_rows rows g supply distinct
  rw [read] at placed
  cases placed
  have fits : ∀ row ∈ rows, rowFits g.nodes.length row = true := by
    intro row member
    by_contra outside
    have dropped : row ∈ rows.filter fun row => !rowFits g.nodes.length row :=
      List.mem_filter.mpr ⟨member, by simpa using outside⟩
    obtain ⟨_, _, same⟩ := harmless _ (List.mem_map_of_mem dropped)
    cases same
  refine ⟨wires, rfl, ?_⟩
  rw [links, List.filter_eq_self.mpr fits, List.map_map]
  refine (List.map_congr_left fun row member => ?_).trans (List.map_id _)
  show wireRow (rowLink row) = row
  rw [wireRow_rowLink, ← four row member, List.takeD_eq_take _ (Nat.le_refl _), List.take_length]

/-! ### Records -/

/-- **Encoding undoes decoding**, on clean records: if the columns match and nothing is reported but
unknown functions, then what was read is written as the same record, its values in order and their
payloads canonical. So whatever is lost of such a record is reported. -/
theorem encode_decode (built : codec.registry.Built) (rectangular : r.Rectangular)
    (supply : IdSupply) (harmless : Harmless ((codec.decode r).run supply).1.warnings) :
    codec.encode ((codec.decode r).run supply).1.function r.variant =
      .ok (codec.canonical r) := by
  rcases signatures : codec.decodeSignature r supply with ⟨⟨signature, first⟩, start⟩
  rcases rows : codec.decodeNodes r start with ⟨⟨nodes, second⟩, middle⟩
  let unwired : Graph Function := ⟨nodes, [], codec.roster, r.inputPosition, r.outputPosition,
    (codec.decodeSlots r.outputValueKeys r.outputValueValues).1⟩
  rcases wired : decodeWires r.wires unwired middle with ⟨⟨graph, fourth⟩, later⟩
  have output : codec.decodeSlots r.outputValueKeys r.outputValueValues =
      (unwired.outputValues, (codec.decodeSlots r.outputValueKeys r.outputValueValues).2) := rfl
  rw [decode_of_parts signatures rows output wired] at harmless ⊢
  obtain ⟨front, dropped⟩ := List.forall_mem_append.mp harmless
  obtain ⟨front, unread⟩ := List.forall_mem_append.mp front
  obtain ⟨signed, named⟩ := List.forall_mem_append.mp front
  obtain ⟨inputs, outputs⟩ := decodeSignature_clean rectangular.parameters signatures signed
  obtain ⟨nodup, inner, ids, positions, functions, keys, values⟩ :=
    decodeNodes_clean built rectangular rows named
  obtain ⟨wires, rfl, links⟩ := decodeWires_clean rectangular.wires ⟨nodup, inner⟩ wired dropped
  obtain ⟨paired, distinct⟩ := rectangular.outputValues
  obtain ⟨slots, written⟩ :=
    encodeSlots_decodeSlots built paired distinct (decodeSlots_clean unread)
  exact encode_of_holds rfl ⟨rfl, rfl, rfl, rfl, inputs, outputs, rfl, rfl, ids.symm,
    positions.symm, functions.symm, keys.symm, values, slots.symm, written, links.symm⟩

/-- A clean record whose values stand out of order, with a payload that is not canonical, and one of
whose nodes calls an unknown function. -/
def looseRecord : Record where
  nodeIds := [.ofNat 2, .ofNat 3]
  nodePositions := [⟨1.0, 2.0⟩, ⟨3.0, 4.0⟩]
  nodeFunctions := ["not", "nobody"]
  nodeValueKeys := [[1, 0], []]
  nodeValueValues := [[⟨.boolean, .bool true⟩, ⟨.controlFlow, .obj [("signal", .null)]⟩], []]
  outputValueKeys := [2]
  outputValueValues := [⟨.text, .str "two"⟩]
  wires := [[1, 1, 2, 1], [0, 1, 3, 1]]
  inputs := .ofParameters [Function.flag]
  outputs := .ofParameters [Function.flag]

theorem loose_encode_decode : looseRecord.Rectangular ∧
    ((twinsCodec.decode looseRecord).run .counting).1.warnings = [.unknownFunction 2 "nobody"] ∧
      twinsCodec.encode ((twinsCodec.decode looseRecord).run .counting).1.function .withSignature =
        .ok { looseRecord with
          nodeValueKeys := [[0, 1], []]
          nodeValueValues := [[⟨.controlFlow, .str "signal"⟩, ⟨.boolean, .bool true⟩], []] } := by
  have rectangular : looseRecord.Rectangular :=
    ⟨rfl, rfl, rfl, rfl, by decide, by decide, by decide,
      Or.inl ⟨⟨_, _, _, rfl, rfl, rfl⟩, ⟨_, _, _, rfl, rfl, rfl⟩⟩⟩
  have warnings : ((twinsCodec.decode looseRecord).run .counting).1.warnings =
      [.unknownFunction 2 "nobody"] := by
    decide +kernel
  have harmless : Harmless ((twinsCodec.decode looseRecord).run .counting).1.warnings := by
    rw [warnings]
    exact fun warning member => ⟨_, _, List.mem_singleton.mp member⟩
  have canonical : twinsCodec.canonical looseRecord = { looseRecord with
      nodeValueKeys := [[0, 1], []]
      nodeValueValues := [[⟨.controlFlow, .str "signal"⟩, ⟨.boolean, .bool true⟩], []] } := by
    decide +kernel
  refine ⟨rectangular, warnings, ?_⟩
  rw [← canonical]
  exact encode_decode Registry.built_builtins rectangular .counting harmless

end Codec

end FlowGraph
