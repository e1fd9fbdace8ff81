/-
**Reading a record normalises it.**

Whatever is wrong with a record, what is read from it can be written, and the record that is written
then is settled: reading it takes no fallback any more, and gives the same record again. The one
thing that reading does not look into is a signature that the host supplies, so its types have to be
registered if it is to be written.

* `Fresh.Ensures`: what a computation gives, and how many identifiers it draws at most;
* `Codec.decodeSignature_ensures`: signatures are read with registered types;
* `Codec.holds_decodeValue`, `Codec.holds_decodeSlots`: values are read that can be written;
* `Codec.decode_sound`: **what is read from any record** is a composite with distinct identifiers
  and values of registered types;
* `Codec.settled_of_encode`: the record of such a composite is settled;
* `Codec.decode_settles`: **any record is settled once it was read and written.**
-/

import FlowGraph.Proofs.Editing
import FlowGraph.Proofs.Replacement
import FlowGraph.Proofs.Snapshots

namespace FlowGraph

/-! ### Drawing identifiers -/

namespace IdSupply

variable {supply : IdSupply} {count few : Nat} {taken : List NodeId}

/-- The supply after some identifiers were drawn. -/
def advance (supply : IdSupply) (count : Nat) : IdSupply :=
  { supply with next := supply.next + count }

theorem advance_advance (supply : IdSupply) (first second : Nat) :
    (supply.advance first).advance second = supply.advance (first + second) := by
  unfold advance
  rw [Nat.add_assoc]

theorem ahead_add (supply : IdSupply) (first second : Nat) :
    supply.ahead (first + second) = supply.ahead first ++ (supply.advance first).ahead second := by
  unfold ahead advance
  rw [← List.range'_append_1, List.map_append]

/-- A supply stays clear while identifiers are drawn, as long as there are enough of them. -/
theorem Clear.advance (clear : supply.Clear count taken) {drawn : Nat}
    (enough : drawn + few ≤ count) : (supply.advance drawn).Clear few taken := by
  obtain ⟨spare, rfl⟩ := Nat.exists_eq_add_of_le enough
  refine clear.of_sublist ?_
  rw [Nat.add_assoc, ahead_add, ahead_add]
  exact (List.sublist_append_left _ _).trans (List.sublist_append_right _ _)

end IdSupply

namespace Fresh

variable {α β : Type} {P : α → Prop} {Q : β → Prop} {first second : Nat}

/-- A computation draws no more than some number of identifiers, whatever these are, and its result
has a property. -/
def Ensures (action : Fresh α) (bound : Nat) (post : α → Prop) : Prop :=
  ∀ supply : IdSupply, ∃ result count,
    action supply = (result, supply.advance count) ∧ count ≤ bound ∧ post result

namespace Ensures

theorem pure {value : α} (holds : P value) : Ensures (Pure.pure value) 0 P := fun _ =>
  ⟨value, 0, rfl, Nat.le_refl 0, holds⟩

theorem id : Ensures Fresh.id 1 fun _ => True := fun _ =>
  ⟨_, 1, rfl, Nat.le_refl 1, trivial⟩

theorem mono {action : Fresh α} (ensures : Ensures action first P) (fewer : first ≤ second) :
    Ensures action second P := by
  intro supply
  obtain ⟨result, count, done, few, holds⟩ := ensures supply
  exact ⟨result, count, done, Nat.le_trans few fewer, holds⟩

theorem bind {action : Fresh α} {next : α → Fresh β} (start : Ensures action first P)
    (goes : ∀ result, P result → Ensures (next result) second Q) :
    Ensures (action >>= next) (first + second) Q := by
  intro supply
  obtain ⟨result, count, done, few, holds⟩ := start supply
  obtain ⟨last, more, finished, few', holds'⟩ := goes result holds (supply.advance count)
  refine ⟨last, count + more, ?_, Nat.add_le_add few few', holds'⟩
  rw [Codec.bind_eq done, finished, IdSupply.advance_advance]

theorem mapM {f : α → Fresh β} (each : ∀ thing, Ensures (f thing) 1 Q) (things : List α) :
    Ensures (things.mapM f) things.length fun results => ∀ result ∈ results, Q result := by
  induction things with
  | nil => exact pure fun _ member => absurd member List.not_mem_nil
  | cons thing rest ih =>
    rw [List.mapM_cons, List.length_cons, Nat.add_comm]
    refine (each thing).bind fun result holds => ?_
    refine ih.bind fun results all => pure ?_
    exact List.forall_mem_cons.mpr ⟨holds, all⟩

end Ensures

end Fresh

namespace Codec

variable {codec : Codec} {r : Record} {f : Function} {g : Graph Function} {variant : Variant}

/-! ### Signatures -/

/-- All types that a host's signature names are registered. -/
def HostTyped (codec : Codec) : Prop :=
  ∀ signature, codec.signature? = some signature →
    ∀ p ∈ signature.inputs ++ signature.outputs, codec.registry.contains p.type = true

/-- The warning is about the signature: a type of a parameter, or that there is no signature. -/
def SignatureWarning (warning : Warning) : Prop :=
  (∃ parameter tag, warning = .unknownParameterType parameter tag) ∨ warning = .missingSignature

/-- A parameter is read with a registered type, and nothing but its type is reported. -/
theorem decodeParameter_ensures (codec : Codec) (columns : ParameterColumns) (place : Nat) :
    (codec.decodeParameter columns place).Ensures 1
      fun read => codec.registry.contains read.1.type = true ∧
        ∀ warning ∈ read.2, SignatureWarning warning := by
  unfold decodeParameter
  dsimp only
  have silent : ∀ warning ∈ ([] : List Warning), SignatureWarning warning := fun _ member =>
    absurd member List.not_mem_nil
  have reported : ∀ parameter tag, ∀ warning ∈ [Warning.unknownParameterType parameter tag],
      SignatureWarning warning := fun parameter tag warning member =>
    Or.inl ⟨parameter, tag, List.mem_singleton.mp member⟩
  by_cases known : codec.registry.contains (((columns.types.getD [])[place]?).getD .controlFlow)
  · simp only [if_pos known]
    split
    · exact Fresh.Ensures.mono (.pure ⟨known, silent⟩) (Nat.zero_le 1)
    · refine Fresh.Ensures.id.bind fun _ _ => .pure ?_
      exact ⟨known, silent⟩
  · simp only [if_neg known]
    split
    · exact Fresh.Ensures.mono (.pure ⟨rfl, reported _ _⟩) (Nat.zero_le 1)
    · refine Fresh.Ensures.id.bind fun _ _ => .pure ?_
      exact ⟨rfl, reported _ _⟩

/-- Parameters are read with registered types, and nothing but their types is reported. -/
theorem decodeParameters_ensures (codec : Codec) (columns : ParameterColumns) :
    (codec.decodeParameters columns).Ensures (columnLength columns)
      fun read => (∀ p ∈ read.1, codec.registry.contains p.type = true) ∧
        ∀ warning ∈ read.2, SignatureWarning warning := by
  have rows := Fresh.Ensures.mapM (codec.decodeParameter_ensures columns)
    (List.range (columnLength columns))
  rw [List.length_range] at rows
  refine rows.bind fun decoded all => .pure ⟨fun p member => ?_, fun warning member => ?_⟩
  · obtain ⟨read, listed, rfl⟩ := List.mem_map.mp member
    exact (all read listed).1
  · obtain ⟨read, listed, told⟩ := List.mem_flatMap.mp member
    exact (all read listed).2 warning told

/-- **A signature is read with registered types**, unless the host supplies others, and nothing but
the signature is reported. -/
theorem decodeSignature_ensures (codec : Codec) (r : Record) :
    (codec.decodeSignature r).Ensures (columnLength r.inputs + columnLength r.outputs)
      fun read => ((r.variant = .hostSignature → codec.HostTyped) →
        ∀ p ∈ read.1.inputs ++ read.1.outputs, codec.registry.contains p.type = true) ∧
        ∀ warning ∈ read.2, SignatureWarning warning := by
  unfold decodeSignature
  cases r.variant with
  | withSignature =>
    refine (codec.decodeParameters_ensures r.inputs).bind fun inputs first => ?_
    refine (codec.decodeParameters_ensures r.outputs).bind fun outputs second => .pure ?_
    exact ⟨fun _ => List.forall_mem_append.mpr ⟨first.1, second.1⟩,
      List.forall_mem_append.mpr ⟨first.2, second.2⟩⟩
  | hostSignature =>
    refine Fresh.Ensures.mono ?_ (Nat.zero_le _)
    cases supplied : codec.signature? with
    | some signature =>
      exact .pure ⟨fun typed => typed rfl signature supplied, fun _ member => nomatch member⟩
    | none =>
      refine .pure ⟨fun _ _ member => absurd member List.not_mem_nil, fun warning member => ?_⟩
      exact Or.inr (List.mem_singleton.mp member)

/-- The signature of a record that leaves it to the host. -/
theorem decodeSignature_of_host (hosted : r.variant = .hostSignature) :
    codec.decodeSignature r = pure (codec.signature?.getD ⟨[], []⟩,
      if codec.signature?.isNone then [.missingSignature] else []) := by
  unfold decodeSignature
  rw [hosted]
  cases codec.signature? <;> rfl

/-! ### Values -/

end Codec

/-- A type that a host may register reads values of its own tag, and can hold them. -/
theorem ValueType.Supplied.holds_decode {valueType : ValueType} (supplied : valueType.Supplied)
    {payload : Json} {value : Value} (decoded : valueType.decode payload = some value) :
    value.tag = valueType.tag ∧ ∃ payload, valueType.encode value = some payload := by
  cases supplied with
  | number =>
    obtain ⟨x, _, rfl⟩ := Option.map_eq_some_iff.mp decoded
    exact ⟨rfl, _, rfl⟩
  | text =>
    obtain ⟨s, _, rfl⟩ := Option.map_eq_some_iff.mp decoded
    exact ⟨rfl, _, rfl⟩
  | boolean =>
    obtain ⟨b, _, rfl⟩ := Option.map_eq_some_iff.mp decoded
    exact ⟨rfl, _, rfl⟩
  | controlFlow =>
    obtain ⟨state, _, rfl⟩ := Option.map_eq_some_iff.mp decoded
    exact ⟨rfl, _, rfl⟩
  | json tag name default =>
    cases decoded
    exact ⟨rfl, _, if_pos rfl⟩

/-- The values of a row of entries come from that row. -/
theorem Slots.mem_ofList {slot : Nat} {value : Value} {entries : List (Nat × Value)}
    (member : (slot, value) ∈ (ofList entries).entries) : (slot, value) ∈ entries := by
  have general : ∀ (entries : List (Nat × Value)) (before : Slots),
      (slot, value) ∈ (before.insertAll entries).entries →
        (slot, value) ∈ before.entries ∨ (slot, value) ∈ entries := by
    intro entries
    induction entries with
    | nil => exact fun before found => Or.inl found
    | cons first rest ih =>
      intro before found
      rcases ih (before.insert first.1 first.2) found with earlier | later
      · rw [← get?_eq_some_iff, get?_insert] at earlier
        split at earlier
        · next same =>
          cases earlier
          exact Or.inr (same ▸ List.mem_cons_self)
        · exact Or.inl ((get?_eq_some_iff before slot value).mp earlier)
      · exact Or.inr (List.mem_cons_of_mem _ later)
  exact (general entries empty member).resolve_left List.not_mem_nil

namespace Codec

variable {codec : Codec} {r : Record} {f : Function} {g : Graph Function} {variant : Variant}

/-- **Every value that is read can be written.** -/
theorem holds_decodeValue (built : codec.registry.Built) (encoded : EncodedValue) :
    codec.registry.Holds (codec.decodeValue encoded).1 := by
  unfold decodeValue
  cases found : codec.registry.get? encoded.tag with
  | none => exact codec.registry.holds_signal
  | some valueType =>
    dsimp only
    cases decoded : valueType.decode encoded.payload with
    | none => exact codec.registry.holds_signal
    | some value =>
      obtain ⟨tag, payload, written⟩ := (built.supplied_of_get? found).holds_decode decoded
      have registered : valueType.tag = encoded.tag := by
        simpa using List.find?_some found
      refine ⟨valueType, payload, ?_, written⟩
      rw [tag, registered, found]

theorem holds_decodeSlots (built : codec.registry.Built) (keys : List Nat)
    (values : List EncodedValue) :
    ∀ entry ∈ (codec.decodeSlots keys values).1.entries, codec.registry.Holds entry.2 := by
  rintro ⟨slot, value⟩ member
  obtain ⟨read, listed, same⟩ := List.mem_map.mp (Slots.mem_ofList member)
  obtain ⟨pair, _, rfl⟩ := List.mem_map.mp listed
  cases same
  exact holds_decodeValue built pair.2

/-! ### What is read from any record -/

/-- The nodes of any record have distinct identifiers, none of them reserved, and values of
registered types. -/
theorem decodeNodes_sound (built : codec.registry.Built) {supply : IdSupply}
    (clear : supply.Clear (nodeCount r) (r.nodeIds.map NodeId.mk)) :
    ∃ nodes warnings later, codec.decodeNodes r supply = ((nodes, warnings), later) ∧
      (nodes.map Node.id).Nodup ∧ (∀ node ∈ nodes, node.id.isBoundary = false) ∧
      ∀ node ∈ nodes, ∀ entry ∈ node.values.entries, codec.registry.Holds entry.2 := by
  rw [← List.length_range (n := nodeCount r)] at clear
  obtain ⟨ids, warnings, later, rows, length, assigned⟩ := codec.decodeNodesFrom_ids r
    (List.range (nodeCount r)) [] (r.nodeIds.map NodeId.mk) supply clear (List.nil_subset _)
    fun uuid member => List.mem_map_of_mem member
  have names := map_id_nodeAt codec r length
  refine ⟨_, warnings, later, rows, names.symm ▸ assigned.nodup, fun node member => ?_,
    fun node member entry present => ?_⟩
  · exact assigned.inner node.id (names ▸ List.mem_map_of_mem member)
  · obtain ⟨index, inside, rfl⟩ := List.mem_iff_getElem.mp member
    simp only [List.getElem_zipWith] at present
    exact holds_decodeSlots built _ _ entry present

/-- **What is read from any record** is a composite with distinct identifiers, none of them
reserved, whose values have registered types; and so have its parameters, unless the host supplies
others. The identifiers that are drawn have to be new. -/
theorem decode_sound (built : codec.registry.Built) {supply : IdSupply}
    (clear : supply.Clear (columnLength r.inputs + columnLength r.outputs + nodeCount r)
      (r.nodeIds.map NodeId.mk)) :
    let f := ((codec.decode r).run supply).1.function
    ∃ g, f.graph? = some g ∧ g.DistinctIds ∧
      (∀ value ∈ g.handValues, codec.registry.Holds value) ∧
      ((r.variant = .hostSignature → codec.HostTyped) →
        ∀ p ∈ f.dataInputs ++ f.dataOutputs, codec.registry.contains p.type = true) := by
  obtain ⟨⟨signature, first⟩, drawn, signatures, few, typed, _⟩ :=
    codec.decodeSignature_ensures r supply
  -- Parameters draw their identifiers first, and leave enough of them for the nodes.
  have enough : (supply.advance drawn).Clear (nodeCount r) (r.nodeIds.map NodeId.mk) :=
    clear.advance (Nat.add_le_add_right few _)
  obtain ⟨nodes, second, middle, rows, nodup, inner, held⟩ := decodeNodes_sound built enough
  obtain ⟨wires, later, wired, _⟩ := decodeWires_rows r.wires
    ⟨nodes, [], codec.roster, r.inputPosition, r.outputPosition,
      (codec.decodeSlots r.outputValueKeys r.outputValueValues).1⟩ middle ⟨nodup, inner⟩
  intro f
  have read : f = _ := congrArg Decoded.function (decode_of_parts signatures rows rfl wired)
  rw [read]
  refine ⟨_, rfl, ⟨nodup, inner⟩, fun value member => ?_, typed⟩
  obtain ⟨slots, listed, inside⟩ := List.mem_flatMap.mp member
  obtain ⟨entry, present, rfl⟩ := List.mem_map.mp inside
  rcases List.mem_cons.mp listed with rfl | among
  · exact holds_decodeSlots built _ _ entry present
  · obtain ⟨node, stands, rfl⟩ := List.mem_map.mp among
    exact held node stands entry present

/-! ### Settled records -/

/-- A record needs no more changes: whatever identifiers are drawn, reading it takes no fallback but
for unknown functions, or for a signature that neither the record nor the host has, and what is read
has this record again. -/
structure Settled (codec : Codec) (variant : Variant) (r : Record) : Prop where
  warnings : ∀ supply, ∀ warning ∈ ((codec.decode r).run supply).1.warnings,
    (∃ nodeIndex functionId, warning = .unknownFunction nodeIndex functionId) ∨
      warning = .missingSignature ∧ r.variant = .hostSignature ∧ codec.signature? = none
  encode : ∀ supply, codec.encode ((codec.decode r).run supply).1.function variant = .ok r

/-- A record that leaves the signature to the host does not depend on it. -/
theorem encode_host_eq (composite : f.graph? = some g) (inputs outputs : List Parameter)
    {h : Graph Function}
    (kept : h.inputPosition = g.inputPosition ∧ h.outputPosition = g.outputPosition ∧
      h.nodes = g.nodes ∧ h.outputValues = g.outputValues ∧ h.links = g.links) :
    codec.encode ⟨f.id, f.name, f.description, inputs, outputs, .composite h, false, f.width⟩
      .hostSignature = codec.encode f .hostSignature := by
  obtain ⟨inputPosition, outputPosition, nodes, outputValues, links⟩ := kept
  unfold encode
  rw [composite, Function.graph?]
  dsimp only
  rw [inputPosition, outputPosition, nodes, outputValues, links]

/-- **The record of a composite with distinct identifiers is settled**, if it does not have to name
types that are not registered. -/
theorem settled_of_encode (lawful : codec.registry.Lawful) (composite : f.graph? = some g)
    (distinct : g.DistinctIds) (encoded : codec.encode f variant = .ok r)
    (typed : variant = .withSignature →
      ∀ p ∈ f.dataInputs ++ f.dataOutputs, codec.registry.contains p.type = true) :
    codec.Settled variant r := by
  cases variant with
  | withSignature =>
    have restores := restores_of_encode lawful composite distinct encoded (typed rfl)
    refine ⟨fun supply warning member => ?_, fun supply => ?_⟩
    · exact Or.inl ((restores supply).harmless warning member)
    · exact ((restores supply).encode_eq composite).trans encoded
  | hostSignature =>
    have holds := holds_of_encode composite encoded
    have hosted := variant_of_columns holds.inputs holds.outputs
    have signatures : codec.decodeSignature r = _ := decodeSignature_of_host hosted
    refine ⟨fun supply warning member => ?_, fun supply => ?_⟩
    all_goals obtain ⟨h, warnings, harmless, decoded, kept⟩ :=
      decode_of_holds lawful holds distinct signatures supply
    · rw [decoded] at member
      rcases List.mem_append.mp member with first | later
      · split at first
        · next missing =>
          exact Or.inr ⟨List.mem_singleton.mp first, hosted, Option.isNone_iff_eq_none.mp missing⟩
        · cases first
      · exact Or.inl (harmless warning later)
    · rw [decoded, encode_host_eq composite _ _ kept, encoded]

/-- **Any record is settled once it was read and written.** Its columns may be ragged, identifiers
and slots may repeat or be reserved, tags may be unknown, payloads malformed and wires out of range:
what is read can be written, and the record that is written is settled. Only if the host supplies
the signature, and it is to be written, do its types have to be registered. -/
theorem decode_settles (built : codec.registry.Built) (r : Record) (variant : Variant)
    (supply : IdSupply)
    (clear : supply.Clear (columnLength r.inputs + columnLength r.outputs + nodeCount r)
      (r.nodeIds.map NodeId.mk)) :
    ∃ written, codec.encode ((codec.decode r).run supply).1.function variant = .ok written ∧
      ((r.variant = .hostSignature → variant = .withSignature → codec.HostTyped) →
        codec.Settled variant written) := by
  obtain ⟨g, composite, distinct, registered, typed⟩ := decode_sound built clear
  obtain ⟨written, encoded⟩ := encode_succeeds composite registered variant
  refine ⟨written, encoded, fun hosts => ?_⟩
  exact settled_of_encode built.lawful composite distinct encoded fun signed =>
    typed fun hosted => hosts hosted signed

/-- A record with columns of different lengths, a repeated and a reserved identifier, a repeated
slot, an unknown tag, a malformed payload, a wire out of range and a parameter of an unknown
type. -/
def raggedRecord : Record where
  nodeIds := [.ofNat 2, .ofNat 2, NodeId.output.uuid]
  nodePositions := [⟨1.0, 2.0⟩]
  nodeFunctions := ["not", "not", "not", "nobody"]
  nodeValueKeys := [[1, 1, 0], [0, 1]]
  nodeValueValues := [[⟨.boolean, .bool true⟩, ⟨⟨"colour"⟩, .null⟩, ⟨.number, .str "one"⟩],
    [⟨.controlFlow, .str "signal"⟩]]
  wires := [[0, 1, 1, 1], [4, 1], [1, 1, 9, 1]]
  inputs := { names := some ["Flag", "Colour"], types := some [.boolean, ⟨"colour"⟩] }

theorem ragged_settles :
    IdSupply.counting.Clear 6 (raggedRecord.nodeIds.map NodeId.mk) ∧
      ((twinsCodec.decode raggedRecord).run .counting).1.warnings =
        [.unknownParameterType "Colour" ⟨"colour"⟩, .unknownValueType ⟨"colour"⟩,
          .malformedValue .number, .duplicateNodeId 2 (.ofNat 2),
          .duplicateNodeId 3 NodeId.output.uuid, .unknownFunction 4 "nobody",
          .wireOutOfRange [1, 1, 9, 1]] ∧
      ∃ written,
        twinsCodec.encode ((twinsCodec.decode raggedRecord).run .counting).1.function
          .withSignature = .ok written ∧ twinsCodec.Settled .withSignature written := by
  have clear : IdSupply.counting.Clear 6 (raggedRecord.nodeIds.map NodeId.mk) :=
    ⟨by decide +kernel, by decide +kernel, by decide +kernel⟩
  have built : twinsCodec.registry.Built := Registry.built_builtins
  have carries : raggedRecord.variant ≠ .hostSignature := by decide +kernel
  obtain ⟨written, encoded, settled⟩ :=
    decode_settles built raggedRecord .withSignature .counting clear
  exact ⟨clear, by decide +kernel, written, encoded, settled fun hosted => absurd hosted carries⟩

/-- A codec whose host supplies a signature with a type that is not registered. -/
def colourCodec : Codec :=
  ⟨.builtins, [], some ⟨[⟨.ofNat 5, "Colour", ⟨"colour"⟩⟩], []⟩⟩

/-- **A host's signature is taken as it is**, so a record that names its types need not be settled:
reading it takes one more fallback, and what is read has another record. -/
theorem colour_not_settled : colourCodec.registry.Built ∧ IdSupply.counting.Clear 0 [] ∧
    ∃ written,
      colourCodec.encode ((colourCodec.decode {}).run .counting).1.function .withSignature =
        .ok written ∧
      ((colourCodec.decode written).run .counting).1.warnings =
        [.unknownParameterType "Colour" ⟨"colour"⟩] ∧
      colourCodec.encode ((colourCodec.decode written).run .counting).1.function .withSignature ≠
        .ok written := by
  have unsettled : (colourCodec.encode ((colourCodec.decode {}).run .counting).1.function
      .withSignature).map (fun written =>
        (((colourCodec.decode written).run .counting).1.warnings,
          decide (colourCodec.encode ((colourCodec.decode written).run .counting).1.function
            .withSignature = .ok written))) =
      .ok ([.unknownParameterType "Colour" ⟨"colour"⟩], false) := by
    decide +kernel
  refine ⟨Registry.built_builtins, ⟨.nil, nofun, nofun⟩, ?_⟩
  cases encoded : colourCodec.encode ((colourCodec.decode {}).run .counting).1.function
      .withSignature with
  | error error =>
    rw [encoded] at unsettled
    cases unsettled
  | ok written =>
    rw [encoded] at unsettled
    obtain ⟨warnings, differs⟩ := Prod.mk.inj (Except.ok.inj unsettled)
    exact ⟨written, rfl, warnings, of_decide_eq_false differs⟩

end Codec

end FlowGraph
