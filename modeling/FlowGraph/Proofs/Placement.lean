/-
**Nodes and wires keep their places.**

A record counts its nodes and names the ends of its wires by place, while a graph stores wires by
the identifiers of their nodes. Whatever identifiers a record brings, each node gets one of its own:
a recorded one that is reserved or stands at an earlier place already is replaced, and this is
reported. So the wires of the graph by index are the recorded ones, less those that lead to nodes
which do not exist, and each of these is reported too.

* `Codec.keepsId`, `Codec.renamings`: which identifiers are kept, and the report on the others;
* `Codec.decodeNodeId_at`: what becomes of the identifier at a place;
* `Codec.decodeNodesFrom_at`, `Codec.decodeNodes_at`: **the identifiers of all nodes**, with the
  report on them;
* `Codec.decode_places`: **the nodes and wires of any record, and all reports on their places.**
-/

import FlowGraph.Proofs.Normalisation

namespace FlowGraph

/-- The warning is about the place of something: a node gets another identifier, or a wire is left
out. -/
def Warning.isPlacing : Warning → Bool
  | .duplicateNodeId .. | .wireOutOfRange _ => true
  | _ => false

namespace Codec

variable {codec : Codec} {r : Record} {place : Nat} {seen : List NodeId}

/-! ### Identifiers by place -/

/-- Whether the node at a place keeps an identifier that is recorded for it: the identifier is not
reserved and does not stand at an earlier place. -/
def keepsId (r : Record) (place : Nat) (id : Uuid) : Bool :=
  !NodeId.isBoundary ⟨id⟩ && !(r.nodeIds.take place).contains id

/-- What is reported of the identifier at a place: it is replaced, if it is there and not kept. -/
def renaming? (r : Record) (place : Nat) : Option Warning :=
  (r.nodeIds[place]?).bind fun id =>
    if keepsId r place id then none else some (.duplicateNodeId (place + 1) id)

/-- What is reported of all identifiers. -/
def renamings (r : Record) : List Warning :=
  (List.range (nodeCount r)).filterMap (renaming? r)

/-- Of the recorded identifiers that are not reserved, those were seen that stand in front of a
place. -/
def SeenBefore (r : Record) (place : Nat) (seen : List NodeId) : Prop :=
  ∀ id ∈ r.nodeIds, NodeId.isBoundary ⟨id⟩ = false →
    (⟨id⟩ ∈ seen ↔ id ∈ r.nodeIds.take place)

/-- Where exactly the earlier identifiers were seen, a node keeps what is neither reserved nor
seen. -/
theorem SeenBefore.keepsId_iff (before : SeenBefore r place seen) {id : NodeId}
    (recorded : id.uuid ∈ r.nodeIds) :
    keepsId r place id.uuid = true ↔ id.isBoundary = false ∧ id ∉ seen := by
  unfold keepsId
  rw [Bool.and_eq_true, Bool.not_eq_true', Bool.not_eq_true']
  refine and_congr_right fun inner => ?_
  rw [← Bool.not_eq_true, List.contains_iff_mem, ← before id.uuid recorded inner]

/-- **What becomes of the identifier at a place.** It is kept, or one is drawn in its place and this
is reported; one is drawn also where none is recorded. -/
theorem decodeNodeId_at (before : SeenBefore r place seen) (supply : IdSupply) :
    (∃ id, r.nodeIds[place]? = some id ∧ keepsId r place id = true ∧
      decodeNodeId r place seen supply = ((⟨id⟩, (renaming? r place).toList), supply)) ∨
    (∀ id, r.nodeIds[place]? = some id → keepsId r place id = false) ∧
      decodeNodeId r place seen supply =
        ((⟨supply.draw supply.next⟩, (renaming? r place).toList),
          { supply with next := supply.next + 1 }) := by
  unfold renaming?
  rcases decodeNodeId_cases r place seen supply with
    ⟨id, found, inner, unseen, named⟩ | ⟨given, named⟩
  · have kept := (before.keepsId_iff (List.mem_of_getElem? found)).mpr ⟨inner, unseen⟩
    refine Or.inl ⟨id.uuid, found, kept, ?_⟩
    rw [named, found, Option.bind_some, if_pos kept]
    rfl
  · have replaced : ∀ id, r.nodeIds[place]? = some id → keepsId r place id = false := by
      intro id found
      refine eq_false_of_ne_true fun kept => ?_
      obtain ⟨inner, unseen⟩ :=
        (before.keepsId_iff (show NodeId.uuid ⟨id⟩ ∈ _ from List.mem_of_getElem? found)).mp kept
      rcases given ⟨id⟩ found with reserved | earlier
      · rw [inner] at reserved
        cases reserved
      · exact unseen earlier
    refine Or.inr ⟨replaced, ?_⟩
    rw [named]
    cases found : r.nodeIds[place]? with
    | none => rfl
    | some id =>
      rw [Option.bind_some, replaced id found]
      rfl

/-- What was seen before a place is known at the next place too, whether the node keeps its
identifier or gets a new one. -/
theorem SeenBefore.next (before : SeenBefore r place seen) {id : NodeId}
    (named : r.nodeIds[place]? = some id.uuid ∨ id.uuid ∉ r.nodeIds ∧
      ∀ other, r.nodeIds[place]? = some other → keepsId r place other = false) :
    SeenBefore r (place + 1) (remember r place seen id) := by
  intro other listed inner
  unfold remember
  rw [List.take_add_one, List.mem_append]
  cases found : r.nodeIds[place]? with
  | none => simpa using before other listed inner
  | some recorded =>
    rw [found] at named
    simp only [Option.isSome_some, if_true, List.mem_cons, Option.toList_some,
      List.not_mem_nil, or_false, before other listed inner]
    rcases named with kept | ⟨fresh, replaced⟩
    · rw [Option.some_injective _ kept, or_comm]
      exact or_congr Iff.rfl ⟨fun same => congrArg NodeId.uuid same, congrArg NodeId.mk⟩
    · have differ : (⟨other⟩ : NodeId) ≠ id := by
        rintro rfl
        exact fresh listed
      constructor
      · exact fun either => Or.inl (either.resolve_left differ)
      · rintro (earlier | rfl)
        · exact Or.inr earlier
        · -- The identifier is not reserved, so it was replaced because it stands in front.
          have gone := replaced _ rfl
          unfold keepsId at gone
          rw [inner] at gone
          exact Or.inr (by simpa using gone)

/-! ### Nodes -/

/-- What is reported of values: their tags are unknown, or their payloads are malformed. -/
theorem warning_of_decodeSlots {keys : List Nat} {values : List EncodedValue} {warning : Warning}
    (member : warning ∈ (codec.decodeSlots keys values).2) :
    ∃ tag, warning = .unknownValueType tag ∨ warning = .malformedValue tag := by
  obtain ⟨entry, listed, told⟩ := List.mem_flatMap.mp member
  obtain ⟨⟨slot, encoded⟩, _, rfl⟩ := List.mem_map.mp listed
  unfold decodeValue at told
  dsimp only at told
  split at told
  · exact ⟨_, Or.inl (List.mem_singleton.mp told)⟩
  · split at told
    · cases told
    · exact ⟨_, Or.inr (List.mem_singleton.mp told)⟩

theorem isPlacing_decodeSlots (codec : Codec) (keys : List Nat) (values : List EncodedValue) :
    ∀ warning ∈ (codec.decodeSlots keys values).2, warning.isPlacing = false := by
  intro warning member
  obtain ⟨tag, rfl | rfl⟩ := warning_of_decodeSlots member <;> rfl

theorem filter_isPlacing_eq_nil {warnings : List Warning}
    (others : ∀ warning ∈ warnings, warning.isPlacing = false) :
    warnings.filter Warning.isPlacing = [] :=
  List.filter_eq_nil_iff.mpr fun warning member => ne_true_of_eq_false (others warning member)

/-- Of what is reported of a node, the part about places is that about its identifier. -/
theorem filter_nodeWarnings (codec : Codec) (r : Record) (place : Nat) :
    (codec.nodeWarnings r place (renaming? r place).toList).filter Warning.isPlacing =
      (renaming? r place).toList := by
  unfold nodeWarnings
  rw [List.filter_append, List.filter_append,
    filter_isPlacing_eq_nil (codec.isPlacing_decodeSlots _ _), List.append_nil]
  have unknown : ∀ (missing : Bool) functionId, (if missing = true then
      [Warning.unknownFunction (place + 1) functionId] else []).filter Warning.isPlacing = [] := by
    intro missing functionId
    cases missing <;> rfl
  rw [unknown, List.nil_append, List.filter_eq_self]
  intro warning member
  obtain ⟨id, _, told⟩ := Option.bind_eq_some_iff.mp (Option.mem_toList.mp member)
  split at told
  · cases told
  · cases told
    rfl

/-- **The identifiers of the nodes of any record**, given that those drawn for them are new: a node
has its recorded identifier exactly if this is kept, and the others are reported in order. -/
theorem decodeNodesFrom_at (codec : Codec) (r : Record) (count : Nat) :
    ∀ (place : Nat) (seen taken : List NodeId) (supply : IdSupply), SeenBefore r place seen →
      supply.Clear count taken → (∀ id ∈ r.nodeIds, ⟨id⟩ ∈ taken) →
        ∃ nodes warnings later,
          codec.decodeNodesFrom r (List.range' place count) seen supply =
            ((nodes, warnings), later) ∧
          (∀ offset node, nodes[offset]? = some node →
            (r.nodeIds[place + offset]? = some node.id.uuid ↔
              ∃ id, r.nodeIds[place + offset]? = some id ∧
                keepsId r (place + offset) id = true)) ∧
          warnings.filter Warning.isPlacing =
            (List.range' place count).filterMap (renaming? r) := by
  induction count with
  | zero =>
    intro place seen taken supply _ _ _
    exact ⟨[], [], supply, rfl, fun _ _ present => (nomatch present), rfl⟩
  | succ count ih =>
    intro place seen taken supply before clear recorded
    rw [List.range'_succ]
    have report : ∀ {others : List Warning},
        others.filter Warning.isPlacing = (List.range' (place + 1) count).filterMap (renaming? r) →
        (codec.nodeWarnings r place (renaming? r place).toList ++ others).filter Warning.isPlacing =
          (place :: List.range' (place + 1) count).filterMap (renaming? r) := by
      intro others later
      rw [List.filter_append, filter_nodeWarnings, later, List.filterMap_cons]
      cases renaming? r place <;> rfl
    -- The places of the other nodes, seen from the next place and from this one.
    have shift : ∀ {id : NodeId} {nodes : List Node},
        (r.nodeIds[place]? = some id.uuid ↔
          ∃ id, r.nodeIds[place]? = some id ∧ keepsId r place id = true) →
        (∀ offset node, nodes[offset]? = some node →
          (r.nodeIds[place + 1 + offset]? = some node.id.uuid ↔
            ∃ id, r.nodeIds[place + 1 + offset]? = some id ∧
              keepsId r (place + 1 + offset) id = true)) →
        ∀ offset node, (codec.nodeAt r place id :: nodes)[offset]? = some node →
          (r.nodeIds[place + offset]? = some node.id.uuid ↔
            ∃ id, r.nodeIds[place + offset]? = some id ∧
              keepsId r (place + offset) id = true) := by
      intro id nodes first others offset node present
      cases offset with
      | zero =>
        cases present
        exact first
      | succ offset =>
        have later := others offset node present
        rw [Nat.add_right_comm] at later
        exact later
    rcases decodeNodeId_at before supply with ⟨id, found, kept, named⟩ | ⟨replaced, named⟩
    · obtain ⟨nodes, warnings, later, rest, ids, reported⟩ :=
        ih (place + 1) _ taken supply (before.next (Or.inl found)) clear.fewer recorded
      exact ⟨_, _, later, decodeNodesFrom_cons named rest,
        shift (iff_of_true found ⟨id, found, kept⟩) ids, report reported⟩
    · obtain ⟨_, untaken, still⟩ := clear.drawn
      generalize (⟨supply.draw supply.next⟩ : NodeId) = fresh at untaken still named
      have unlisted : fresh.uuid ∉ r.nodeIds := fun listed => untaken (recorded _ listed)
      obtain ⟨nodes, warnings, later, rest, ids, reported⟩ :=
        ih (place + 1) _ (fresh :: taken) _ (before.next (Or.inr ⟨unlisted, replaced⟩)) still
          fun id listed => List.mem_cons_of_mem _ (recorded id listed)
      refine ⟨_, _, later, decodeNodesFrom_cons named rest, shift (iff_of_false ?_ ?_) ids,
        report reported⟩
      · exact fun found => unlisted (List.mem_of_getElem? found)
      · rintro ⟨id, found, kept⟩
        rw [replaced id found] at kept
        cases kept

/-- **The nodes of any record**: there are as many as the longest column has entries, with distinct
identifiers, and those that are not kept are reported. -/
theorem decodeNodes_at (codec : Codec) {supply : IdSupply}
    (clear : supply.Clear (nodeCount r) (r.nodeIds.map NodeId.mk)) :
    ∃ nodes warnings later, codec.decodeNodes r supply = ((nodes, warnings), later) ∧
      nodes.length = nodeCount r ∧ (nodes.map Node.id).Nodup ∧
      (∀ node ∈ nodes, node.id.isBoundary = false) ∧
      (∀ place node, nodes[place]? = some node →
        (r.nodeIds[place]? = some node.id.uuid ↔
          ∃ id, r.nodeIds[place]? = some id ∧ keepsId r place id = true)) ∧
      warnings.filter Warning.isPlacing = renamings r := by
  have recorded : ∀ id ∈ r.nodeIds, ⟨id⟩ ∈ r.nodeIds.map NodeId.mk := fun id listed =>
    List.mem_map_of_mem listed
  obtain ⟨nodes, warnings, later, rows, kept, renamed⟩ := codec.decodeNodesFrom_at r (nodeCount r) 0
    [] (r.nodeIds.map NodeId.mk) supply (by simp [SeenBefore]) clear recorded
  rw [← List.range_eq_range'] at rows renamed
  rw [← List.length_range (n := nodeCount r)] at clear
  obtain ⟨ids, _, _, again, length, assigned⟩ := codec.decodeNodesFrom_ids r
    (List.range (nodeCount r)) [] (r.nodeIds.map NodeId.mk) supply clear (List.nil_subset _)
    recorded
  cases rows.symm.trans again
  have names := map_id_nodeAt codec r length
  refine ⟨_, warnings, later, rows, ?_, names.symm ▸ assigned.nodup, fun node member => ?_,
    fun place node present => ?_, renamed⟩
  · rw [← List.length_map (f := Node.id), names, length, List.length_range]
  · exact assigned.inner node.id (names ▸ List.mem_map_of_mem member)
  · have here := kept place node present
    rw [Nat.zero_add] at here
    exact here

/-! ### Records -/

/-- The four numbers of a wire: missing ones are zero and surplus ones are left out. -/
theorem wireRow_rowLink (row : List Nat) : wireRow (rowLink row) = row.takeD 4 0 := by
  rcases row with _ | ⟨a, _ | ⟨b, _ | ⟨c, _ | ⟨d, rest⟩⟩⟩⟩ <;> rfl

/-- **The nodes and wires of any record.** There are as many nodes as the longest column has
entries, with distinct identifiers, none of them reserved; a node has its recorded identifier
exactly if this is kept. The wires by index are the recorded ones whose nodes exist, in order. The
reports about places are those of the identifiers that are replaced, and then those of the wires
that are left out, in order. The identifiers that are drawn have to be new. -/
theorem decode_places (codec : Codec) (r : Record) (supply : IdSupply)
    (clear : supply.Clear (columnLength r.inputs + columnLength r.outputs + nodeCount r)
      (r.nodeIds.map NodeId.mk)) :
    let decoded := ((codec.decode r).run supply).1
    ∃ g, decoded.function.graph? = some g ∧
      g.nodes.length = nodeCount r ∧ g.DistinctIds ∧
      (∀ place node, g.nodes[place]? = some node →
        (r.nodeIds[place]? = some node.id.uuid ↔
          ∃ id, r.nodeIds[place]? = some id ∧ keepsId r place id = true)) ∧
      g.links.map wireRow =
        (r.wires.filter (rowFits (nodeCount r))).map (fun row => row.takeD 4 0) ∧
      decoded.warnings.filter Warning.isPlacing = renamings r ++
        (r.wires.filter fun row => !rowFits (nodeCount r) row).map .wireOutOfRange := by
  obtain ⟨⟨signature, first⟩, drawn, signatures, few, _, signed⟩ :=
    codec.decodeSignature_ensures r supply
  obtain ⟨nodes, second, middle, rows, count, nodup, inner, kept, renamed⟩ :=
    codec.decodeNodes_at (clear.advance (Nat.add_le_add_right few _))
  let unwired : Graph Function := ⟨nodes, [], codec.roster, r.inputPosition, r.outputPosition,
    (codec.decodeSlots r.outputValueKeys r.outputValueValues).1⟩
  have distinct : unwired.DistinctIds := ⟨nodup, inner⟩
  obtain ⟨wires, later, wired, links⟩ := decodeWires_rows r.wires unwired middle distinct
  rw [show unwired.nodes.length = nodeCount r from count] at wired links
  have output : codec.decodeSlots r.outputValueKeys r.outputValueValues =
      (unwired.outputValues, (codec.decodeSlots r.outputValueKeys r.outputValueValues).2) := rfl
  intro decoded
  have read : decoded = _ := decode_of_parts signatures rows output wired
  rw [read]
  refine ⟨_, rfl, count, ⟨nodup, inner⟩, kept, ?_, ?_⟩
  · show (wires.filterMap unwired.link?).map wireRow = _
    rw [links, List.map_map]
    exact List.map_congr_left fun row _ => wireRow_rowLink row
  · have signs : first.filter Warning.isPlacing = [] := by
      refine filter_isPlacing_eq_nil fun warning member => ?_
      rcases signed warning member with ⟨_, _, rfl⟩ | rfl <;> rfl
    have drops : ∀ rows : List (List Nat), (rows.map Warning.wireOutOfRange).filter
        Warning.isPlacing = rows.map .wireOutOfRange := by
      intro rows
      refine List.filter_eq_self.mpr fun warning member => ?_
      obtain ⟨row, _, rfl⟩ := List.mem_map.mp member
      rfl
    rw [List.filter_append, List.filter_append, List.filter_append, signs, renamed,
      filter_isPlacing_eq_nil (codec.isPlacing_decodeSlots _ _), drops, List.nil_append,
      List.append_nil]

theorem ragged_places :
    IdSupply.counting.Clear 6 (raggedRecord.nodeIds.map NodeId.mk) ∧
      renamings raggedRecord =
        [.duplicateNodeId 2 (.ofNat 2), .duplicateNodeId 3 NodeId.output.uuid] ∧
      ∃ g, ((twinsCodec.decode raggedRecord).run .counting).1.function.graph? = some g ∧
        g.nodes.length = 4 ∧ g.DistinctIds ∧
          g.links.map wireRow = [[0, 1, 1, 1], [4, 1, 0, 0]] := by
  have clear : IdSupply.counting.Clear 6 (raggedRecord.nodeIds.map NodeId.mk) :=
    ⟨by decide +kernel, by decide +kernel, by decide +kernel⟩
  obtain ⟨g, composite, count, distinct, _, links, _⟩ :=
    decode_places twinsCodec raggedRecord .counting clear
  exact ⟨clear, by decide +kernel, g, composite, count, distinct, links⟩

end Codec

end FlowGraph
