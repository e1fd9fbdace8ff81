/-
**Persisting keeps behaviour.**

A record keeps all that a run depends on. When it is read, repeated and reserved identifiers of
nodes are replaced by new ones and parameters of unknown types fall back to control flow. Nodes keep
their places, though, and outputs their number; so the wires by index stay, and with them all runs.

* `IdSupply.Clear`: the identifiers that are drawn next are new;
* `Codec.decodeNodesFrom_ids`: the nodes of any record get distinct identifiers, none of them
  reserved;
* `Codec.renamed_of_encode`: what is read differs from what was written in names only;
* `Codec.run_decode`: **what is read runs as what was written.**
-/

import FlowGraph.Proofs.Renaming
import FlowGraph.Proofs.RoundTrip

namespace FlowGraph

/-! ### New identifiers -/

namespace IdSupply

/-- The identifiers that nodes get next. -/
def ahead (supply : IdSupply) (count : Nat) : List NodeId :=
  (List.range' supply.next count).map fun place => ⟨supply.draw place⟩

/-- The next identifiers differ from each other, from the reserved ones and from those taken. -/
structure Clear (supply : IdSupply) (count : Nat) (taken : List NodeId) : Prop where
  nodup : (supply.ahead count).Nodup
  inner : ∀ id ∈ supply.ahead count, id.isBoundary = false
  untaken : ∀ id ∈ supply.ahead count, id ∉ taken

variable {supply : IdSupply} {count : Nat} {taken : List NodeId}

theorem ahead_succ (supply : IdSupply) (count : Nat) :
    supply.ahead (count + 1) = ⟨supply.draw supply.next⟩ ::
      ({ supply with next := supply.next + 1 } : IdSupply).ahead count := rfl

theorem Clear.drawn (clear : supply.Clear (count + 1) taken) :
    NodeId.isBoundary ⟨supply.draw supply.next⟩ = false ∧
      ⟨supply.draw supply.next⟩ ∉ taken ∧
      ({ supply with next := supply.next + 1 } : IdSupply).Clear count
        (⟨supply.draw supply.next⟩ :: taken) := by
  obtain ⟨nodup, inner, untaken⟩ := clear
  rw [ahead_succ] at nodup inner untaken
  obtain ⟨once, nodup⟩ := List.nodup_cons.mp nodup
  refine ⟨inner _ List.mem_cons_self, untaken _ List.mem_cons_self, nodup,
    fun id member => inner id (List.mem_cons_of_mem _ member), fun id member listed => ?_⟩
  rcases List.mem_cons.mp listed with rfl | earlier
  · exact once member
  · exact untaken id (List.mem_cons_of_mem _ member) earlier

/-- Some of the next identifiers are as new as all of them. -/
theorem Clear.of_sublist {other : IdSupply} {few : Nat} (clear : supply.Clear count taken)
    (shorter : (other.ahead few).Sublist (supply.ahead count)) : other.Clear few taken :=
  ⟨clear.nodup.sublist shorter, fun id member => clear.inner id (shorter.subset member),
    fun id member => clear.untaken id (shorter.subset member)⟩

theorem Clear.fewer (clear : supply.Clear (count + 1) taken) : supply.Clear count taken :=
  clear.of_sublist ((List.range'_sublist_right.mpr (Nat.le_succ count)).map _)

end IdSupply

namespace Codec

variable {codec : Codec} {r : Record}

/-! ### Identifiers of decoded nodes -/

/-- Identifiers for a row of nodes: they are distinct, not reserved and not seen before, and each is
a recorded one or new. -/
structure Assigned (r : Record) (seen taken ids : List NodeId) : Prop where
  nodup : ids.Nodup
  inner : ∀ id ∈ ids, id.isBoundary = false
  unseen : ∀ id ∈ ids, id ∉ seen
  source : ∀ id ∈ ids, id.uuid ∈ r.nodeIds ∨ id ∉ taken

namespace Assigned

variable {seen later taken ids : List NodeId} {id : NodeId}

/-- A recorded identifier is kept; it is seen from now on. -/
theorem keep (rest : Assigned r (id :: seen) taken ids) (recorded : id.uuid ∈ r.nodeIds)
    (inner : id.isBoundary = false) (unseen : id ∉ seen) : Assigned r seen taken (id :: ids) where
  nodup := List.nodup_cons.mpr ⟨fun again => rest.unseen id again List.mem_cons_self, rest.nodup⟩
  inner := List.forall_mem_cons.mpr ⟨inner, rest.inner⟩
  unseen := List.forall_mem_cons.mpr ⟨unseen, fun other member earlier =>
    rest.unseen other member (List.mem_cons_of_mem _ earlier)⟩
  source := List.forall_mem_cons.mpr ⟨Or.inl recorded, rest.source⟩

/-- A new identifier is drawn; it is taken from now on. -/
theorem draw (rest : Assigned r later (id :: taken) ids) (inner : id.isBoundary = false)
    (untaken : id ∉ taken) (recorded : ∀ uuid ∈ r.nodeIds, ⟨uuid⟩ ∈ taken) (known : seen ⊆ taken)
    (grows : seen ⊆ later) : Assigned r seen taken (id :: ids) where
  nodup := by
    refine List.nodup_cons.mpr ⟨fun again => ?_, rest.nodup⟩
    rcases rest.source id again with old | new
    · exact untaken (recorded _ old)
    · exact new List.mem_cons_self
  inner := List.forall_mem_cons.mpr ⟨inner, rest.inner⟩
  unseen := List.forall_mem_cons.mpr ⟨fun earlier => untaken (known earlier),
    fun other member earlier => rest.unseen other member (grows earlier)⟩
  source := List.forall_mem_cons.mpr ⟨Or.inr untaken, fun other member =>
    (rest.source other member).imp_right fun new old => new (List.mem_cons_of_mem _ old)⟩

end Assigned

/-- A node keeps its recorded identifier, or one is drawn for it; a recorded one is given up if it
is reserved or was seen, and this is reported. -/
theorem decodeNodeId_cases (r : Record) (place : Nat) (seen : List NodeId) (supply : IdSupply) :
    (∃ id : NodeId, r.nodeIds[place]? = some id.uuid ∧ id.isBoundary = false ∧ id ∉ seen ∧
      decodeNodeId r place seen supply = ((id, []), supply)) ∨
    (∀ id : NodeId, r.nodeIds[place]? = some id.uuid → id.isBoundary = true ∨ id ∈ seen) ∧
      decodeNodeId r place seen supply =
        ((⟨supply.draw supply.next⟩, r.nodeIds[place]?.toList.map (.duplicateNodeId (place + 1))),
          { supply with next := supply.next + 1 }) := by
  unfold decodeNodeId
  cases r.nodeIds[place]? with
  | none => exact Or.inr ⟨fun _ recorded => (nomatch recorded), rfl⟩
  | some uuid =>
    dsimp only
    split
    · next given =>
      refine Or.inr ⟨fun id recorded => ?_, rfl⟩
      cases recorded
      simpa using given
    · next kept =>
      rw [Bool.or_eq_true, not_or, Bool.not_eq_true] at kept
      exact Or.inl ⟨⟨uuid⟩, rfl, kept.1, by simpa using kept.2, rfl⟩

/-- What is reported of the node at a place, given what is reported of its identifier. -/
def nodeWarnings (codec : Codec) (r : Record) (place : Nat) (replaced : List Warning) :
    List Warning :=
  (if (Function.find? codec.roster (r.nodeFunctions[place]?.getD "")).isNone then
    [.unknownFunction (place + 1) (r.nodeFunctions[place]?.getD "")] else []) ++ replaced ++
  (codec.decodeSlots (r.nodeValueKeys[place]?.getD []) (r.nodeValueValues[place]?.getD [])).2

theorem decodeNodesFrom_cons {place : Nat} {places : List Nat} {seen : List NodeId}
    {supply middle later : IdSupply} {id : NodeId} {nodes : List Node}
    {replaced others : List Warning}
    (named : decodeNodeId r place seen supply = ((id, replaced), middle))
    (rest : codec.decodeNodesFrom r places (remember r place seen id) middle =
      ((nodes, others), later)) :
    codec.decodeNodesFrom r (place :: places) seen supply =
      ((codec.nodeAt r place id :: nodes, codec.nodeWarnings r place replaced ++ others),
        later) := by
  have first : codec.decodeNode r place seen supply =
      ((codec.nodeAt r place id, codec.nodeWarnings r place replaced), middle) := by
    unfold decodeNode
    rw [bind_eq named]
    rfl
  rw [decodeNodesFrom, bind_eq first]
  dsimp only
  rw [show (codec.nodeAt r place id).id = id from rfl, bind_eq rest]
  rfl

/-- **The nodes of any record** get distinct identifiers, none of them reserved, given that those
drawn for them are new. -/
theorem decodeNodesFrom_ids (codec : Codec) (r : Record) (places : List Nat) :
    ∀ (seen taken : List NodeId) (supply : IdSupply), supply.Clear places.length taken →
      seen ⊆ taken → (∀ uuid ∈ r.nodeIds, ⟨uuid⟩ ∈ taken) →
        ∃ ids warnings later, codec.decodeNodesFrom r places seen supply =
          ((List.zipWith (codec.nodeAt r) places ids, warnings), later) ∧
            ids.length = places.length ∧ Assigned r seen taken ids := by
  induction places with
  | nil =>
    intro seen taken supply _ _ _
    exact ⟨[], [], supply, rfl, rfl, .nil, by simp, by simp, by simp⟩
  | cons place places ih =>
    intro seen taken supply clear known recorded
    -- Each place draws at most one identifier, so there are enough of them.
    rcases decodeNodeId_cases r place seen supply with
      ⟨id, present, inner, unseen, named⟩ | ⟨_, named⟩
    · have listed : id.uuid ∈ r.nodeIds := List.mem_of_getElem? present
      obtain ⟨ids, others, later, rest, length, assigned⟩ := ih (id :: seen) taken supply
        clear.fewer (List.cons_subset.mpr ⟨recorded _ listed, known⟩) recorded
      rw [← remember_of_recorded present seen] at rest
      exact ⟨id :: ids, _, later, decodeNodesFrom_cons named rest,
        congrArg Nat.succ length, assigned.keep listed inner unseen⟩
    · obtain ⟨inner, untaken, still⟩ := clear.drawn
      generalize fresh : (⟨supply.draw supply.next⟩ : NodeId) = id at inner untaken still named
      have grows : seen ⊆ remember r place seen id := by
        unfold remember
        split
        · exact List.subset_cons_self id seen
        · exact List.Subset.refl seen
      have listed : remember r place seen id ⊆ id :: taken := by
        unfold remember
        split
        · exact List.cons_subset_cons id known
        · exact List.subset_cons_of_subset id known
      have recorded' : ∀ uuid ∈ r.nodeIds, ⟨uuid⟩ ∈ id :: taken := fun uuid member =>
        List.mem_cons_of_mem _ (recorded uuid member)
      obtain ⟨ids, others, later, rest, length, assigned⟩ :=
        ih (remember r place seen id) (id :: taken) _ still listed recorded'
      exact ⟨id :: ids, _, later, decodeNodesFrom_cons named rest, congrArg Nat.succ length,
        assigned.draw inner untaken recorded known grows⟩

/-- Nodes have the identifiers that they are given. -/
theorem map_id_nodeAt (codec : Codec) (r : Record) {places : List Nat} {ids : List NodeId}
    (length : ids.length = places.length) :
    (List.zipWith (codec.nodeAt r) places ids).map Node.id = ids := by
  refine List.ext_getElem (by simp [length]) fun place _ _ => ?_
  simp [nodeAt]

/-! ### What is read back -/

variable {f : Function} {g : Graph Function} {variant : Variant}

/-- The nodes of a record stand where they stood, under names of their own. -/
theorem decodeNodes_renamed (lawful : codec.registry.Lawful) (holds : codec.Holds f g variant r)
    {supply : IdSupply} (clear : supply.Clear g.nodes.length (g.nodes.map Node.id)) :
    ∃ nodes warnings later, codec.decodeNodes r supply = ((nodes, warnings), later) ∧
      List.Forall₂ Node.Resembles g.nodes nodes ∧ (nodes.map Node.id).Nodup ∧
        ∀ node ∈ nodes, node.id.isBoundary = false := by
  have recorded : ∀ uuid ∈ r.nodeIds, ⟨uuid⟩ ∈ g.nodes.map Node.id := by
    intro uuid member
    rw [holds.nodeIds] at member
    obtain ⟨node, present, rfl⟩ := List.mem_map.mp member
    exact List.mem_map_of_mem present
  have count := nodeCount_of_holds holds
  obtain ⟨ids, warnings, later, decoded, length, assigned⟩ :=
    codec.decodeNodesFrom_ids r (List.range (nodeCount r)) [] (g.nodes.map Node.id) supply
      (by rw [List.length_range, count]; exact clear) (List.nil_subset _) recorded
  rw [List.length_range] at length
  have names := map_id_nodeAt codec r (length.trans List.length_range.symm)
  refine ⟨_, warnings, later, decoded, ?_, names.symm ▸ assigned.nodup, fun node member => ?_⟩
  · refine List.forall₂_iff_get.mpr ⟨by simp [length, count], fun place inside inside' => ?_⟩
    rw [List.get_eq_getElem, List.get_eq_getElem, List.getElem_zipWith, List.getElem_range,
      nodeAt_of_holds lawful holds (List.getElem?_eq_getElem inside)]
    exact ⟨rfl, rfl⟩
  · exact assigned.inner node.id (names ▸ List.mem_map_of_mem member)

/-- **What is read differs from what was written in names only.** -/
theorem renamed_of_encode (lawful : codec.registry.Lawful) (composite : f.graph? = some g)
    (roster : g.roster = codec.roster) (encoded : codec.encode f .withSignature = .ok r)
    {supply : IdSupply} (clear : supply.Clear g.nodes.length (g.nodes.map Node.id)) :
    let h := ((codec.decode r).run supply).1.function
    ∃ k, h.body = .composite k ∧ f.Renamed h g k := by
  have holds := holds_of_encode composite encoded
  obtain ⟨nodes, warnings, middle, rows, resemble, nodup, inner⟩ :=
    decodeNodes_renamed lawful holds clear
  have output := decodeOutput_of_holds lawful holds
  let unwired : Graph Function := ⟨nodes, [], codec.roster, r.inputPosition, r.outputPosition,
    g.outputValues⟩
  have count : unwired.nodeCount = g.nodeCount := by
    unfold Graph.nodeCount
    rw [resemble.length_eq]
  obtain ⟨wires, later, wired, links⟩ := decodeWires_wireRow g.links unwired middle
    ⟨nodup, inner⟩ fun link member => by
      rw [count]
      exact Graph.link_inside member
  rw [← holds.wires] at wired
  intro h
  have signatures : codec.decodeSignature r = _ :=
    decodeSignature_ofParameters holds.inputs holds.outputs
  have decoded : h = _ := congrArg Decoded.function
    (decode_of_parts (congrFun signatures supply) rows output wired)
  rw [decoded]
  exact ⟨_, rfl, holds.id.symm, by simp, roster, resemble, rfl, links.symm⟩

/-- **Persisting keeps behaviour.** A composite that was written and read again gives the same
results, starts the same nodes in the same order and makes the same number of passes; it tells the
same events, up to identifiers of nodes. Identifiers may repeat or be reserved, slots may be fed
several times and types of parameters may be unknown. -/
theorem run_decode (built : codec.registry.Built) (composite : f.graph? = some g)
    (roster : g.roster = codec.roster) (encoded : codec.encode f .withSignature = .ok r)
    (supply : IdSupply) (clear : supply.Clear g.nodes.length (g.nodes.map Node.id))
    (inputs : List Value) :
    let h := ((codec.decode r).run supply).1.function
    (h.run inputs).result = (f.run inputs).result ∧
      Event.steps (h.run inputs).events = Event.steps (f.run inputs).events ∧
      (h.run inputs).events.countP (Event.isPassAt 0) =
        (f.run inputs).events.countP (Event.isPassAt 0) ∧
      Event.passes (h.run inputs).events = Event.passes (f.run inputs).events ∧
      (h.run inputs).events.map Event.unnamed = (f.run inputs).events.map Event.unnamed := by
  intro h
  obtain ⟨k, other, renamed⟩ := renamed_of_encode built.lawful composite roster encoded clear
  have body := Function.body_of_graph? composite
  obtain ⟨result, events⟩ := Function.run_renamed body other renamed inputs
  exact ⟨result.symm, (Event.steps_congr events).symm, (Event.countP_isPassAt_congr events 0).symm,
    (Event.passes_congr events).symm, events.symm⟩

/-- A graph with two nodes of one name and one under a reserved name. -/
def twinsGraph : Graph Function :=
  { Graph.new [⟨"Logic", [.negation]⟩] with
    nodes := [.new ⟨.ofNat 2⟩ "not" ⟨0, 0⟩,
      (Node.new ⟨.ofNat 2⟩ "not" ⟨0, 0⟩).withValue 1 (.boolean true),
      .new .output "not" ⟨0, 0⟩]
    wires := [⟨⟨.ofNat 3⟩, ⟨.input, 1⟩, ⟨⟨.ofNat 2⟩, 1⟩⟩,
      ⟨⟨.ofNat 4⟩, ⟨⟨.ofNat 2⟩, 1⟩, ⟨.output, 1⟩⟩] }

/-- A composite with such a graph and an input of an unknown type. -/
def twins : Function :=
  .composite "twins" "Twins" [Function.flag, ⟨.ofNat 5, "Colour", ⟨"colour"⟩⟩] [Function.flag]
    twinsGraph

/-- A codec that knows the functions of that graph. -/
def twinsCodec : Codec :=
  ⟨.builtins, twinsGraph.roster, none⟩

theorem twins_run_decode : IdSupply.counting.Clear 3 (twinsGraph.nodes.map Node.id) ∧
    ∃ r, twinsCodec.encode twins .withSignature = .ok r ∧
      let h := ((twinsCodec.decode r).run .counting).1.function
      (h.run [.boolean true, .signal]).result = .ok [.boolean false] ∧
        Event.steps (h.run [.boolean true, .signal]).events = [0, 1, 2, 4] := by
  have clear : IdSupply.counting.Clear 3 (twinsGraph.nodes.map Node.id) :=
    ⟨by decide +kernel, by decide +kernel, by decide +kernel⟩
  have succeeds : (twinsCodec.encode twins .withSignature).isOk = true := by decide +kernel
  have result : (twins.run [.boolean true, .signal]).result = .ok [.boolean false] := by
    decide +kernel
  have steps : Event.steps (twins.run [.boolean true, .signal]).events = [0, 1, 2, 4] := by
    decide +kernel
  cases encoded : twinsCodec.encode twins .withSignature with
  | error error =>
    rw [encoded] at succeeds
    cases succeeds
  | ok r =>
    have composite : twins.graph? = some twinsGraph := rfl
    obtain ⟨sameResult, sameSteps, _⟩ := run_decode Registry.built_builtins composite rfl encoded
      .counting clear [.boolean true, .signal]
    exact ⟨clear, r, rfl, sameResult.trans result, sameSteps.trans steps⟩

end Codec

end FlowGraph
