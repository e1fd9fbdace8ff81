/-
**Records keep composites.**

Decoding the record of a composite gives the composite back: its texts, its signature, its nodes
with their values and its wires by index, in order. Identifiers of wires are not recorded, so these
are drawn anew; nothing else is drawn. Every part of a record is read back on its own.

* `Codec.decodeValue_of_encodeValue`, `Codec.decodeSlots_of_encodeSlots`: values;
* `Codec.decodeParameters_ofParameters`, `Codec.decodeSignature_of_columns`: signatures;
* `Codec.decodeNodes_of_holds`: nodes, from the first on;
* `Codec.decodeWires_rows`: wires, one after the other, those left out that lead nowhere;
* `Codec.decode_encode`: **decoding undoes encoding**, and encoding again gives the same record.
-/

import FlowGraph.Proofs.CleanReport
import FlowGraph.Proofs.Payloads
import FlowGraph.Record.Decode

namespace FlowGraph

/-! ### Rows of outcomes and of values -/

theorem forall₂_of_mapM {ε α β : Type} {f : α → Except ε β} {things : List α} {results : List β}
    (mapped : things.mapM f = .ok results) :
    List.Forall₂ (fun thing result => f thing = .ok result) things results := by
  induction things generalizing results with
  | nil =>
    cases mapped
    exact .nil
  | cons thing rest ih =>
    rw [List.mapM_cons] at mapped
    cases first : f thing with
    | error error =>
      rw [first] at mapped
      cases mapped
    | ok result =>
      rw [first] at mapped
      cases later : rest.mapM f with
      | error error =>
        rw [later] at mapped
        cases mapped
      | ok others =>
        rw [later] at mapped
        cases mapped
        exact .cons first (ih later)

theorem mapM_of_forall₂ {ε α β : Type} {f : α → Except ε β} {things : List α} {results : List β}
    (related : List.Forall₂ (fun thing result => f thing = .ok result) things results) :
    things.mapM f = .ok results := by
  induction related with
  | nil => rfl
  | cons first _ ih =>
    rw [List.mapM_cons, first, ih]
    rfl

theorem mapM_eq_pure {m : Type → Type} [Monad m] [LawfulMonad m] {α β : Type} {f : α → m β}
    {g : α → β} {things : List α} (pures : ∀ thing ∈ things, f thing = pure (g thing)) :
    things.mapM f = pure (things.map g) := by
  induction things with
  | nil => rfl
  | cons thing rest ih =>
    rw [List.mapM_cons, pures thing List.mem_cons_self,
      ih fun other member => pures other (List.mem_cons_of_mem _ member)]
    simp

namespace Slots

theorem ext_entries {slots others : Slots} (same : slots.entries = others.entries) :
    slots = others := by
  cases slots
  cases others
  cases same
  rfl

/-- A value for a slot behind all others stands at the end. -/
theorem insertEntry_last {slot : Nat} {value : Value} {entries : List (Nat × Value)}
    (behind : ∀ entry ∈ entries, entry.1 < slot) :
    insertEntry slot value entries = entries ++ [(slot, value)] := by
  induction entries with
  | nil => rfl
  | cons first rest ih =>
    have less := behind first List.mem_cons_self
    rw [insertEntry, if_neg (Nat.lt_asymm less), if_neg (Nat.ne_of_gt less),
      ih fun entry member => behind entry (List.mem_cons_of_mem _ member)]
    rfl

theorem entries_insertAll {before : Slots} {entries : List (Nat × Value)}
    (sorted : (before.entries ++ entries).Pairwise fun a b => a.1 < b.1) :
    (before.insertAll entries).entries = before.entries ++ entries := by
  induction entries generalizing before with
  | nil => exact (List.append_nil _).symm
  | cons entry rest ih =>
    obtain ⟨slot, value⟩ := entry
    have last : (before.insert slot value).entries = before.entries ++ [(slot, value)] :=
      insertEntry_last fun other member =>
        (List.pairwise_append.mp sorted).2.2 other member (slot, value) List.mem_cons_self
    have next : ((before.insert slot value).entries ++ rest).Pairwise fun a b => a.1 < b.1 := by
      rw [last, List.append_assoc]
      exact sorted
    show ((before.insert slot value).insertAll rest).entries = _
    rw [ih next, last, List.append_assoc]
    rfl

/-- Values are rebuilt from their entries. -/
theorem ofList_entries (slots : Slots) : ofList slots.entries = slots := by
  have sorted : (empty.entries ++ slots.entries).Pairwise fun a b => a.1 < b.1 := slots.sorted
  exact ext_entries (entries_insertAll sorted)

end Slots

namespace Codec

variable {codec : Codec}

/-! ### Values -/

theorem decodeValue_of_encodeValue (lawful : codec.registry.Lawful) {value : Value}
    {encoded : EncodedValue} (result : codec.encodeValue value = .ok encoded) :
    codec.decodeValue encoded = (value, []) := by
  unfold encodeValue at result
  split at result
  · next payload found =>
    cases result
    obtain ⟨valueType, registered, payloads⟩ := Option.bind_eq_some_iff.mp found
    unfold decodeValue
    dsimp only
    rw [registered]
    dsimp only
    rw [lawful registered value payload payloads]
  · cases result

theorem decodeSlots_of_encodeSlots (lawful : codec.registry.Lawful) {slots : Slots}
    {encoded : List EncodedValue} (result : codec.encodeSlots slots = .ok encoded) :
    codec.decodeSlots (slotKeys slots) encoded = (slots, []) := by
  have rows : ∀ {entries : List (Nat × Value)} {encoded : List EncodedValue},
      List.Forall₂ (fun entry encoded => codec.encodeValue entry.2 = .ok encoded) entries encoded →
        ((entries.map Prod.fst).zip encoded).map (fun pair => (pair.1, codec.decodeValue pair.2)) =
          entries.map fun entry => (entry.1, (entry.2, [])) := by
    intro entries encoded related
    induction related with
    | nil => rfl
    | cons first _ ih =>
      rw [List.map_cons, List.zip_cons_cons, List.map_cons, List.map_cons, ih,
        decodeValue_of_encodeValue lawful first]
  unfold decodeSlots slotKeys
  dsimp only
  rw [rows (forall₂_of_mapM result), List.map_map, List.flatMap_map]
  have values : slots.entries.map
      ((fun entry : Nat × Value × List Warning => (entry.1, entry.2.1)) ∘
        fun entry => (entry.1, (entry.2, []))) = slots.entries := List.map_id _
  have warnings : (slots.entries.flatMap fun _ => ([] : List Warning)) = [] :=
    List.flatMap_eq_nil_iff.mpr fun _ _ => rfl
  rw [values, Slots.ofList_entries]
  exact congrArg (Prod.mk slots) warnings

/-! ### Parameters -/

/-- What a parameter is read back as: one whose type is not registered falls back to control
flow. -/
def readParameter (codec : Codec) (p : Parameter) : Parameter × List Warning :=
  if codec.registry.contains p.type then (p, [])
  else ({ p with type := .controlFlow }, [.unknownParameterType p.name p.type])

theorem decodeParameter_ofParameters {parameters : List Parameter} {place : Nat} {p : Parameter}
    (found : parameters[place]? = some p) :
    codec.decodeParameter (.ofParameters parameters) place = pure (codec.readParameter p) := by
  unfold decodeParameter ParameterColumns.ofParameters readParameter
  simp only [Option.getD_some, List.getElem?_map, found, Option.map_some, pure_bind]
  split <;> rfl

/-- **A parameter list is read back from its columns**, each parameter on its own. -/
theorem decodeParameters_ofParameters (parameters : List Parameter) :
    codec.decodeParameters (.ofParameters parameters) =
      pure (parameters.map fun p => (codec.readParameter p).1,
        parameters.flatMap fun p => (codec.readParameter p).2) := by
  have length : columnLength (.ofParameters parameters) = parameters.length := by
    simp [columnLength, ParameterColumns.ofParameters]
  let read : Nat → Parameter × List Warning := fun place =>
    codec.readParameter ((parameters[place]?).getD .controlFlow)
  have each : ∀ place ∈ List.range parameters.length,
      codec.decodeParameter (.ofParameters parameters) place = pure (read place) := by
    intro place member
    have found := List.getElem?_eq_getElem (List.mem_range.mp member)
    rw [decodeParameter_ofParameters found]
    simp only [read, found, Option.getD_some]
  have all : (List.range parameters.length).map read = parameters.map codec.readParameter := by
    refine List.ext_getElem? fun place => ?_
    by_cases inside : place < parameters.length
    · simp [read, inside]
    · rw [List.getElem?_eq_none_iff.mpr (by simpa using inside),
        List.getElem?_eq_none_iff.mpr (by simpa using inside)]
  unfold decodeParameters
  rw [length, mapM_eq_pure each, pure_bind, all, List.map_map, List.flatMap_map]
  rfl

/-- Parameters of registered types are read back as they are. -/
theorem readParameters_of_registered {parameters : List Parameter}
    (registered : ∀ p ∈ parameters, codec.registry.contains p.type = true) :
    (parameters.map fun p => (codec.readParameter p).1) = parameters ∧
      (parameters.flatMap fun p => (codec.readParameter p).2) = [] := by
  have kept : ∀ p ∈ parameters, codec.readParameter p = (p, []) := fun p member =>
    if_pos (registered p member)
  constructor
  · exact (List.map_congr_left fun p member => congrArg Prod.fst (kept p member)).trans
      (List.map_id _)
  · exact List.flatMap_eq_nil_iff.mpr fun p member => congrArg Prod.snd (kept p member)

/-- The codec knows the signature of a function: the types are registered that a record with a
signature names, and the host supplies what a record without one lacks. -/
def Knows (codec : Codec) (f : Function) : Variant → Prop
  | .withSignature => ∀ p ∈ f.dataInputs ++ f.dataOutputs, codec.registry.contains p.type = true
  | .hostSignature => codec.signature? = some f.signature

/-- The parameter columns of the records of a function. -/
def signatureColumns (parameters : List Parameter) : Variant → ParameterColumns
  | .withSignature => .ofParameters parameters
  | .hostSignature => {}

/-- The columns of a record tell where its parameter lists are kept. -/
theorem variant_of_columns {inputs outputs : List Parameter} {variant : Variant} {r : Record}
    (first : r.inputs = signatureColumns inputs variant)
    (second : r.outputs = signatureColumns outputs variant) : r.variant = variant := by
  unfold Record.variant
  rw [first, second]
  cases variant <;> rfl

/-- A signature is read back from the columns of its parameters. -/
theorem decodeSignature_ofParameters {inputs outputs : List Parameter} {r : Record}
    (first : r.inputs = .ofParameters inputs) (second : r.outputs = .ofParameters outputs) :
    codec.decodeSignature r = pure
      (⟨inputs.map fun p => (codec.readParameter p).1,
          outputs.map fun p => (codec.readParameter p).1⟩,
        (inputs.flatMap fun p => (codec.readParameter p).2) ++
          outputs.flatMap fun p => (codec.readParameter p).2) := by
  have carries : r.variant = .withSignature := variant_of_columns first second
  unfold decodeSignature
  rw [carries]
  dsimp only
  rw [first, second, decodeParameters_ofParameters, decodeParameters_ofParameters]
  rfl

theorem decodeSignature_of_columns {f : Function} {variant : Variant} {r : Record}
    (knows : codec.Knows f variant) (inputs : r.inputs = signatureColumns f.dataInputs variant)
    (outputs : r.outputs = signatureColumns f.dataOutputs variant) :
    codec.decodeSignature r = pure (f.signature, []) := by
  cases variant with
  | withSignature =>
    obtain ⟨values, warnings⟩ := readParameters_of_registered fun p member =>
      knows p (List.mem_append_left _ member)
    obtain ⟨values', warnings'⟩ := readParameters_of_registered fun p member =>
      knows p (List.mem_append_right _ member)
    rw [decodeSignature_ofParameters inputs outputs, values, values', warnings, warnings']
    rfl
  | hostSignature =>
    have supplied : codec.signature? = some f.signature := knows
    unfold decodeSignature
    rw [variant_of_columns inputs outputs]
    dsimp only
    rw [supplied]

/-! ### Nodes -/

/-- A record holds a composite, column by column. -/
structure Holds (codec : Codec) (f : Function) (g : Graph Function) (variant : Variant)
    (r : Record) : Prop where
  id : r.id = f.id
  name : r.name = f.name
  description : r.description = f.description
  width : r.width = f.width
  inputs : r.inputs = signatureColumns f.dataInputs variant
  outputs : r.outputs = signatureColumns f.dataOutputs variant
  inputPosition : r.inputPosition = g.inputPosition
  outputPosition : r.outputPosition = g.outputPosition
  nodeIds : r.nodeIds = g.nodes.map fun node => node.id.uuid
  nodePositions : r.nodePositions = g.nodes.map Node.position
  nodeFunctions : r.nodeFunctions = g.nodes.map Node.function
  nodeValueKeys : r.nodeValueKeys = g.nodes.map fun node => slotKeys node.values
  nodeValueValues : List.Forall₂ (fun node row => codec.encodeSlots node.values = .ok row) g.nodes
    r.nodeValueValues
  outputValueKeys : r.outputValueKeys = slotKeys g.outputValues
  outputValueValues : codec.encodeSlots g.outputValues = .ok r.outputValueValues
  wires : r.wires = g.links.map wireRow

theorem holds_of_encode {f : Function} {g : Graph Function} {variant : Variant} {r : Record}
    (composite : f.graph? = some g) (encoded : codec.encode f variant = .ok r) :
    codec.Holds f g variant r := by
  unfold encode at encoded
  rw [composite] at encoded
  dsimp only at encoded
  cases nodes : g.nodes.mapM fun node => codec.encodeSlots node.values with
  | error error =>
    rw [nodes] at encoded
    cases encoded
  | ok nodeValues =>
    rw [nodes] at encoded
    cases output : codec.encodeSlots g.outputValues with
    | error error =>
      rw [output] at encoded
      cases encoded
    | ok outputValues =>
      rw [output] at encoded
      cases encoded
      exact ⟨rfl, rfl, rfl, rfl, by cases variant <;> rfl, by cases variant <;> rfl, rfl, rfl, rfl,
        rfl, rfl, rfl, forall₂_of_mapM nodes, rfl, output, rfl⟩

/-- **A record that holds a composite is the record of it.** -/
theorem encode_of_holds {f : Function} {g : Graph Function} {variant : Variant} {r : Record}
    (composite : f.graph? = some g) (holds : codec.Holds f g variant r) :
    codec.encode f variant = .ok r := by
  unfold encode
  rw [composite]
  dsimp only
  rw [mapM_of_forall₂ holds.nodeValueValues, holds.outputValueValues, ← holds.id, ← holds.name,
    ← holds.description, ← holds.width, ← holds.inputPosition, ← holds.outputPosition,
    ← holds.nodeIds, ← holds.nodePositions, ← holds.nodeFunctions, ← holds.nodeValueKeys,
    ← holds.outputValueKeys, ← holds.wires]
  have same : ∀ inputs outputs, inputs = r.inputs → outputs = r.outputs →
      (.ok { r with inputs := inputs, outputs := outputs } : Except CodecError Record) = .ok r := by
    rintro _ _ rfl rfl
    rfl
  refine same _ _ ?_ ?_
  · cases variant <;> exact holds.inputs.symm
  · cases variant <;> exact holds.outputs.symm

/-- Only unknown functions are reported. -/
def Harmless (warnings : List Warning) : Prop :=
  ∀ warning ∈ warnings, ∃ nodeIndex functionId, warning = .unknownFunction nodeIndex functionId

theorem Harmless.append {first second : List Warning} (one : Harmless first)
    (other : Harmless second) : Harmless (first ++ second) := fun warning member =>
  (List.mem_append.mp member).elim (one warning) (other warning)

variable {f : Function} {g : Graph Function} {variant : Variant} {r : Record}

/-- The node at a place of a record under an identifier. -/
def nodeAt (codec : Codec) (r : Record) (place : Nat) (id : NodeId) : Node where
  id := id
  position := r.nodePositions[place]?.getD ⟨0.0, 0.0⟩
  function := r.nodeFunctions[place]?.getD ""
  values := (codec.decodeSlots (r.nodeValueKeys[place]?.getD [])
    (r.nodeValueValues[place]?.getD [])).1

theorem decodeSlots_of_holds (lawful : codec.registry.Lawful) (holds : codec.Holds f g variant r)
    {place : Nat} {node : Node} (found : g.nodes[place]? = some node) :
    codec.decodeSlots (r.nodeValueKeys[place]?.getD []) (r.nodeValueValues[place]?.getD []) =
      (node.values, []) := by
  obtain ⟨inside, same⟩ := List.getElem?_eq_some_iff.mp found
  have inside' : place < r.nodeValueValues.length := holds.nodeValueValues.length_eq ▸ inside
  have row := holds.nodeValueValues.get inside inside'
  rw [holds.nodeValueKeys, List.getElem?_map, found, List.getElem?_eq_getElem inside']
  refine decodeSlots_of_encodeSlots lawful ?_
  rw [← same]
  exact row

/-- A node is read back from its columns, whatever identifier it gets. -/
theorem nodeAt_of_holds (lawful : codec.registry.Lawful) (holds : codec.Holds f g variant r)
    {place : Nat} {node : Node} (found : g.nodes[place]? = some node) (id : NodeId) :
    codec.nodeAt r place id = { node with id := id } := by
  unfold nodeAt
  rw [decodeSlots_of_holds lawful holds found, holds.nodePositions, holds.nodeFunctions,
    List.getElem?_map, List.getElem?_map, found]
  rfl

/-- **A node is read back from its columns.** -/
theorem decodeNode_of_holds (lawful : codec.registry.Lawful) (holds : codec.Holds f g variant r)
    {place : Nat} {node : Node} {seen : List NodeId} (found : g.nodes[place]? = some node)
    (inner : node.id.isBoundary = false) (fresh : node.id ∉ seen) :
    ∃ warnings, codec.decodeNode r place seen = pure (node, warnings) ∧ Harmless warnings := by
  have id : decodeNodeId r place seen = pure (node.id, []) := by
    unfold decodeNodeId
    rw [holds.nodeIds, List.getElem?_map, found, Option.map_some]
    dsimp only
    rw [inner, Bool.false_or, if_neg (by simpa using fresh)]
  have read := nodeAt_of_holds lawful holds found node.id
  refine ⟨if (Function.find? codec.roster (r.nodeFunctions[place]?.getD "")).isNone then
    [.unknownFunction (place + 1) (r.nodeFunctions[place]?.getD "")] else [], ?_, ?_⟩
  · unfold decodeNode
    rw [id]
    simp only [pure_bind, decodeSlots_of_holds lawful holds found, List.append_nil]
    unfold nodeAt at read
    rw [decodeSlots_of_holds lawful holds found] at read
    rw [read]
  · intro warning member
    split at member
    · exact ⟨_, _, List.mem_singleton.mp member⟩
    · cases member

theorem remember_of_recorded {place : Nat} {id : NodeId}
    (recorded : r.nodeIds[place]? = some id.uuid) (seen : List NodeId) :
    remember r place seen id = id :: seen := by
  unfold remember
  rw [recorded]
  rfl

/-- All nodes from some place on are read back, given that the nodes before them were. -/
theorem decodeNodesFrom_of_holds (lawful : codec.registry.Lawful)
    (holds : codec.Holds f g variant r) (distinct : g.DistinctIds) (todo : List Node) :
    ∀ (done : List Node) (seen : List NodeId), g.nodes = done ++ todo →
      (∀ id ∈ seen, id ∈ done.map Node.id) →
        ∃ warnings, codec.decodeNodesFrom r (List.range' done.length todo.length) seen =
          pure (todo, warnings) ∧ Harmless warnings := by
  induction todo with
  | nil => exact fun done seen _ _ => ⟨[], rfl, fun _ member => by cases member⟩
  | cons node rest ih =>
    intro done seen split known
    have found : g.nodes[done.length]? = some node := by
      rw [split, List.getElem?_append_right (Nat.le_refl _), Nat.sub_self]
      rfl
    have member := List.mem_of_getElem? found
    -- Identifiers are distinct, so none is replaced and no fresh one is drawn.
    have fresh : node.id ∉ seen := by
      intro earlier
      have nodup := distinct.nodup
      rw [split, List.map_append, List.map_cons] at nodup
      exact (List.nodup_append.mp nodup).2.2 _ (known _ earlier) _ List.mem_cons_self rfl
    obtain ⟨warnings, first, harmless⟩ :=
      decodeNode_of_holds lawful holds found (distinct.inner node member) fresh
    have recorded : r.nodeIds[done.length]? = some node.id.uuid := by
      rw [holds.nodeIds, List.getElem?_map, found]
      rfl
    obtain ⟨later, others, harmless'⟩ := ih (done ++ [node]) (node.id :: seen)
      (by rw [split, List.append_assoc]; rfl) (by
        intro id listed
        rw [List.map_append]
        rcases List.mem_cons.mp listed with rfl | earlier
        · exact List.mem_append_right _ List.mem_cons_self
        · exact List.mem_append_left _ (known id earlier))
    rw [List.length_append] at others
    refine ⟨warnings ++ later, ?_, harmless.append harmless'⟩
    rw [List.length_cons, List.range'_succ, decodeNodesFrom, first, pure_bind]
    dsimp only
    rw [remember_of_recorded recorded]
    have shape : List.range' (done.length + 1) rest.length =
      List.range' (done.length + [node].length) rest.length := rfl
    rw [shape, others, pure_bind]

theorem decodeOutput_of_holds (lawful : codec.registry.Lawful) (holds : codec.Holds f g variant r) :
    codec.decodeSlots r.outputValueKeys r.outputValueValues = (g.outputValues, []) := by
  rw [holds.outputValueKeys]
  exact decodeSlots_of_encodeSlots lawful holds.outputValueValues

theorem nodeCount_of_holds (holds : codec.Holds f g variant r) : nodeCount r = g.nodes.length := by
  unfold nodeCount
  rw [holds.nodeIds, holds.nodePositions, holds.nodeFunctions]
  simp

/-- All nodes are read back, in order. -/
theorem decodeNodes_of_holds (lawful : codec.registry.Lawful) (holds : codec.Holds f g variant r)
    (distinct : g.DistinctIds) :
    ∃ warnings, codec.decodeNodes r = pure (g.nodes, warnings) ∧ Harmless warnings := by
  obtain ⟨warnings, read, harmless⟩ := decodeNodesFrom_of_holds lawful holds distinct g.nodes [] []
    rfl fun _ member => by cases member
  refine ⟨warnings, ?_, harmless⟩
  unfold decodeNodes
  rw [nodeCount_of_holds holds, List.range_eq_range']
  exact read

/-! ### Wires -/

/-- A wire between nodes that exist is added behind all others. -/
theorem addLink_of_inside {g : Graph Function} (distinct : g.DistinctIds) (id : WireId)
    {link : Link} (start : link.start.node < g.nodeCount) (stop : link.stop.node < g.nodeCount) :
    ∃ wire, g.link? wire = some link ∧
      g.addLink id link = .ok { g with wires := g.wires ++ [wire] } := by
  obtain ⟨source, locatedStart⟩ :=
    Option.isSome_iff_exists.mp ((g.isSome_nodeIdAt? link.start.node).mpr start)
  obtain ⟨target, locatedStop⟩ :=
    Option.isSome_iff_exists.mp ((g.isSome_nodeIdAt? link.stop.node).mpr stop)
  have foundStart := distinct.indexOf?_of_nodeIdAt? locatedStart
  have foundStop := distinct.indexOf?_of_nodeIdAt? locatedStop
  refine ⟨⟨id, ⟨source, link.start.slot⟩, ⟨target, link.stop.slot⟩⟩,
    (g.link?_eq_some_iff _ _).mpr ⟨foundStart, rfl, foundStop, rfl⟩, ?_⟩
  unfold Graph.addLink Graph.endpointAt
  rw [locatedStart, locatedStop]
  show g.addWire id ⟨source, link.start.slot⟩ ⟨target, link.stop.slot⟩ = _
  unfold Graph.addWire
  rw [foundStart, foundStop]
  rfl

/-- A wire to a node that does not exist is refused. -/
theorem addLink_of_outside {g : Graph Function} (id : WireId) {link : Link}
    (outside : ¬ (link.start.node < g.nodeCount ∧ link.stop.node < g.nodeCount)) :
    ∃ error, g.addLink id link = .error error := by
  rw [← g.isSome_nodeIdAt?, ← g.isSome_nodeIdAt?] at outside
  unfold Graph.addLink Graph.endpointAt
  cases starts : g.nodeIdAt? link.start.node with
  | none => exact ⟨_, rfl⟩
  | some source =>
    cases stops : g.nodeIdAt? link.stop.node with
    | none => exact ⟨_, rfl⟩
    | some target => exact absurd ⟨by rw [starts]; rfl, by rw [stops]; rfl⟩ outside

/-- Drawing an identifier. -/
theorem draw_eq (supply : IdSupply) :
    Fresh.id supply = (supply.draw supply.next, { supply with next := supply.next + 1 }) := rfl

/-- Going on after identifiers were drawn. -/
theorem bind_eq {α β : Type} {action : Fresh α} {result : α} {supply later : IdSupply}
    (done : action supply = (result, later)) (next : α → Fresh β) :
    (action >>= next) supply = next result later := by
  show next (action supply).1 (action supply).2 = _
  rw [done]

theorem decodeWires_cons {row : List Nat} {g wired : Graph Function} {supply : IdSupply}
    (added : g.addLink ⟨supply.draw supply.next⟩ (rowLink row) = .ok wired)
    (rows : List (List Nat)) :
    decodeWires (row :: rows) g supply =
      decodeWires rows wired { supply with next := supply.next + 1 } := by
  rw [decodeWires, bind_eq (draw_eq supply), added]

/-- Whether both nodes of a wire exist, given the number of the user's nodes. -/
def rowFits (count : Nat) (row : List Nat) : Bool :=
  row.getD 0 0 ≤ count + 1 && row.getD 2 0 ≤ count + 1

theorem rowFits_iff {g : Graph Function} {row : List Nat} : rowFits g.nodes.length row = true ↔
    (rowLink row).start.node < g.nodeCount ∧ (rowLink row).stop.node < g.nodeCount := by
  simp only [rowFits, Bool.and_eq_true, decide_eq_true_eq, rowLink, Graph.nodeCount,
    List.getD_eq_getElem?_getD]
  omega

/-- **The wires of a record are added in order**, whatever identifiers are drawn for them, and those
are reported and left out that lead to nodes which do not exist. -/
theorem decodeWires_rows (rows : List (List Nat)) :
    ∀ (g : Graph Function) (supply : IdSupply), g.DistinctIds →
      ∃ wires later, decodeWires rows g supply =
        (({ g with wires := g.wires ++ wires },
          (rows.filter fun row => !rowFits g.nodes.length row).map .wireOutOfRange), later) ∧
        wires.filterMap g.link? = (rows.filter (rowFits g.nodes.length)).map rowLink := by
  induction rows with
  | nil =>
    intro g supply _
    refine ⟨[], supply, ?_, rfl⟩
    rw [List.append_nil]
    rfl
  | cons row rest ih =>
    intro g supply distinct
    cases fits : rowFits g.nodes.length row with
    | true =>
      obtain ⟨start, stop⟩ := rowFits_iff.mp fits
      obtain ⟨wire, placed, added⟩ :=
        addLink_of_inside distinct ⟨supply.draw supply.next⟩ start stop
      obtain ⟨wires, later, decoded, links⟩ := ih { g with wires := g.wires ++ [wire] }
        { supply with next := supply.next + 1 } ⟨distinct.nodup, distinct.inner⟩
      refine ⟨wire :: wires, later, ?_, ?_⟩
      · rw [decodeWires_cons added, decoded, List.append_assoc,
          List.filter_cons_of_neg (by rw [fits]; decide)]
        rfl
      · rw [List.filterMap_cons, placed, List.filter_cons_of_pos fits]
        exact congrArg (rowLink row :: ·) links
    | false =>
      have outside := mt rowFits_iff.mpr (ne_true_of_eq_false fits)
      obtain ⟨error, refused⟩ := addLink_of_outside ⟨supply.draw supply.next⟩ outside
      obtain ⟨wires, later, decoded, links⟩ := ih g { supply with next := supply.next + 1 } distinct
      refine ⟨wires, later, ?_, ?_⟩
      · rw [decodeWires, bind_eq (draw_eq supply), refused,
          List.filter_cons_of_pos (by rw [fits]; rfl)]
        exact bind_eq decoded _
      · rw [List.filter_cons_of_neg (by rw [fits]; decide)]
        exact links

/-- Wires between nodes that exist are all read. -/
theorem decodeWires_wireRow (links : List Link) (g : Graph Function) (supply : IdSupply)
    (distinct : g.DistinctIds)
    (inside : ∀ link ∈ links, link.start.node < g.nodeCount ∧ link.stop.node < g.nodeCount) :
    ∃ wires later, decodeWires (links.map wireRow) g supply =
      (({ g with wires := g.wires ++ wires }, []), later) ∧ wires.filterMap g.link? = links := by
  have fits : ∀ row ∈ links.map wireRow, rowFits g.nodes.length row = true := by
    intro row member
    obtain ⟨link, listed, rfl⟩ := List.mem_map.mp member
    exact rowFits_iff.mpr (inside link listed)
  obtain ⟨wires, later, decoded, read⟩ := decodeWires_rows (links.map wireRow) g supply distinct
  have none : ((links.map wireRow).filter fun row => !rowFits g.nodes.length row) = [] :=
    List.filter_eq_nil_iff.mpr fun row member => by simp [fits row member]
  rw [none] at decoded
  rw [List.filter_eq_self.mpr fits, List.map_map] at read
  exact ⟨wires, later, decoded, read.trans (List.map_id links)⟩

/-! ### Records -/

/-- What a record is read as, part by part. -/
theorem decode_of_parts {signature : Signature} {nodes : List Node} {outputValues : Slots}
    {graph : Graph Function} {first second third fourth : List Warning}
    {supply start middle later : IdSupply}
    (signatures : codec.decodeSignature r supply = ((signature, first), start))
    (rows : codec.decodeNodes r start = ((nodes, second), middle))
    (output : codec.decodeSlots r.outputValueKeys r.outputValueValues = (outputValues, third))
    (wired : decodeWires r.wires
      ⟨nodes, [], codec.roster, r.inputPosition, r.outputPosition, outputValues⟩ middle =
        ((graph, fourth), later)) :
    ((codec.decode r).run supply).1 =
      ⟨⟨r.id, r.name, r.description, signature.inputs, signature.outputs, .composite graph, false,
        r.width⟩, first ++ second ++ third ++ fourth⟩ := by
  unfold decode StateT.run
  rw [output, bind_eq signatures]
  dsimp only
  rw [bind_eq rows]
  dsimp only
  rw [bind_eq wired]
  rfl

/-- A composite was read back: no fallback was taken but for unknown functions, and texts,
signature, positions, nodes with their values and wires by index are the old ones. -/
structure Restores (f : Function) (g : Graph Function) (decoded : Decoded) : Prop where
  harmless : Harmless decoded.warnings
  id : decoded.function.id = f.id
  name : decoded.function.name = f.name
  description : decoded.function.description = f.description
  width : decoded.function.width = f.width
  dataInputs : decoded.function.dataInputs = f.dataInputs
  dataOutputs : decoded.function.dataOutputs = f.dataOutputs
  graph : ∃ h, decoded.function.graph? = some h ∧ h.inputPosition = g.inputPosition ∧
    h.outputPosition = g.outputPosition ∧ h.nodes = g.nodes ∧ h.outputValues = g.outputValues ∧
    h.links = g.links

/-- A composite that was read back has the old record. -/
theorem Restores.encode_eq {decoded : Decoded} (composite : f.graph? = some g)
    (restores : Restores f g decoded) :
    codec.encode decoded.function variant = codec.encode f variant := by
  obtain ⟨h, composite', inputPosition, outputPosition, nodes, outputValues, links⟩ :=
    restores.graph
  unfold encode
  rw [composite, composite']
  dsimp only
  rw [restores.id, restores.name, restores.description, restores.width, restores.dataInputs,
    restores.dataOutputs, inputPosition, outputPosition, nodes, outputValues, links]

/-- A composite is read back from its columns, whatever its signature is read as. -/
theorem decode_of_holds (lawful : codec.registry.Lawful) (holds : codec.Holds f g variant r)
    (distinct : g.DistinctIds) {signature : Signature} {first : List Warning}
    (signatures : codec.decodeSignature r = pure (signature, first)) (supply : IdSupply) :
    ∃ h warnings, Harmless warnings ∧
      ((codec.decode r).run supply).1 = ⟨⟨f.id, f.name, f.description, signature.inputs,
        signature.outputs, .composite h, false, f.width⟩, first ++ warnings⟩ ∧
      h.inputPosition = g.inputPosition ∧ h.outputPosition = g.outputPosition ∧
      h.nodes = g.nodes ∧ h.outputValues = g.outputValues ∧ h.links = g.links := by
  obtain ⟨warnings, rows, harmless⟩ := decodeNodes_of_holds lawful holds distinct
  let unwired : Graph Function := ⟨g.nodes, [], codec.roster, r.inputPosition, r.outputPosition,
    g.outputValues⟩
  obtain ⟨wires, later, wired, links⟩ := decodeWires_wireRow g.links unwired supply
    ⟨distinct.nodup, distinct.inner⟩ fun link member =>
      show link.start.node < g.nodeCount ∧ link.stop.node < g.nodeCount from
        Graph.link_inside member
  rw [← holds.wires] at wired
  refine ⟨{ unwired with wires := [] ++ wires }, warnings, harmless, ?_, holds.inputPosition,
    holds.outputPosition, rfl, rfl, links⟩
  rw [decode_of_parts (congrFun signatures supply) (congrFun rows supply)
    (decodeOutput_of_holds lawful holds) wired, holds.id, holds.name, holds.description,
    holds.width, List.append_nil, List.append_nil]

/-- The record of a composite is read back. -/
theorem restores_of_encode (lawful : codec.registry.Lawful) (composite : f.graph? = some g)
    (distinct : g.DistinctIds) (encoded : codec.encode f variant = .ok r)
    (knows : codec.Knows f variant) (supply : IdSupply) :
    Restores f g ((codec.decode r).run supply).1 := by
  have holds := holds_of_encode composite encoded
  obtain ⟨h, warnings, harmless, decoded, graph⟩ := decode_of_holds lawful holds distinct
    (decodeSignature_of_columns knows holds.inputs holds.outputs) supply
  rw [decoded]
  exact ⟨harmless, rfl, rfl, rfl, rfl, rfl, rfl, ⟨h, rfl, graph⟩⟩

/-- **Decoding undoes encoding.** The record of a composite is read back, and what was read has the
same record again. -/
theorem decode_encode (built : codec.registry.Built) (composite : f.graph? = some g)
    (distinct : g.DistinctIds) (encoded : codec.encode f variant = .ok r)
    (knows : codec.Knows f variant) (supply : IdSupply) :
    Restores f g ((codec.decode r).run supply).1 ∧
      codec.encode ((codec.decode r).run supply).1.function variant = .ok r := by
  have restores := restores_of_encode built.lawful composite distinct encoded knows supply
  exact ⟨restores, (restores.encode_eq composite).trans encoded⟩

theorem inverter_decode_encode :
    ∃ r, (⟨.builtins, [], none⟩ : Codec).encode .inverter .withSignature = .ok r ∧
      Restores .inverter Function.inverterGraph
        (((⟨.builtins, [], none⟩ : Codec).decode r).run .counting).1 := by
  have succeeds :
      ((⟨.builtins, [], none⟩ : Codec).encode .inverter .withSignature).isOk = true := by
    decide +kernel
  cases encoded : (⟨.builtins, [], none⟩ : Codec).encode .inverter .withSignature with
  | error error =>
    rw [encoded] at succeeds
    cases succeeds
  | ok r =>
    refine ⟨r, rfl, (decode_encode Registry.built_builtins rfl Function.inverterGraph_distinctIds
      encoded ?_ .counting).1⟩
    show ∀ p ∈ _, _
    decide +kernel

end Codec

end FlowGraph
