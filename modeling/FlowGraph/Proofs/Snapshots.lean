/-
**Snapshots can be restored.**

A snapshot is the text of a record, so restoring it goes through text twice: the record has to be
read back from the text, and the composite from the record. The first takes finite positions and
payloads that are not nested too deep, and takes nothing else; the second gives the parameters whose
types are not registered back as control flow. Everything else comes back as it was.

That a finite number comes back from what is written for it is not for the history to ensure, and
not every reading of decimals ensures it. So the results here are about any reading, and assume of
the numbers in the composite that the reading keeps them. The nearest number keeps them all.

* `Value.Carries`: what a payload takes over from the value that it stands for;
* `Graph.Sized`, `Function.Storable`: what graphs can hold, and what a text can keep of it;
* `Function.Kept`: the numbers of a composite are read back from what is written for them;
* `Codec.revives_of_encode`: a composite is read back from its record, whatever its types are;
* `History.current_of_pushed`: what is current after a snapshot was accepted;
* `History.restores_pushed`: **a snapshot of a storable composite is restored**;
* `History.loses_pushed`: **a snapshot of any other composite is lost**.
-/

import FlowGraph.Proofs.RecordText
import FlowGraph.Proofs.RoundTrip
import FlowGraph.Proofs.Zipper

namespace FlowGraph

/-! ### Payloads -/

namespace Value

/-- The data that a value of the host carries; the values that are built in carry none. -/
def data : Value → Json
  | .custom _ content => content
  | _ => .null

/-- The numbers in a value are read back from what is written for them. -/
def kept [Json.DecimalReading] : Value → Bool
  | .number x => Json.keeps x
  | value => value.data.all Json.kept

/-- A payload is nested like the data of its value, and as easy to write and to read. -/
structure Carries [Json.DecimalReading] (value : Value) (payload : Json) : Prop where
  depth : value.data.depth = payload.depth
  fits : value.data.all Json.fits = payload.all Json.fits
  ordered : value.data.all Json.ordered = payload.all Json.ordered
  kept : value.kept = payload.all Json.kept

theorem kept_nearest (value : Value) : value.kept = true := by
  cases value with
  | number x => exact Json.keeps_nearest x
  | _ => exact Json.all_kept_nearest _

end Value

namespace ValueType

variable [Json.DecimalReading]

/-- The payload of a number is a text, or a number that is finite. -/
theorem carries_number (x : Float) : (Value.number x).Carries (numberPayload x) := by
  unfold numberPayload
  by_cases number : x.isNaN = true
  · have infinite : ¬ x.isFinite = true := fun finite => by
      rw [isNaN_of_isFinite finite] at number
      cases number
    rw [if_pos number]
    exact ⟨rfl, rfl, rfl, Json.keeps_of_not_isFinite infinite⟩
  · rw [if_neg number]
    by_cases bounded : x.isInf = true
    · have infinite : ¬ x.isFinite = true := fun finite => by
        rw [isInf_of_isFinite finite] at bounded
        cases bounded
      rw [if_pos bounded]
      exact ⟨rfl, rfl, rfl, Json.keeps_of_not_isFinite infinite⟩
    · rw [if_neg bounded]
      exact ⟨rfl, (isFinite_of_not number bounded).symm, rfl, rfl⟩

theorem Supplied.carries {valueType : ValueType} (supplied : valueType.Supplied) {value : Value}
    {payload : Json} (encoded : valueType.encode value = some payload) :
    value.Carries payload := by
  cases supplied with
  | number =>
    cases value with
    | number x =>
      cases encoded
      exact carries_number x
    | _ => cases encoded
  | text =>
    cases value with
    | text s =>
      cases encoded
      exact ⟨rfl, rfl, rfl, rfl⟩
    | _ => cases encoded
  | boolean =>
    cases value with
    | boolean b =>
      cases encoded
      exact ⟨rfl, rfl, rfl, rfl⟩
    | _ => cases encoded
  | controlFlow =>
    cases value with
    | flow state =>
      cases encoded
      exact ⟨rfl, rfl, rfl, rfl⟩
    | _ => cases encoded
  | json tag name default =>
    cases value with
    | custom found data =>
      have shape : (if found = tag then some data else none) = some payload := encoded
      split at shape
      · cases shape
        exact ⟨rfl, rfl, rfl, rfl⟩
      · cases shape
    | _ => cases encoded

end ValueType

theorem Registry.Built.supplied_of_get? {registry : Registry} (built : registry.Built)
    {tag : TypeTag} {valueType : ValueType} (found : registry.get? tag = some valueType) :
    valueType.Supplied := by
  rcases List.mem_cons.mp (List.mem_of_find?_eq_some found) with rfl | member
  · exact .controlFlow
  · exact built.supplied member

/-- What holds of all members of a row, holds of all members of a related row. -/
theorem forall_mem_iff_of_forall₂ {α β : Type} {R : α → β → Prop} {P : α → Prop} {Q : β → Prop}
    {as : List α} {bs : List β} (related : List.Forall₂ R as bs)
    (same : ∀ a b, R a b → (P a ↔ Q b)) : (∀ a ∈ as, P a) ↔ ∀ b ∈ bs, Q b := by
  induction related with
  | nil => simp
  | cons first _ ih => rw [List.forall_mem_cons, List.forall_mem_cons, same _ _ first, ih]

/-! ### What graphs can hold -/

/-- What values by slot can hold: slots are of sixty-four bits. -/
def Slots.Sized (slots : Slots) : Prop :=
  (∀ slot ∈ Codec.slotKeys slots, slot < 2 ^ 64) ∧ ∀ entry ∈ slots.entries, entry.2.data.Sized

/-- The data in these values are nested within bounds. -/
def Slots.Within (room : ℕ) (slots : Slots) : Prop :=
  ∀ entry ∈ slots.entries, entry.2.data.depth ≤ room

/-- The numbers in these values are read back from what is written for them. -/
def Slots.Kept [Json.DecimalReading] (slots : Slots) : Prop :=
  ∀ entry ∈ slots.entries, entry.2.kept = true

/-- What graphs can hold: indices and slots are of sixty-four bits. -/
structure Graph.Sized {F : Type} (g : Graph F) : Prop where
  nodeCount : g.nodeCount ≤ 2 ^ 64
  nodeValues : ∀ node ∈ g.nodes, node.values.Sized
  outputValues : g.outputValues.Sized
  links : ∀ link ∈ g.links, link.start.slot < 2 ^ 64 ∧ link.stop.slot < 2 ^ 64

/-- What a text can keep of a composite: positions and width are finite, and data leave room for the
containers that a record puts around them, four for the values of a node and three for those of the
Output node. -/
structure Function.Storable (f : Function) (g : Graph Function) : Prop where
  width : f.width.isFinite = true
  positions : ∀ node ∈ g.nodes, node.position.isFinite = true
  inputPosition : g.inputPosition.isFinite = true
  outputPosition : g.outputPosition.isFinite = true
  nodeValues : ∀ node ∈ g.nodes, node.values.Within (Json.nestingLimit - 4)
  outputValues : g.outputValues.Within (Json.nestingLimit - 3)

/-- **The assumption on the reading of decimals**: the finite numbers in a composite, which are its
width, its positions and those in its manual values, are read back from what is written for them. -/
structure Function.Kept [Json.DecimalReading] (f : Function) (g : Graph Function) : Prop where
  width : Json.keeps f.width = true
  positions : ∀ node ∈ g.nodes, node.position.keeps = true
  inputPosition : g.inputPosition.keeps = true
  outputPosition : g.outputPosition.keeps = true
  nodeValues : ∀ node ∈ g.nodes, node.values.Kept
  outputValues : g.outputValues.Kept

theorem Function.kept_nearest (f : Function) (g : Graph Function) : f.Kept g where
  width := Json.keeps_nearest f.width
  positions node _ := node.position.keeps_nearest
  inputPosition := g.inputPosition.keeps_nearest
  outputPosition := g.outputPosition.keeps_nearest
  nodeValues _ _ entry _ := entry.2.kept_nearest
  outputValues entry _ := entry.2.kept_nearest

namespace Codec

section Reading

variable [Json.DecimalReading]

variable {codec : Codec} {f : Function} {g : Graph Function} {variant : Variant} {r : Record}

theorem carries_of_encodeValue (built : codec.registry.Built) {value : Value}
    {encoded : EncodedValue} (result : codec.encodeValue value = .ok encoded) :
    value.Carries encoded.payload := by
  unfold encodeValue at result
  split at result
  · next payload found =>
    cases result
    obtain ⟨valueType, registered, payloads⟩ := Option.bind_eq_some_iff.mp found
    exact (built.supplied_of_get? registered).carries payloads
  · cases result

/-- The payloads of values are those of their entries, in order. -/
theorem carries_of_encodeSlots (built : codec.registry.Built) {slots : Slots}
    {row : List EncodedValue} (result : codec.encodeSlots slots = .ok row) :
    List.Forall₂ (fun entry encoded => entry.2.Carries encoded.payload) slots.entries row :=
  (forall₂_of_mapM result).imp fun _ _ => carries_of_encodeValue built

theorem sized_iff_of_encodeSlots (built : codec.registry.Built) {slots : Slots}
    {row : List EncodedValue} (result : codec.encodeSlots slots = .ok row) :
    (∀ entry ∈ slots.entries, entry.2.data.Sized) ↔ ∀ encoded ∈ row, encoded.payload.Sized :=
  forall_mem_iff_of_forall₂ (carries_of_encodeSlots built result) fun entry encoded carries => by
    unfold Json.Sized
    rw [carries.fits, carries.ordered]

theorem within_iff_of_encodeSlots (built : codec.registry.Built) {slots : Slots}
    {row : List EncodedValue} (result : codec.encodeSlots slots = .ok row) (room : ℕ) :
    slots.Within room ↔ ∀ encoded ∈ row, encoded.payload.depth ≤ room :=
  forall_mem_iff_of_forall₂ (carries_of_encodeSlots built result) fun entry encoded carries => by
    rw [carries.depth]

theorem kept_iff_of_encodeSlots (built : codec.registry.Built) {slots : Slots}
    {row : List EncodedValue} (result : codec.encodeSlots slots = .ok row) :
    slots.Kept ↔ ∀ encoded ∈ row, encoded.payload.all Json.kept = true :=
  forall_mem_iff_of_forall₂ (carries_of_encodeSlots built result) fun entry encoded carries => by
    rw [carries.kept]

/-- The columns of a graph hold what graphs can hold. -/
theorem sized_of_holds (built : codec.registry.Built) (holds : codec.Holds f g variant r)
    (sized : g.Sized) : r.Sized where
  nodeValueKeys := by
    rw [holds.nodeValueKeys]
    exact List.forall_mem_map.mpr fun node member => (sized.nodeValues node member).1
  outputValueKeys := by
    rw [holds.outputValueKeys]
    exact sized.outputValues.1
  wires := by
    rw [holds.wires]
    refine List.forall_mem_map.mpr fun link member => ?_
    have inside := Graph.link_inside member
    have slots := sized.links link member
    have count := sized.nodeCount
    simp only [wireRow, List.forall_mem_cons]
    exact ⟨by omega, slots.1, by omega, slots.2, by simp⟩
  nodeValueValues :=
    (forall_mem_iff_of_forall₂ holds.nodeValueValues fun node row encoded =>
      sized_iff_of_encodeSlots built encoded).mp fun node member => (sized.nodeValues node member).2
  outputValueValues :=
    (sized_iff_of_encodeSlots built holds.outputValueValues).mp sized.outputValues.2

/-- The numbers of a composite are those of its record. -/
theorem kept_of_holds (built : codec.registry.Built) (holds : codec.Holds f g variant r)
    (kept : f.Kept g) : r.Kept where
  width := by
    rw [holds.width]
    exact kept.width
  nodePositions := by
    rw [holds.nodePositions]
    exact List.forall_mem_map.mpr kept.positions
  inputPosition := by
    rw [holds.inputPosition]
    exact kept.inputPosition
  outputPosition := by
    rw [holds.outputPosition]
    exact kept.outputPosition
  nodeValueValues :=
    (forall_mem_iff_of_forall₂ holds.nodeValueValues fun node row encoded =>
      kept_iff_of_encodeSlots built encoded).mp kept.nodeValues
  outputValueValues := (kept_iff_of_encodeSlots built holds.outputValueValues).mp kept.outputValues

/-- The record of a composite has a text that can be read exactly if the composite is storable. -/
theorem storable_iff_of_holds (built : codec.registry.Built) (holds : codec.Holds f g variant r) :
    f.Storable g ↔ r.Finite ∧
      (∀ row ∈ r.nodeValueValues, ∀ encoded ∈ row,
        encoded.payload.depth ≤ Json.nestingLimit - 4) ∧
      ∀ encoded ∈ r.outputValueValues, encoded.payload.depth ≤ Json.nestingLimit - 3 := by
  have nodes := forall_mem_iff_of_forall₂ holds.nodeValueValues fun node row encoded =>
    within_iff_of_encodeSlots built encoded (Json.nestingLimit - 4)
  have output := within_iff_of_encodeSlots built holds.outputValueValues (Json.nestingLimit - 3)
  have positions : (∀ p ∈ r.nodePositions, p.isFinite = true) ↔
      ∀ node ∈ g.nodes, node.position.isFinite = true := by
    rw [holds.nodePositions, List.forall_mem_map]
  rw [← nodes, ← output]
  constructor
  · intro storable
    refine ⟨⟨?_, positions.mpr storable.positions, ?_, ?_⟩, storable.nodeValues,
      storable.outputValues⟩
    · rw [holds.width]
      exact storable.width
    · rw [holds.inputPosition]
      exact storable.inputPosition
    · rw [holds.outputPosition]
      exact storable.outputPosition
  · rintro ⟨finite, nodeValues, outputValues⟩
    exact ⟨holds.width ▸ finite.width, positions.mp finite.nodePositions,
      holds.inputPosition ▸ finite.inputPosition, holds.outputPosition ▸ finite.outputPosition,
      nodeValues, outputValues⟩

/-- The record of a storable composite is read back from its text. -/
theorem parse?_text_of_storable (built : codec.registry.Built) (holds : codec.Holds f g variant r)
    (sized : g.Sized) (kept : f.Kept g) (storable : f.Storable g) :
    Record.parse? r.text = some r := by
  obtain ⟨finite, nodes, outputs⟩ := (storable_iff_of_holds built holds).mp storable
  exact Record.parse?_text (sized_of_holds built holds sized) finite
    (kept_of_holds built holds kept) (Record.depth_ofRecord_le nodes outputs)

/-- A text that can be read is that of a storable composite. -/
theorem storable_of_parse?_text (built : codec.registry.Built) (holds : codec.Holds f g variant r)
    (sized : g.Sized) (kept : f.Kept g) {other : Record}
    (parsed : Record.parse? r.text = some other) : f.Storable g := by
  obtain ⟨finite, nodes, outputs⟩ := Record.limits_of_parse? (sized_of_holds built holds sized)
    (kept_of_holds built holds kept) parsed
  exact (storable_iff_of_holds built holds).mpr ⟨finite,
    fun row member encoded inside => Nat.le_sub_of_add_le (nodes row member encoded inside),
    fun encoded member => Nat.le_sub_of_add_le (outputs encoded member)⟩

end Reading

/-! ### What is read back -/

variable {codec : Codec} {f : Function} {g : Graph Function} {r : Record}

/-- A composite was read back under the types that are registered: parameters of other types became
control flow, and texts, width, positions, nodes with their values and wires by index are the old
ones. -/
structure Revives (codec : Codec) (f : Function) (g : Graph Function) (restored : Function) :
    Prop where
  id : restored.id = f.id
  name : restored.name = f.name
  description : restored.description = f.description
  width : restored.width = f.width
  dataInputs : restored.dataInputs = f.dataInputs.map fun p => (codec.readParameter p).1
  dataOutputs : restored.dataOutputs = f.dataOutputs.map fun p => (codec.readParameter p).1
  graph : ∃ h, restored.graph? = some h ∧ h.inputPosition = g.inputPosition ∧
    h.outputPosition = g.outputPosition ∧ h.nodes = g.nodes ∧ h.outputValues = g.outputValues ∧
    h.links = g.links

/-- **A composite is read back from its record**, whatever the types of its parameters are. -/
theorem revives_of_encode (lawful : codec.registry.Lawful) (composite : f.graph? = some g)
    (distinct : g.DistinctIds) (encoded : codec.encode f .withSignature = .ok r)
    (supply : IdSupply) : codec.Revives f g ((codec.decode r).run supply).1.function := by
  have holds := holds_of_encode composite encoded
  obtain ⟨h, warnings, _, decoded, graph⟩ := decode_of_holds lawful holds distinct
    (decodeSignature_ofParameters holds.inputs holds.outputs) supply
  rw [decoded]
  exact ⟨rfl, rfl, rfl, rfl, rfl, rfl, ⟨h, rfl, graph⟩⟩

end Codec

/-! ### Snapshots -/

namespace History

section Reading

variable [Json.DecimalReading]

variable {codec : Codec} {f : Function} {g : Graph Function} {r : Record}

/-- The snapshot of a storable composite is restored. -/
theorem restore?_text (built : codec.registry.Built) (composite : f.graph? = some g)
    (distinct : g.DistinctIds) (sized : g.Sized) (kept : f.Kept g) (storable : f.Storable g)
    (encoded : codec.encode f .withSignature = .ok r) :
    ∃ restored, restore? codec r.text = some restored ∧
      ∀ supply, codec.Revives f g (restored.run supply).1 := by
  have parsed := Codec.parse?_text_of_storable built (Codec.holds_of_encode composite encoded)
    sized kept storable
  unfold restore?
  rw [parsed]
  exact ⟨_, rfl, Codec.revives_of_encode built.lawful composite distinct encoded⟩

/-- **A snapshot can be restored only if it is of a storable composite.** -/
theorem storable_of_restore? (built : codec.registry.Built) (composite : f.graph? = some g)
    (sized : g.Sized) (kept : f.Kept g) (encoded : codec.encode f .withSignature = .ok r)
    {restored : Fresh Function} (done : restore? codec r.text = some restored) :
    f.Storable g := by
  obtain ⟨other, parsed, _⟩ := Option.map_eq_some_iff.mp done
  exact Codec.storable_of_parse?_text built (Codec.holds_of_encode composite encoded) sized kept
    parsed

/-- What is current after a snapshot was accepted. -/
theorem current_of_pushed (settings : HistorySettings) (moves : List Move) :
    let h := (runMoves act (ofSettings settings) moves).2
    (h.act (.push codec f)).1 = .done → ∃ r, codec.encode f .withSignature = .ok r ∧
      ((h.act (.push codec f)).2.act (.current codec)).1 = .restored (restore? codec r.text) := by
  intro h accepted
  obtain ⟨_, shown⟩ := runMoves_alike (Shows (max 1 settings.maxSnapshots))
    (fun h z move shown => shown.act move) (shows_ofSettings settings) moves
  have pushed := shown.act (.push codec f)
  have current := (pushed.2.act (.current codec)).1
  have answer := pushed.1.symm.trans accepted
  unfold Zipper.act at answer current
  dsimp only at answer current
  cases encoded : codec.encode f .withSignature with
  | error error =>
    rw [encoded] at answer
    cases answer
  | ok r =>
    rw [encoded] at current
    exact ⟨r, rfl, current.trans (Zipper.read_focus codec _ r [])⟩

/-- **A snapshot that was accepted is restored.** From any history on, once a storable composite was
pushed whose numbers are kept, the current snapshot is read as a composite with the same nodes,
values, wires by index, positions and width, and with the same parameters up to types that are not
registered. -/
theorem restores_pushed (built : codec.registry.Built) (composite : f.graph? = some g)
    (distinct : g.DistinctIds) (sized : g.Sized) (kept : f.Kept g) (storable : f.Storable g)
    (settings : HistorySettings) (moves : List Move) :
    let h := (runMoves act (ofSettings settings) moves).2
    (h.act (.push codec f)).1 = .done → ∃ restored,
      ((h.act (.push codec f)).2.act (.current codec)).1 = .restored (some restored) ∧
        ∀ supply, codec.Revives f g (restored.run supply).1 := by
  intro h accepted
  obtain ⟨r, encoded, current⟩ := current_of_pushed settings moves accepted
  obtain ⟨restored, done, revives⟩ :=
    restore?_text built composite distinct sized kept storable encoded
  exact ⟨restored, done ▸ current, revives⟩

/-- **A snapshot of any other composite is accepted and lost.** -/
theorem loses_pushed (built : codec.registry.Built) (composite : f.graph? = some g)
    (sized : g.Sized) (kept : f.Kept g) (lost : ¬ f.Storable g) (settings : HistorySettings)
    (moves : List Move) :
    let h := (runMoves act (ofSettings settings) moves).2
    (h.act (.push codec f)).1 = .done →
      ((h.act (.push codec f)).2.act (.current codec)).1 = .restored none := by
  intro h accepted
  obtain ⟨r, encoded, current⟩ := current_of_pushed settings moves accepted
  have unreadable : restore? codec r.text = none := Option.eq_none_iff_forall_ne_some.mpr
    fun _ done => lost (storable_of_restore? built composite sized kept encoded done)
  exact unreadable ▸ current

theorem act_push_of_isOk (succeeds : (codec.encode f .withSignature).isOk = true) (h : History) :
    (h.act (.push codec f)).1 = .done := by
  unfold act push
  dsimp only
  cases encoded : codec.encode f .withSignature with
  | error error =>
    rw [encoded] at succeeds
    cases succeeds
  | ok r => rfl

end Reading

/-! ### Samples -/

/-- A graph with one node, which stands at a given place and holds given data. -/
def noteGraph (position : Position) (data : Json) : Graph Function :=
  { Graph.new [] with
    nodes := [(Node.new ⟨.ofNat 2⟩ "note" position).withValue 1 (.custom ⟨"note"⟩ data)]
    wires := [⟨⟨.ofNat 3⟩, ⟨.input, 1⟩, ⟨⟨.ofNat 2⟩, 2⟩⟩] }

/-- A composite with such a graph and an input of a type that nobody registers. -/
def note (position : Position) (data : Json) : Function :=
  .composite "note" "Note" [⟨.ofNat 5, "Colour", ⟨"colour"⟩⟩] [] (noteGraph position data)

/-- A codec that knows the type of the data. -/
def noteCodec : Codec :=
  ⟨Registry.builtins.register (.json ⟨"note"⟩ "Note" .null), [], none⟩

theorem noteCodec_built : noteCodec.registry.Built :=
  Registry.built_builtins.register (.json ⟨"note"⟩ "Note" .null)

section Note

variable (position : Position) {data : Json}

theorem noteGraph_distinctIds : (noteGraph position data).DistinctIds where
  nodup := List.nodup_singleton _
  inner := List.forall_mem_singleton.mpr
    (show NodeId.isBoundary ⟨.ofNat 2⟩ = false by decide +kernel)

theorem noteGraph_sized (sized : data.Sized) : (noteGraph position data).Sized where
  nodeCount := show 3 ≤ 2 ^ 64 by decide
  nodeValues := List.forall_mem_singleton.mpr ⟨show ∀ slot ∈ [0, 1], slot < 2 ^ 64 by decide,
    List.forall_mem_cons.mpr ⟨⟨rfl, rfl⟩, List.forall_mem_singleton.mpr sized⟩⟩
  outputValues := ⟨show ∀ slot ∈ [0], slot < 2 ^ 64 by decide,
    List.forall_mem_singleton.mpr ⟨rfl, rfl⟩⟩
  links := by
    intro link member
    obtain ⟨wire, listed, placed⟩ := Graph.mem_links.mp member
    obtain ⟨_, start, _, stop⟩ := (Graph.link?_eq_some_iff _ wire link).mp placed
    rw [List.mem_singleton.mp listed] at start stop
    rw [← start, ← stop]
    decide

theorem note_storable (finite : position.isFinite = true)
    (small : data.depth ≤ Json.nestingLimit - 4) :
    (note position data).Storable (noteGraph position data) where
  width := show Layout.standard.nodeWidth.isFinite = true by decide +kernel
  positions := List.forall_mem_singleton.mpr finite
  inputPosition := show Layout.standard.inputPosition.isFinite = true by decide +kernel
  outputPosition := show Layout.standard.outputPosition.isFinite = true by decide +kernel
  nodeValues := List.forall_mem_singleton.mpr
    (List.forall_mem_cons.mpr ⟨Nat.zero_le _, List.forall_mem_singleton.mpr small⟩)
  outputValues := List.forall_mem_singleton.mpr (Nat.zero_le _)

end Note

/-- The answers of a new history to a note that is pushed and to the question for the current
snapshot. -/
def noteAnswers (position : Position) (data : Json) : Answer × Answer :=
  let (pushed, h) := (ofSettings .standard).act (.push noteCodec (note position data))
  (pushed, (h.act (.current noteCodec)).1)

/-- Data that are nested to a depth. -/
def nested : ℕ → Json
  | 0 => .null
  | depth + 1 => .arr [nested depth]

theorem note_restores_pushed :
    let data := .obj [("lines", .arr [.float 0.1, .int 3]), ("title", .null)]
    ∃ restored, noteAnswers ⟨0.1, -2.5⟩ data = (.done, .restored (some restored)) ∧
      ∀ supply, noteCodec.Revives (note ⟨0.1, -2.5⟩ data) (noteGraph ⟨0.1, -2.5⟩ data)
        (restored.run supply).1 := by
  intro data
  have sized : data.Sized := ⟨by decide +kernel, by decide +kernel⟩
  have storable : (note ⟨0.1, -2.5⟩ data).Storable (noteGraph ⟨0.1, -2.5⟩ data) :=
    note_storable _ (by decide +kernel) (by decide)
  have accepted : (noteCodec.encode (note ⟨0.1, -2.5⟩ data) .withSignature).isOk = true := by
    decide +kernel
  have pushed := act_push_of_isOk accepted (ofSettings .standard)
  obtain ⟨restored, current, revives⟩ := restores_pushed noteCodec_built rfl
    (noteGraph_distinctIds _) (noteGraph_sized _ sized) (Function.kept_nearest _ _) storable
    .standard [] pushed
  exact ⟨restored, Prod.ext pushed current, revives⟩

/-- **What a snapshot keeps has bounds.** A parameter whose type is not registered comes back as
control flow. A node that stands at `NaN`, or data that are nested too deep, are accepted and cannot
be read back at all. -/
theorem note_not_restored :
    noteCodec.registry.Built ∧
    (∀ position data, (note position data).graph? = some (noteGraph position data) ∧
      (noteGraph position data).DistinctIds) ∧
    (∃ restored, noteAnswers ⟨0, 0⟩ .null = (.done, .restored (some restored)) ∧
      (restored.run .counting).1.dataInputs ≠ (note ⟨0, 0⟩ .null).dataInputs) ∧
    noteAnswers ⟨0 / 0, 0⟩ .null = (.done, .restored none) ∧
    noteAnswers ⟨0, 0⟩ (nested 124) = (.done, .restored none) := by
  refine ⟨noteCodec_built, fun position data => ⟨rfl, noteGraph_distinctIds position⟩, ?_, ?_, ?_⟩
  · have accepted : (noteCodec.encode (note ⟨0, 0⟩ .null) .withSignature).isOk = true := by
      decide +kernel
    have pushed := act_push_of_isOk accepted (ofSettings .standard)
    obtain ⟨r, encoded, current⟩ := current_of_pushed .standard [] pushed
    obtain ⟨restored, done, revives⟩ := restore?_text noteCodec_built rfl
      (noteGraph_distinctIds _) (noteGraph_sized _ ⟨rfl, rfl⟩) (Function.kept_nearest _ _)
      (note_storable _ (by decide +kernel) (by decide)) encoded
    refine ⟨restored, Prod.ext pushed (done ▸ current), ?_⟩
    rw [(revives .counting).dataInputs]
    decide +kernel
  · have accepted : (noteCodec.encode (note ⟨0 / 0, 0⟩ .null) .withSignature).isOk = true := by
      decide +kernel
    have pushed := act_push_of_isOk accepted (ofSettings .standard)
    refine Prod.ext pushed (loses_pushed noteCodec_built rfl (noteGraph_sized _ ⟨rfl, rfl⟩)
      (Function.kept_nearest _ _) (fun storable => ?_) .standard [] pushed)
    exact absurd (storable.positions _ List.mem_cons_self) (by decide +kernel)
  · have accepted : (noteCodec.encode (note ⟨0, 0⟩ (nested 124)) .withSignature).isOk = true := by
      decide +kernel
    have pushed := act_push_of_isOk accepted (ofSettings .standard)
    have sized : (nested 124).Sized := ⟨by decide +kernel, by decide +kernel⟩
    refine Prod.ext pushed (loses_pushed noteCodec_built rfl (noteGraph_sized _ sized)
      (Function.kept_nearest _ _) (fun storable => ?_) .standard [] pushed)
    have small : (nested 124).depth ≤ Json.nestingLimit - 4 :=
      storable.nodeValues _ List.mem_cons_self (1, .custom ⟨"note"⟩ (nested 124))
        (List.mem_cons_of_mem _ List.mem_cons_self)
    exact absurd small (by decide +kernel)

end History

end FlowGraph
