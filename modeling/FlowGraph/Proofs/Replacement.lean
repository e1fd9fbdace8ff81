/-
**A composite that was read back may stand in for the one that was written.**

A caller sees four things of a function: its id, the number of its inputs, whether any one of them
is enough, and what it evaluates to. A record keeps all of these but the third, since it has no
field for it: what is read back always waits for all of its inputs.

* `Circuit.echoes_of_callees`: callees that echo each other may be exchanged;
* `Codec.encode_succeeds`: every composite whose values have registered types can be written;
* `Codec.echoes_of_decode`: to a caller, what is read is what was written;
* `Codec.run_replaced`: **every caller runs as before** when the one takes the place of the other;
* `Codec.gate_not_replaced`: this fails for a composite that any one input is enough for.
-/

import FlowGraph.Proofs.Persistence

namespace FlowGraph

/-! ### Exchanging callees -/

theorem rel_find?_callees {as bs : List Callee} (related : List.Forall₂ Callee.Echoes as bs)
    (id : String) : Option.Rel Callee.Echoes (as.find? fun callee => callee.id = id)
      (bs.find? fun callee => callee.id = id) := by
  induction related with
  | nil => exact .none
  | @cons a b _ _ head _ ih =>
    by_cases wanted : a.id = id
    · have also : b.id = id := head.id.symm.trans wanted
      simpa [wanted, also] using Option.Rel.some head
    · have neither : ¬ b.id = id := fun same => wanted (head.id.trans same)
      simpa [wanted, neither] using ih

/-- **Callees that echo each other may be exchanged** in every graph. -/
theorem Circuit.echoes_of_callees {F : Type} (functionId : String) (outputCount : Nat)
    (g : Graph F) {callees others : List Callee}
    (related : List.Forall₂ Callee.Echoes callees others) :
    (Circuit.ofGraph functionId outputCount g callees).Echoes
      (.ofGraph functionId outputCount g others) := by
  have boundary : ∀ (node : Node) (arity : Nat),
      (Station.ofBoundary node arity).Echoes (.ofBoundary node arity) := fun node arity =>
    ⟨rfl, .some ⟨⟨rfl, rfl, fun _ _ _ => rfl⟩, rfl, fun _ _ => rfl⟩⟩
  have inner : List.Forall₂ Station.Echoes (g.nodes.map (.ofNode callees))
      (g.nodes.map (.ofNode others)) := by
    rw [List.forall₂_map_left_iff, List.forall₂_map_right_iff]
    exact List.forall₂_same.mpr fun node _ => ⟨rfl, rel_find?_callees related node.function⟩
  exact ⟨rfl, rfl, rfl, List.rel_append (.cons (boundary ..) inner) (.cons (boundary ..) .nil)⟩

namespace Function

variable {f h : Function} {g k : Graph Function}

/-- A caller does not notice renamed nodes inside a callee. -/
theorem Renamed.callee (composite : f.body = .composite g) (other : h.body = .composite k)
    (renamed : f.Renamed h g k) (anyInput : f.anyInput = h.anyInput)
    (inputCount : f.dataInputs.length = h.dataInputs.length) : f.callee.Echoes h.callee := by
  have arity : f.inputs.length = h.inputs.length := by
    unfold inputs
    rw [renamed.id]
    split
    · rfl
    · simp [inputCount]
  rw [f.callee_eq, h.callee_eq]
  refine ⟨⟨anyInput, arity, fun depth deeper arguments => ?_⟩, renamed.id,
    fun depth arguments => ?_⟩
  · show (f.evaluateAt depth arguments).result = (h.evaluateAt deeper arguments).result
    rw [evaluateAt_composite composite, evaluateAt_composite other]
    exact congrArg (Except.map (Value.signal :: ·))
      (Circuit.run_alike renamed.circuit.alike (arguments.drop 1) depth deeper)
  · show (f.evaluateAt depth arguments).events.map _ = (h.evaluateAt depth arguments).events.map _
    rw [evaluateAt_composite composite, evaluateAt_composite other]
    exact Circuit.run_echoes renamed.circuit (arguments.drop 1) depth

/-- The same composite with another roster. -/
def withRoster (p : Function) (k : Graph Function) (roster : List (Folder Function)) : Function :=
  p.setGraph { k with roster := roster }

/-- **A caller whose callees are exchanged** for others that echo them runs as before. -/
theorem run_withRoster {p : Function} (composite : p.graph? = some k)
    {roster : List (Folder Function)}
    (related : List.Forall₂ (fun f h => f.callee.Echoes h.callee) (Folder.flatten k.roster)
      (Folder.flatten roster)) (inputs : List Value) :
    ((p.withRoster k roster).run inputs).result = (p.run inputs).result ∧
      ((p.withRoster k roster).run inputs).events.map Event.unnamed =
        (p.run inputs).events.map Event.unnamed := by
  have body := body_of_graph? composite
  have other : (p.withRoster k roster).body = .composite { k with roster := roster } := rfl
  have echoes :
      (p.circuit k).Echoes ((p.withRoster k roster).circuit { k with roster := roster }) := by
    refine Circuit.echoes_of_callees p.id p.dataOutputs.length k ?_
    rw [k.callees_eq, Graph.callees_eq, List.forall₂_map_left_iff, List.forall₂_map_right_iff]
    exact related
  rw [run_composite body, run_composite other, events_run body, events_run other]
  exact ⟨(Circuit.run_alike echoes.alike inputs 0 0).symm,
    (Circuit.run_echoes echoes inputs 0).symm⟩

end Function

/-! ### What can be written -/

/-- The type of a value is registered: there is a type under its tag, and it can hold the value. -/
def Registry.Holds (registry : Registry) (value : Value) : Prop :=
  ∃ valueType payload, registry.get? value.tag = some valueType ∧
    valueType.encode value = some payload

theorem Registry.holds_signal (registry : Registry) : registry.Holds .signal :=
  ⟨.controlFlow, _, rfl, rfl⟩

/-- All values set by hand in a graph. -/
def Graph.handValues {F : Type} (g : Graph F) : List Value :=
  (g.outputValues :: g.nodes.map Node.values).flatMap fun slots => slots.entries.map Prod.snd

theorem mapM_succeeds {ε α β : Type} {f : α → Except ε β} {things : List α}
    (each : ∀ thing ∈ things, ∃ result, f thing = .ok result) :
    ∃ results, things.mapM f = .ok results := by
  induction things with
  | nil => exact ⟨[], rfl⟩
  | cons thing rest ih =>
    obtain ⟨first, succeeds⟩ := each thing List.mem_cons_self
    obtain ⟨later, succeed⟩ := ih fun other member => each other (List.mem_cons_of_mem _ member)
    refine ⟨first :: later, ?_⟩
    rw [List.mapM_cons, succeeds, succeed]
    rfl

namespace Codec

variable {codec : Codec} {f : Function} {g : Graph Function} {r : Record}

/-- **Every composite whose values have registered types can be written.** -/
theorem encode_succeeds (composite : f.graph? = some g)
    (registered : ∀ value ∈ g.handValues, codec.registry.Holds value) (variant : Variant) :
    ∃ r, codec.encode f variant = .ok r := by
  have slots : ∀ slots ∈ g.outputValues :: g.nodes.map Node.values,
      ∃ row, codec.encodeSlots slots = .ok row := by
    intro slots listed
    refine mapM_succeeds fun entry member => ?_
    obtain ⟨valueType, payload, found, encoded⟩ := registered entry.2
      (List.mem_flatMap.mpr ⟨slots, listed, List.mem_map_of_mem member⟩)
    refine ⟨⟨entry.2.tag, payload⟩, ?_⟩
    unfold encodeValue
    rw [found, Option.bind_some, encoded]
  obtain ⟨rows, nodes⟩ :
      ∃ rows, (g.nodes.mapM fun node => codec.encodeSlots node.values) = .ok rows :=
    mapM_succeeds fun node member => slots _ (List.mem_cons_of_mem _ (List.mem_map_of_mem member))
  obtain ⟨row, output⟩ := slots g.outputValues List.mem_cons_self
  unfold encode
  rw [composite]
  dsimp only
  rw [nodes, output]
  exact ⟨_, rfl⟩

/-- What is read waits for all of its inputs, and has as many as the columns of its record. -/
theorem head_of_decode (codec : Codec) {inputs outputs : List Parameter}
    (first : r.inputs = .ofParameters inputs) (second : r.outputs = .ofParameters outputs)
    (supply : IdSupply) :
    let h := ((codec.decode r).run supply).1.function
    h.anyInput = false ∧ h.dataInputs.length = inputs.length := by
  intro h
  have signature : h.dataInputs = inputs.map fun p => (codec.readParameter p).1 := by
    unfold h decode
    rw [decodeSignature_ofParameters first second]
    rfl
  refine ⟨rfl, ?_⟩
  rw [signature, List.length_map]

/-- **To a caller, what is read is what was written**, unless any one input was enough for that. -/
theorem echoes_of_decode (lawful : codec.registry.Lawful) (composite : f.graph? = some g)
    (roster : g.roster = codec.roster) (patient : f.anyInput = false)
    (encoded : codec.encode f .withSignature = .ok r) {supply : IdSupply}
    (clear : supply.Clear g.nodes.length (g.nodes.map Node.id)) :
    f.callee.Echoes ((codec.decode r).run supply).1.function.callee := by
  have holds := holds_of_encode composite encoded
  obtain ⟨k, other, renamed⟩ := renamed_of_encode lawful composite roster encoded clear
  obtain ⟨waits, inputCount⟩ := head_of_decode codec holds.inputs holds.outputs supply
  exact renamed.callee (Function.body_of_graph? composite) other (patient.trans waits.symm)
    inputCount.symm

/-- **A composite that was read back may stand in for the one that was written.** Every caller that
has the one in its roster gives the same results with the other in its place, and tells the same
events up to identifiers of nodes. The composite has to wait for all of its inputs, and the types of
its values have to be registered. Registered types may be a host's own, as long as they are
lawful. -/
theorem run_replaced (lawful : codec.registry.Lawful) (composite : f.graph? = some g)
    (roster : g.roster = codec.roster) (patient : f.anyInput = false)
    (registered : ∀ value ∈ g.handValues, codec.registry.Holds value) (supply : IdSupply)
    (clear : supply.Clear g.nodes.length (g.nodes.map Node.id)) :
    ∃ r, codec.encode f .withSignature = .ok r ∧
      ∀ (p : Function) (k : Graph Function) (before after : List (Folder Function)) (title : String)
        (left right : List Function), p.graph? = some k →
        k.roster = before ++ ⟨title, left ++ f :: right⟩ :: after →
        ∀ inputs,
          let h := ((codec.decode r).run supply).1.function
          let q := p.withRoster k (before ++ ⟨title, left ++ h :: right⟩ :: after)
          (q.run inputs).result = (p.run inputs).result ∧
            (q.run inputs).events.map Event.unnamed = (p.run inputs).events.map Event.unnamed := by
  obtain ⟨r, encoded⟩ := encode_succeeds composite registered .withSignature
  refine ⟨r, encoded, fun p k before after title left right calls listed inputs => ?_⟩
  have echoes := echoes_of_decode lawful composite roster patient encoded clear
  have same : ∀ row : List Function,
      List.Forall₂ (fun f h : Function => f.callee.Echoes h.callee) row row := fun row =>
    List.forall₂_same.mpr fun f _ => f.echoes_callee
  refine Function.run_withRoster calls ?_ inputs
  simp only [listed, Folder.flatten, List.flatMap_append, List.flatMap_cons]
  exact List.rel_append (same _)
    (List.rel_append (List.rel_append (same _) (.cons echoes (same _))) (same _))

/-! ### Samples -/

/-- A graph whose only node calls a function, with a wire to its first data input and one from its
first data output. -/
def relayGraph (callee : Function) : Graph Function :=
  { Graph.new [⟨"Callee", [callee]⟩] with
    nodes := [.new ⟨.ofNat 2⟩ callee.id ⟨0, 0⟩]
    wires := [⟨⟨.ofNat 3⟩, ⟨.input, 1⟩, ⟨⟨.ofNat 2⟩, 1⟩⟩,
      ⟨⟨.ofNat 4⟩, ⟨⟨.ofNat 2⟩, 1⟩, ⟨.output, 1⟩⟩] }

/-- A composite that hands its input to a function and puts out what it gets. -/
def relay (callee : Function) : Function :=
  .composite "relay" "Relay" [Function.flag] [Function.flag] (relayGraph callee)

/-- The relay that calls what a codec reads in place of what it wrote. -/
def relayed (codec : Codec) (f : Function) (r : Record) : Function :=
  (relay f).withRoster (relayGraph f)
    [⟨"Callee", [((codec.decode r).run .counting).1.function]⟩]

/-- A codec that knows the functions that the inverter calls. -/
def inverterCodec : Codec :=
  ⟨.builtins, Function.inverterGraph.roster, none⟩

theorem inverter_run_replaced :
    (∀ value ∈ Function.inverterGraph.handValues, inverterCodec.registry.Holds value) ∧
      ∃ r, inverterCodec.encode .inverter .withSignature = .ok r ∧
        ((relayed inverterCodec .inverter r).run [.boolean true]).result =
          .ok [.boolean false] := by
  have initial : ∀ value ∈ Function.inverterGraph.handValues, value = .signal := by decide +kernel
  have registered : ∀ value ∈ Function.inverterGraph.handValues,
      inverterCodec.registry.Holds value := fun value member =>
    initial value member ▸ inverterCodec.registry.holds_signal
  have clear : IdSupply.counting.Clear 1 (Function.inverterGraph.nodes.map Node.id) :=
    ⟨by decide +kernel, by decide +kernel, by decide +kernel⟩
  have result : ((relay .inverter).run [.boolean true]).result = .ok [.boolean false] := by
    decide +kernel
  have lawful : inverterCodec.registry.Lawful := Registry.built_builtins.lawful
  obtain ⟨r, encoded, replaced⟩ := run_replaced lawful (show Function.inverter.graph? = _ from rfl)
    rfl rfl registered .counting clear
  exact ⟨registered, r, encoded, (replaced (relay .inverter) (relayGraph .inverter) [] [] "Callee"
    [] [] rfl rfl [.boolean true]).1.trans result⟩

/-- A graph that hands the first input out. -/
def gateGraph : Graph Function :=
  { Graph.new [] with wires := [⟨⟨.ofNat 3⟩, ⟨.input, 1⟩, ⟨.output, 1⟩⟩] }

/-- A composite with two inputs, any one of which is enough. -/
def gate : Function :=
  { Function.composite "gate" "Gate" [Function.flag, ⟨.ofNat 6, "Other", .boolean⟩] [Function.flag]
      gateGraph with
    anyInput := true }

/-- A codec for functions that call no others. -/
def plainCodec : Codec :=
  ⟨.builtins, [], none⟩

/-- **A composite that any one input is enough for** waits for all of them once it was read back. -/
theorem gate_not_replaced : gate.graph? = some gateGraph ∧ gateGraph.roster = plainCodec.roster ∧
    (∀ p ∈ gate.dataInputs ++ gate.dataOutputs, plainCodec.registry.contains p.type = true) ∧
    (∀ value ∈ gateGraph.handValues, plainCodec.registry.Holds value) ∧
      ∃ r, plainCodec.encode gate .withSignature = .ok r ∧
        ((relay gate).run [.boolean true]).result = .ok [.boolean true] ∧
        ((relayed plainCodec gate r).run [.boolean true]).result = .error ⟨none⟩ := by
  have initial : ∀ value ∈ gateGraph.handValues, value = .signal := by decide +kernel
  refine ⟨rfl, rfl, by decide +kernel, fun value member =>
    initial value member ▸ plainCodec.registry.holds_signal, ?_⟩
  have stalls : (plainCodec.encode gate .withSignature).map (fun r =>
      ((relayed plainCodec gate r).run [.boolean true]).result) = .ok (.error ⟨none⟩) := by
    decide +kernel
  cases encoded : plainCodec.encode gate .withSignature with
  | error error =>
    rw [encoded] at stalls
    cases stalls
  | ok r =>
    rw [encoded] at stalls
    exact ⟨r, rfl, by decide +kernel, Except.ok.inj stalls⟩

end Codec

end FlowGraph
