/-
**What a composite computes.**

In a graph whose slots have one feed at most, all of them declared, and whose nodes call functions
that need all their inputs and never fail, a run gives exactly the values that are available: passes
and turns only decide when a value is found.

* `Function.Regular`: composites of this kind;
* `Function.Runs.available`: all that a run produces is available;
* `Function.Runs.shows_available`: a run that stalls has produced all that is available;
* `Function.run_dataflow`: **a run delivers what is available at the Output node, and fails without
  a culprit if something is missing there**, in whatever order nodes and wires are listed.
-/

import FlowGraph.Proofs.Availability
import FlowGraph.Proofs.CleanReport

namespace FlowGraph

namespace Function

/-- The Output node has the signal in its first slot and the given values in the others. -/
structure Delivers (f : Function) (g : Graph Function) (inputs values : List Value) : Prop where
  count : values.length = f.dataOutputs.length
  allowed : g.Available inputs (.input ⟨.output, 0⟩) .signal
  fed : ∀ (place : Nat) (value : Value), values[place]? = some value →
    g.Available inputs (.input ⟨.output, place + 1⟩) value

/-- A composite whose runs depend on availability alone: identifiers are distinct, there are outputs
to deliver, callees need all their inputs and never fail on them, no slot has two feeds, and no slot
is fed that its function does not have. -/
structure Regular (f : Function) (g : Graph Function) : Prop where
  distinct : g.DistinctIds
  wanting : f.dataOutputs ≠ []
  whole : ∀ node ∈ g.nodes, ∀ callee, find? g.roster node.function = some callee →
    callee.anyInput = false
  total : ∀ node ∈ g.nodes, ∀ callee, find? g.roster node.function = some callee →
    ∀ arguments : List Value, arguments.length = callee.inputs.length →
      ∃ outputs, (callee.evaluate arguments).result = .ok outputs
  single : ∀ id ≠ NodeId.input, ∀ slot, g.feedCountOf ⟨id, slot⟩ ≤ 1
  declared : ∀ node ∈ g.nodes, ∀ callee, find? g.roster node.function = some callee →
    ∀ slot, 0 < g.feedCountOf ⟨node.id, slot⟩ → slot < callee.inputs.length
  outputDeclared : ∀ slot, 0 < g.feedCountOf ⟨.output, slot⟩ → slot ≤ f.dataOutputs.length

variable {f : Function} {g : Graph Function} {inputs : List Value}
  {log : List (Nat × List Value)}

/-! ### Regular composites by index -/

/-- A clean composite is regular if its callees need all their inputs and never fail on them. -/
theorem regular_of_clean (clean : f.Clean g) (distinct : g.DistinctIds)
    (wanting : f.dataOutputs ≠ [])
    (callees : ∀ node ∈ g.nodes, ∀ callee, find? g.roster node.function = some callee →
      callee.anyInput = false ∧
        ∀ arguments : List Value, arguments.length = callee.inputs.length →
          ∃ outputs, (callee.evaluate arguments).result = .ok outputs) : f.Regular g := by
  refine ⟨distinct, wanting, fun node member callee known => (callees node member callee known).1,
    fun node member callee known => (callees node member callee known).2, ?_, ?_, ?_⟩
  · intro id _ slot
    cases found : g.indexOf? id with
    | none =>
      rw [Graph.feedCountOf_eq_zero found]
      exact Nat.zero_le 1
    | some index =>
      rw [← Graph.feedCountAt_eq distinct found]
      exact clean.feedCountAt_le_one _
  · intro node member callee known slot fed
    obtain ⟨⟨place, inside⟩, rfl⟩ := List.mem_iff_get.mp member
    have found := distinct.indexOf?_node inside
    rw [← Graph.feedCountAt_eq distinct found] at fed
    exact clean.declared ((calleeIn?_node f inside).trans known) fed
  · intro slot fed
    have found : g.indexOf? .output = some g.outputIndex := rfl
    rw [← Graph.feedCountAt_eq distinct found] at fed
    exact Nat.le_of_lt_succ (clean.declared (calleeIn?_output f g) fed)

namespace Regular

/-- No slot of a node other than the Input node has two feeds. -/
theorem singleAt (regular : f.Regular g) {index : Nat} (inner : index ≠ 0)
    (inside : index < g.nodeCount) (slot : Nat) : g.feedCountAt ⟨index, slot⟩ ≤ 1 := by
  obtain ⟨id, located⟩ : ∃ id, g.nodeIdAt? index = some id := by
    rw [Graph.nodeIdAt?_eq, List.getElem?_eq_getElem (by rw [Graph.length_allNodes]; exact inside)]
    exact ⟨_, rfl⟩
  have found := regular.distinct.indexOf?_of_nodeIdAt? located
  rw [Graph.feedCountAt_eq regular.distinct found]
  refine regular.single id (fun first => inner ?_) slot
  rw [first] at found
  exact (Option.some_injective _ found).symm

/-- The function that a node other than the Input node calls needs all its inputs, and all feeds of
the node are in its slots. -/
theorem calleeAt (regular : f.Regular g) {index : Nat} {callee : Function} (inner : index ≠ 0)
    (calls : f.calleeIn? g index = some callee) :
    callee.anyInput = false ∧ index < g.nodeCount ∧
      ∀ slot, 0 < g.feedCountAt ⟨index, slot⟩ → slot < callee.inputs.length := by
  rcases calleeIn?_cases calls with ⟨first, _⟩ | ⟨rfl, rfl⟩ | ⟨place, inside, rfl, known⟩
  · exact absurd first inner
  · refine ⟨rfl, by unfold Graph.outputIndex Graph.nodeCount; omega, fun slot fed => ?_⟩
    have found : g.indexOf? .output = some g.outputIndex := rfl
    rw [Graph.feedCountAt_eq regular.distinct found] at fed
    exact Nat.lt_succ_of_le (regular.outputDeclared slot fed)
  · have member : g.nodes.get ⟨place, inside⟩ ∈ g.nodes := List.get_mem ..
    refine ⟨regular.whole _ member callee known, by unfold Graph.nodeCount; omega,
      fun slot fed => ?_⟩
    rw [Graph.feedCountAt_eq regular.distinct (regular.distinct.indexOf?_node inside)] at fed
    exact regular.declared _ member callee known slot fed

/-- **A node that can run** has exactly the declared slots, in order. -/
theorem slots (regular : f.Regular g) {index : Nat} {callee : Function} (inner : index ≠ 0)
    (able : f.CanRun g log index callee) :
    (f.feedsAfter g log index).map Prod.fst = List.range callee.inputs.length := by
  obtain ⟨whole, inside, declared⟩ := regular.calleeAt inner able.calls
  have ready := able.ready
  rw [whole] at ready
  exact feedsAfter_slots (regular.singleAt inner inside) declared ready

/-- The first feed of a node that can run is the signal in slot zero. -/
theorem signal (regular : f.Regular g) {index : Nat} {callee : Function} (inner : index ≠ 0)
    (able : f.CanRun g log index callee) :
    ((f.feedsAfter g log index).map Prod.snd).head? = some .signal ∧
      (0, .signal) ∈ f.feedsAfter g log index := by
  have slots := regular.slots inner able
  obtain ⟨slot, rest, shape⟩ := able.allowed.resolve_left inner
  have head : ((f.feedsAfter g log index).map Prod.snd).head? = some .signal := by
    rw [shape]
    rfl
  refine ⟨head, (Feed.getElem?_values slots 0 .signal).mp ?_⟩
  rw [← List.head?_eq_getElem?]
  exact head

/-- The Output node always delivers as many values as there are outputs. -/
theorem length_delivery (regular : f.Regular g) {callee : Function}
    (able : f.CanRun g log g.outputIndex callee) :
    (f.delivery g log).length = f.dataOutputs.length := by
  have slots := regular.slots g.outputIndex_ne_zero able
  rw [able.callee_output] at slots
  exact length_delivery_of_slots slots

end Regular

/-! ### All that a run produces is available -/

/-- The outputs of the nodes of a log are available. -/
def Sound (g : Graph Function) (inputs : List Value) (log : List (Nat × List Value)) : Prop :=
  ∀ index outputs id slot value, (index, outputs) ∈ log → g.nodeIdAt? index = some id →
    outputs[slot]? = some value → g.Available inputs (.output ⟨id, slot⟩) value

/-- The feeds of a node are available if the outputs of all nodes that ran are. -/
theorem available_of_mem_feeds (distinct : g.DistinctIds) (runs : f.Runs g inputs log)
    (sound : Sound g inputs log) {index slot : Nat} {id : NodeId} {value : Value}
    (located : g.nodeIdAt? index = some id) (member : (slot, value) ∈ f.feedsAfter g log index) :
    g.Available inputs (.input ⟨id, slot⟩) value := by
  have found := distinct.indexOf?_of_nodeIdAt? located
  rcases (runs.mem_feeds index slot value).mp member with
    manual | ⟨link, inLinks, stop, outputs, ran, produced⟩
  · rw [← Graph.value?_eq distinct found] at manual
    exact .manual manual
  · obtain ⟨wire, inWires, placed⟩ := Graph.mem_links.mp inLinks
    obtain ⟨foundStart, startSlot, foundStop, stopSlot⟩ := (g.link?_eq_some_iff _ _).mp placed
    rw [stop] at foundStop stopSlot
    have start : g.Available inputs (.output wire.start) value := by
      have available := sound _ _ _ _ _ ran (Graph.nodeIdAt?_of_indexOf? foundStart) produced
      rw [← startSlot] at available
      exact available
    have same : wire.stop = ⟨id, slot⟩ :=
      congrArg₂ Endpoint.mk (Graph.indexOf?_injective foundStop found) stopSlot
    exact same ▸ .wire inWires start

/-- **All that a run produces is available.** -/
theorem Runs.available (regular : f.Regular g) (runs : f.Runs g inputs log) :
    Sound g inputs log := by
  induction runs with
  | start => exact fun _ _ _ _ _ member => absurd member List.not_mem_nil
  | @produces log turn made before fresh produced ih =>
    intro index outputs id slot value member located found
    rcases List.mem_append.mp member with old | new
    · exact ih index outputs id slot value old located found
    · cases List.mem_singleton.mp new
      cases produced with
      | input =>
        cases located
        exact .arguments found
      | @node _ callee _ able inner inside evaluated =>
        have slots := regular.slots inner able
        obtain ⟨node, member, located', known⟩ := calleeIn?_inner inner inside able.calls
        cases located'.symm.trans located
        refine .node member known ?_ (fun place argument given => ?_)
          (regular.signal inner able).1 evaluated found
        · rw [List.length_map, ← List.length_map Prod.fst, slots, List.length_range]
        · exact available_of_mem_feeds regular.distinct before ih located
            ((Feed.getElem?_values slots place argument).mp given)
  | delivers before fresh able ih =>
    intro index outputs id slot value member located found
    rcases List.mem_append.mp member with old | new
    · exact ih index outputs id slot value old located found
    · cases List.mem_singleton.mp new
      cases found

/-- What the Output node delivers is available at its slots. -/
theorem Runs.delivers_delivery (regular : f.Regular g) (runs : f.Runs g inputs log)
    {callee : Function} (able : f.CanRun g log g.outputIndex callee) :
    f.Delivers g inputs (f.delivery g log) := by
  have inner := g.outputIndex_ne_zero
  have slots := regular.slots inner able
  have located := g.nodeIdAt?_output
  refine ⟨regular.length_delivery able, ?_, fun place value found => ?_⟩
  · exact available_of_mem_feeds regular.distinct runs (runs.available regular) located
      (regular.signal inner able).2
  · unfold delivery at found
    rw [List.map_drop, List.getElem?_drop, Nat.add_comm 1 place,
      Feed.getElem?_values slots] at found
    exact available_of_mem_feeds regular.distinct runs (runs.available regular) located found

/-! ### A run that stalls has produced all that is available -/

/-- A value stands at a slot after the nodes of a log have run. -/
def Shows (f : Function) (g : Graph Function) (log : List (Nat × List Value)) : Port → Value → Prop
  | .input slot, value => ∀ index, g.indexOf? slot.node = some index →
      (slot.slot, value) ∈ f.feedsAfter g log index
  | .output slot, value => ∃ index outputs, g.nodeIdAt? index = some slot.node ∧
      (index, outputs) ∈ log ∧ outputs[slot.slot]? = some value

/-- Feeds that fill the declared slots at an earlier log are the values found there later. -/
theorem feedsAfter_values {index : Nat} (single : ∀ slot, g.feedCountAt ⟨index, slot⟩ ≤ 1)
    {earlier : List (Nat × List Value)} (grows : earlier <+: log) {arguments : List Value}
    (slots : (f.feedsAfter g earlier index).map Prod.fst = List.range arguments.length)
    (fed : ∀ (place : Nat) (argument : Value), arguments[place]? = some argument →
      (place, argument) ∈ f.feedsAfter g log index) :
    (f.feedsAfter g earlier index).map Prod.snd = arguments := by
  have count : ((f.feedsAfter g earlier index).map Prod.snd).length = arguments.length := by
    rw [List.length_map, ← List.length_map Prod.fst, slots, List.length_range]
  refine List.ext_getElem? fun place => ?_
  by_cases inside : place < arguments.length
  · have early := List.getElem?_eq_getElem (count ▸ inside)
    have late := List.getElem?_eq_getElem inside
    rw [early, late, feedsAfter_unique single
      (Runs.feeds_mono grows ((Feed.getElem?_values slots _ _).mp early)) (fed _ _ late)]
  · rw [List.getElem?_eq_none_iff.mpr (Nat.le_of_not_lt inside),
      List.getElem?_eq_none_iff.mpr (count ▸ Nat.le_of_not_lt inside)]

/-- A node whose declared inputs all have a value, the signal in slot zero, can run on them. -/
theorem Regular.canRun (regular : f.Regular g) {index : Nat} {callee : Function}
    {arguments : List Value} (inner : index ≠ 0) (calls : f.calleeIn? g index = some callee)
    (count : arguments.length = callee.inputs.length)
    (fed : ∀ (place : Nat) (argument : Value), arguments[place]? = some argument →
      (place, argument) ∈ f.feedsAfter g log index)
    (allowed : arguments.head? = some .signal) : f.CanRun g log index callee := by
  obtain ⟨whole, inside, declared⟩ := regular.calleeAt inner calls
  have single := regular.singleAt inner inside
  have present : ∀ slot < callee.inputs.length,
      ∃ value, (slot, value) ∈ f.feedsAfter g log index := fun slot less =>
    ⟨_, fed slot _ (List.getElem?_eq_getElem (count ▸ less))⟩
  have slots := feedsAfter_slots single declared present
  have values := feedsAfter_values single (List.prefix_refl log) (count ▸ slots) fed
  refine ⟨calls, by rw [whole]; exact present, Or.inr ?_⟩
  rw [← values] at allowed
  cases shape : f.feedsAfter g log index with
  | nil =>
    rw [shape] at allowed
    cases allowed
  | cons feed rest =>
    rw [shape] at allowed
    obtain ⟨slot, value⟩ := feed
    cases allowed
    exact ⟨slot, rest, rfl⟩

/-- **A run in which no node can run any more has produced all that is available.** -/
theorem Runs.shows_available (regular : f.Regular g) (runs : f.Runs g inputs log)
    (stuck : f.Stuck g log) {port : Port} {value : Value}
    (available : g.Available inputs port value) : f.Shows g log port value := by
  have ran : ∀ {index callee}, index < g.nodeCount → f.CanRun g log index callee →
      ∃ outputs, (index, outputs) ∈ log := by
    intro index callee inside able
    by_contra notRan
    refine stuck index inside (fun member => notRan ?_) callee able
    obtain ⟨⟨_, outputs⟩, present, rfl⟩ := List.mem_map.mp member
    exact ⟨outputs, present⟩
  induction available with
  | @arguments slot value found =>
    obtain ⟨outputs, member⟩ := ran (Nat.succ_pos _) (canRun_input f g log)
    refine ⟨0, outputs, rfl, member, ?_⟩
    rcases runs.ran member with ⟨earlier, _, produced⟩ | ⟨last, _⟩
    · cases produced with
      | input => exact found
      | node able inner => exact absurd rfl inner
    · exact absurd last.symm g.outputIndex_ne_zero
  | manual set =>
    intro index located
    rw [Graph.value?_eq regular.distinct located] at set
    exact (runs.mem_feeds _ _ _).mpr (Or.inl set)
  | @wire wire value member start ih =>
    -- A wire whose end exists is a link, since the node that it starts at has run.
    intro index located
    obtain ⟨source, outputs, foundStart, present, produced⟩ := ih
    refine (runs.mem_feeds _ _ _).mpr (Or.inr ⟨⟨⟨source, wire.start.slot⟩, ⟨index, wire.stop.slot⟩⟩,
      ?_, rfl, outputs, present, produced⟩)
    exact Graph.mem_links.mpr ⟨wire, member, (g.link?_eq_some_iff _ _).mpr
      ⟨regular.distinct.indexOf?_of_nodeIdAt? foundStart, rfl, located, rfl⟩⟩
  | @node node callee arguments outputs slot value member known count _ allowed evaluated found
      ih =>
    -- The node runs on the values that are available at its inputs, and it did so when it ran.
    obtain ⟨place, inside, rfl⟩ := List.mem_iff_getElem.mp member
    have calls : f.calleeIn? g (place + 1) = some callee := (calleeIn?_node f inside).trans known
    have inner := Nat.succ_ne_zero place
    have within : place + 1 < g.nodeCount := by unfold Graph.nodeCount; omega
    have fed := fun spot argument given =>
      ih spot argument given (place + 1) (regular.distinct.indexOf?_node inside)
    have able := regular.canRun inner calls count fed allowed
    obtain ⟨made, present⟩ := ran within able
    refine ⟨place + 1, made, g.nodeIdAt?_node inside, present, ?_⟩
    rcases runs.ran present with ⟨earlier, grows, produced⟩ | ⟨last, _⟩
    · cases produced with
      | @node _ caller _ earlierAble _ _ earlierEvaluated =>
        cases Option.some_injective _ (calls.symm.trans earlierAble.calls)
        rw [feedsAfter_values (regular.singleAt inner within) grows
          (count ▸ regular.slots inner earlierAble) fed, evaluated] at earlierEvaluated
        cases earlierEvaluated
        exact found
    · exact absurd last (by unfold Graph.outputIndex; omega)

/-! ### The order of nodes and wires -/

section Reordering

variable {g' : Graph Function} {values : List Value}

theorem Delivers.reorder {f' : Function} (outputs : f.dataOutputs = f'.dataOutputs)
    (same : g.Reorders g') (distinct : g.DistinctIds) (delivers : f.Delivers g inputs values) :
    f'.Delivers g' inputs values :=
  ⟨outputs ▸ delivers.count, same.available distinct delivers.allowed,
    fun place value found => same.available distinct (delivers.fed place value found)⟩

theorem Regular.reorder (same : g.Reorders g') (regular : f.Regular g) :
    (f.setGraph g').Regular g' := by
  have counts := same.feedCountOf_eq regular.distinct
  refine ⟨same.distinctIds regular.distinct, regular.wanting, ?_, ?_, ?_, ?_, ?_⟩
  · rw [← same.roster]
    exact fun node member => regular.whole node (same.nodes.mem_iff.mpr member)
  · rw [← same.roster]
    exact fun node member => regular.total node (same.nodes.mem_iff.mpr member)
  · exact fun id inner slot => counts ⟨id, slot⟩ ▸ regular.single id inner slot
  · rw [← same.roster]
    intro node member callee known slot fed
    rw [← counts] at fed
    exact regular.declared node (same.nodes.mem_iff.mpr member) callee known slot fed
  · intro slot fed
    rw [← counts] at fed
    exact regular.outputDeclared slot fed

end Reordering

/-! ### Runs -/

section Results

variable {values : List Value}

theorem Delivers.unique (regular : f.Regular g) {others : List Value}
    (one : f.Delivers g inputs values) (other : f.Delivers g inputs others) : values = others := by
  refine List.ext_getElem (one.count.trans other.count.symm) fun place inside inside' => ?_
  exact Graph.Available.unique regular.distinct regular.single
    (one.fed place _ (List.getElem?_eq_getElem inside))
    ⟨show NodeId.output ≠ .input by decide, rfl⟩
    (other.fed place _ (List.getElem?_eq_getElem inside'))

/-- No node of a regular composite fails. -/
theorem Regular.not_failed (regular : f.Regular g) {index : Nat} {callee : Function}
    {error : RunError} (inner : index ≠ 0) (inside : index ≠ g.outputIndex)
    (able : f.CanRun g log index callee) :
    (callee.evaluate ((f.feedsAfter g log index).map Prod.snd)).result ≠ .error error := by
  intro failed
  obtain ⟨node, member, _, known⟩ := calleeIn?_inner inner inside able.calls
  have count := congrArg List.length (regular.slots inner able)
  rw [List.length_map, List.length_range, ← List.length_map Prod.snd] at count
  obtain ⟨outputs, evaluated⟩ := regular.total node member callee known _ count
  rw [evaluated] at failed
  cases failed

/-- A run stalls only after the Output node has run, if there is something to deliver. -/
theorem Delivers.output_ran (regular : f.Regular g) (delivers : f.Delivers g inputs values)
    (runs : f.Runs g inputs log) (stuck : f.Stuck g log) : g.outputIndex ∈ log.map Prod.fst := by
  have able : f.CanRun g log g.outputIndex f.outputBoundary := by
    have count : (Value.signal :: values).length = f.outputBoundary.inputs.length :=
      congrArg Nat.succ delivers.count
    refine regular.canRun g.outputIndex_ne_zero (calleeIn?_output f g) count
      (fun place argument given => ?_) rfl
    cases place with
    | zero =>
      cases given
      exact runs.shows_available regular stuck delivers.allowed g.outputIndex rfl
    | succ place =>
      exact runs.shows_available regular stuck (delivers.fed place argument given) g.outputIndex rfl
  by_contra notRan
  exact stuck g.outputIndex (Nat.lt_succ_self _) notRan _ able

/-- **A run gives values exactly if the Output node delivers them.** -/
theorem run_ok_iff (composite : f.body = .composite g) (regular : f.Regular g)
    (inputs values : List Value) :
    (f.run inputs).result = .ok values ↔ f.Delivers g inputs values := by
  have ends := run_ends composite inputs
  generalize (f.run inputs).result = result at ends
  cases ends with
  | delivered runs able complete =>
    have delivers := runs.delivers_delivery regular able
    constructor
    · intro same
      cases same
      exact delivers
    · intro others
      rw [delivers.unique regular others]
  | needless wanting => exact absurd wanting regular.wanting
  | failed runs inner inside able failed =>
    exact absurd failed (regular.not_failed inner inside able)
  | stalled runs wanting stuck refused =>
    refine ⟨fun same => (by cases same), fun delivers => ?_⟩
    obtain ⟨earlier, callee, able, short⟩ := refused (delivers.output_ran regular runs stuck)
    exact absurd (regular.length_delivery able) short

/-- A run fails only without a culprit. -/
theorem run_error (composite : f.body = .composite g) (regular : f.Regular g)
    {inputs : List Value} {error : RunError} (failed : (f.run inputs).result = .error error) :
    error = ⟨none⟩ := by
  have ends := run_ends composite inputs
  rw [failed] at ends
  cases ends with
  | failed runs inner inside able culprit =>
    exact absurd culprit (regular.not_failed inner inside able)
  | stalled runs wanting stuck refused => rfl

theorem run_of_not_delivers (composite : f.body = .composite g) (regular : f.Regular g)
    (missing : ∀ values, ¬ f.Delivers g inputs values) : (f.run inputs).result = .error ⟨none⟩ := by
  cases result : (f.run inputs).result with
  | ok values =>
    exact absurd ((run_ok_iff composite regular inputs values).mp result) (missing values)
  | error error => rw [run_error composite regular result]

/-- **A run of a regular composite delivers what is available at the Output node**, fails without a
culprit if something is missing there, and does not depend on the order of nodes and wires. -/
theorem run_dataflow (composite : f.body = .composite g) (regular : f.Regular g)
    (inputs : List Value) :
    (∀ values, (f.run inputs).result = .ok values ↔ f.Delivers g inputs values) ∧
      ((∀ values, ¬ f.Delivers g inputs values) → (f.run inputs).result = .error ⟨none⟩) ∧
      ∀ g', g.Reorders g' → ((f.setGraph g').run inputs).result = (f.run inputs).result := by
  refine ⟨run_ok_iff composite regular inputs, run_of_not_delivers composite regular, ?_⟩
  intro g' same
  have composite' : (f.setGraph g').body = .composite g' := rfl
  have outputs : f.dataOutputs = (f.setGraph g').dataOutputs := rfl
  have regular' := regular.reorder same
  by_cases delivers : ∃ values, f.Delivers g inputs values
  · obtain ⟨values, delivers⟩ := delivers
    rw [(run_ok_iff composite regular inputs values).mpr delivers]
    exact (run_ok_iff composite' regular' inputs values).mpr
      (delivers.reorder outputs same regular.distinct)
  · rw [run_of_not_delivers composite regular fun values found => delivers ⟨values, found⟩]
    refine run_of_not_delivers composite' regular' fun values found => delivers ⟨values, ?_⟩
    exact Delivers.reorder outputs.symm same.symm regular'.distinct found

end Results

theorem regular_inverter : inverter.Regular inverterGraph := by
  refine regular_of_clean (clean_of_validate rfl inverterGraph_distinctIds validate_inverter)
    inverterGraph_distinctIds (by decide +kernel) fun node _ callee known => ?_
  cases find?_inverterGraph known
  exact ⟨rfl, fun arguments _ => ⟨_, evaluate_native rfl arguments⟩⟩

theorem inverter_dataflow :
    inverter.Regular inverterGraph ∧
      inverter.Delivers inverterGraph [.boolean true] [.boolean false] :=
  ⟨regular_inverter, ((run_dataflow rfl regular_inverter _).1 _).mp (by decide +kernel)⟩

end Function

end FlowGraph
