/-
**What a clean report says.**

The report on a composite is empty exactly if its wires and values fit the functions that its nodes
call. Here this is said by index, the way in which runs look at a composite.

* `Function.Fits`: a value may stand in a slot;
* `Function.nodeProblems_eq_nil_iff`, `Function.wireProblems_eq_nil_iff`,
  `Function.feedProblems_eq_nil_iff`: each part of the report;
* `Function.clean_of_validate`: **a composite with a clean report is clean**;
* `Function.Clean.feedCountAt_le_one`: a clean composite feeds no slot twice.
-/

import FlowGraph.Proofs.Composite
import FlowGraph.Validation

namespace FlowGraph

namespace Function

variable {f : Function} {g : Graph Function}

/-- A value may stand in an input slot: the slot is declared and has the type of the value. -/
def Fits (inputs : List Parameter) (slot : Nat) (value : Value) : Prop :=
  ∃ p, inputs[slot]? = some p ∧ p.type = value.tag

/-- A wire joins slots that are declared and have one type. -/
def Joins (f : Function) (g : Graph Function) (link : Link) : Prop :=
  ∀ source target, f.calleeIn? g link.start.node = some source →
    f.calleeIn? g link.stop.node = some target →
      ∃ output input, source.outputs[link.start.slot]? = some output ∧
        target.inputs[link.stop.slot]? = some input ∧ output.type = input.type

/-- A composite all of whose nodes call known functions, whose values and wires fit these, and in
which no input has two wires or a wire and a value. -/
structure Clean (f : Function) (g : Graph Function) : Prop where
  known : ∀ index < g.nodeCount, ∃ callee, f.calleeIn? g index = some callee
  values : ∀ index callee, f.calleeIn? g index = some callee →
    ∀ slot value, (g.valuesAt index).get? slot = some value → Fits callee.inputs slot value
  attached : ∀ wire ∈ g.wires, (g.link? wire).isSome
  joins : ∀ link ∈ g.links, f.Joins g link
  unshadowed : ∀ link ∈ g.links, (g.valuesAt link.stop.node).get? link.stop.slot = none
  once : ∀ place, (g.links.countP fun link => link.stop = place) ≤ 1

/-! ### Nodes -/

theorem valueProblem?_eq_none_iff (node : NodeId) (inputs : List Parameter) (slot : Nat)
    (value : Value) : valueProblem? node inputs slot value = none ↔ Fits inputs slot value := by
  unfold valueProblem? Fits
  cases inputs[slot]? with
  | none => simp
  | some p => simp

theorem nodeProblems_eq_nil_iff {index : Nat} {node : Node}
    (found : g.indexOf? node.id = some index) :
    f.nodeProblems g node = [] ↔ ∃ callee, f.calleeIn? g index = some callee ∧
      ∀ slot value, node.values.get? slot = some value → Fits callee.inputs slot value := by
  unfold nodeProblems
  rw [found]
  dsimp only
  cases f.calleeIn? g index with
  | none => simp
  | some callee =>
    simp only [List.filterMap_eq_nil_iff, valueProblem?_eq_none_iff, Option.some.injEq,
      Slots.get?_eq_some_iff, Prod.forall, exists_eq_left']

/-! ### Wires -/

theorem slotProblems_eq_nil_iff (f : Function) (g : Graph Function) (wire : Wire) (link : Link) :
    f.slotProblems g wire link = [] ↔ f.Joins g link := by
  unfold slotProblems
  cases first : f.calleeIn? g link.start.node with
  | none => exact ⟨fun _ _ _ known => absurd (first.symm.trans known) (by simp), fun _ => rfl⟩
  | some source =>
    cases second : f.calleeIn? g link.stop.node with
    | none => exact ⟨fun _ _ _ _ known => absurd (second.symm.trans known) (by simp), fun _ => rfl⟩
    | some target =>
      have only : f.Joins g link ↔ ∃ output input, source.outputs[link.start.slot]? = some output ∧
          target.inputs[link.stop.slot]? = some input ∧ output.type = input.type := by
        constructor
        · exact fun joins => joins source target first second
        · intro agree source' target' one other
          cases first.symm.trans one
          cases second.symm.trans other
          exact agree
      rw [only]
      dsimp only
      cases source.outputs[link.start.slot]? with
      | none => simp
      | some output =>
        cases target.inputs[link.stop.slot]? with
        | none => simp
        | some input => simp

theorem wireProblems_eq_nil_iff (f : Function) (g : Graph Function) (wire : Wire) :
    f.wireProblems g wire = [] ↔ ∃ link, g.link? wire = some link ∧
      g.value? wire.stop.node wire.stop.slot = none ∧ f.Joins g link := by
  unfold wireProblems Graph.link?
  cases g.indexOf? wire.start.node with
  | none => simp
  | some start =>
    cases g.indexOf? wire.stop.node with
    | none => simp
    | some stop =>
      simp only [List.append_eq_nil_iff, slotProblems_eq_nil_iff, shadowProblems]
      cases g.value? wire.stop.node wire.stop.slot with
      | none => simp
      | some value => simp

/-! ### Inputs with several wires -/

theorem feedProblems_eq_nil_iff (g : Graph Function) :
    feedProblems g = [] ↔ (fedInputs g).Nodup := by
  have empty : ∀ things : List (Place × Endpoint),
      arrange (fun a b => noLater a.1 b.1) things = [] ↔ things = [] := by
    intro things
    constructor
    · intro none
      exact (List.Perm.nil_eq (none ▸ arrange_perm things)).symm
    · intro none
      rw [none]
      rfl
  unfold feedProblems
  dsimp only
  rw [List.map_eq_nil_iff, empty, List.filter_eq_nil_iff, List.nodup_iff_count_le_one]
  constructor
  · intro few input
    by_cases member : input ∈ fedInputs g
    · have := few input (List.mem_eraseDups.mpr member)
      simpa using this
    · rw [List.count_eq_zero.mpr member]
      exact Nat.zero_le 1
  · intro few input _
    simpa using few input

/-- The places of the inputs that wires end at. -/
theorem map_fst_fedInputs (g : Graph Function) :
    (fedInputs g).map Prod.fst = g.links.map Link.stop := by
  unfold fedInputs Graph.links
  rw [List.map_filterMap, List.map_filterMap]
  refine List.filterMap_congr fun wire _ => ?_
  cases g.link? wire <;> rfl

theorem fedInputs_endpoint {place : Place} {slot : Endpoint}
    (member : (place, slot) ∈ fedInputs g) :
    g.indexOf? slot.node = some place.node ∧ slot.slot = place.slot := by
  obtain ⟨wire, _, same⟩ := List.mem_filterMap.mp member
  obtain ⟨link, placed, pair⟩ := Option.map_eq_some_iff.mp same
  cases pair
  obtain ⟨_, _, found, slots⟩ := (g.link?_eq_some_iff wire link).mp placed
  exact ⟨found, slots⟩

/-- No input has two wires if no pair of a place and its identifier is listed twice. -/
theorem countP_stop_le_one (once : (fedInputs g).Nodup) (place : Place) :
    (g.links.countP fun link => link.stop = place) ≤ 1 := by
  have distinct : ((fedInputs g).map Prod.fst).Nodup := by
    refine (List.nodup_map_iff_inj_on once).mpr fun first one second other same => ?_
    obtain ⟨foundFirst, slotFirst⟩ := fedInputs_endpoint one
    obtain ⟨foundSecond, slotSecond⟩ := fedInputs_endpoint other
    rw [← same] at foundSecond slotSecond
    have ids := Graph.indexOf?_injective foundFirst foundSecond
    have slots := slotFirst.trans slotSecond.symm
    obtain ⟨firstPlace, ⟨firstId, firstSlot⟩⟩ := first
    obtain ⟨secondPlace, ⟨secondId, secondSlot⟩⟩ := second
    cases same
    cases ids
    cases slots
    rfl
  rw [map_fst_fedInputs] at distinct
  have few := List.nodup_iff_count_le_one.mp distinct place
  rw [List.count, List.countP_map] at few
  refine le_trans (le_of_eq (List.countP_congr fun link _ => ?_)) few
  simp

/-! ### Composites -/

/-- The report on a composite without a registry. -/
theorem validate_eq_nil_iff (composite : f.body = .composite g) :
    f.validate none = [] ↔ (∀ node ∈ g.allNodes, f.nodeProblems g node = []) ∧
      (∀ wire ∈ g.wires, f.wireProblems g wire = []) ∧ feedProblems g = [] := by
  unfold validate graph?
  rw [composite]
  simp only [List.nil_append, List.append_eq_nil_iff, List.flatMap_eq_nil_iff, and_assoc]

/-- **A composite with a clean report is clean.** -/
theorem clean_of_validate (composite : f.body = .composite g) (distinct : g.DistinctIds)
    (empty : f.validate none = []) : f.Clean g := by
  obtain ⟨nodes, wires, feeds⟩ := (validate_eq_nil_iff composite).mp empty
  have located : ∀ index node, g.allNodes[index]? = some node → ∃ callee,
      f.calleeIn? g index = some callee ∧
        ∀ slot value, node.values.get? slot = some value → Fits callee.inputs slot value := by
    intro index node present
    refine (nodeProblems_eq_nil_iff (distinct.indexOf?_of_nodeIdAt? ?_)).mp
      (nodes node (List.mem_of_getElem? present))
    rw [Graph.nodeIdAt?_eq, present]
    rfl
  have wired : ∀ link ∈ g.links, f.Joins g link ∧
      (g.valuesAt link.stop.node).get? link.stop.slot = none := by
    intro link member
    obtain ⟨wire, inWires, placed⟩ := Graph.mem_links.mp member
    obtain ⟨link', placed', absent, joins⟩ :=
      (wireProblems_eq_nil_iff f g wire).mp (wires wire inWires)
    cases placed.symm.trans placed'
    obtain ⟨_, _, found, slot⟩ := (g.link?_eq_some_iff wire link).mp placed
    rw [Graph.value?_eq distinct found, slot] at absent
    exact ⟨joins, absent⟩
  refine ⟨fun index inside => ?_, fun index callee calls slot value set => ?_,
    fun wire member => ?_, fun link member => (wired link member).1,
    fun link member => (wired link member).2,
    countP_stop_le_one ((feedProblems_eq_nil_iff g).mp feeds)⟩
  · obtain ⟨callee, calls, _⟩ := located index _
      (List.getElem?_eq_getElem (by rw [Graph.length_allNodes]; exact inside))
    exact ⟨callee, calls⟩
  · unfold Graph.valuesAt at set
    cases present : g.allNodes[index]? with
    | none =>
      rw [present] at set
      cases set
    | some node =>
      rw [present] at set
      obtain ⟨callee', calls', fits⟩ := located index node present
      cases calls.symm.trans calls'
      exact fits slot value set
  · obtain ⟨link, placed, _⟩ := (wireProblems_eq_nil_iff f g wire).mp (wires wire member)
    rw [placed]
    rfl

namespace Clean

/-- **A clean composite feeds no slot twice.** -/
theorem feedCountAt_le_one (clean : f.Clean g) (place : Place) : g.feedCountAt place ≤ 1 := by
  have few := clean.once place
  unfold Graph.feedCountAt
  by_cases wired : ∃ link ∈ g.links, link.stop = place
  · obtain ⟨link, member, rfl⟩ := wired
    rw [clean.unshadowed link member]
    exact few
  · have none : (g.links.countP fun link => link.stop = place) = 0 := by
      refine List.countP_eq_zero.mpr fun link member => ?_
      simpa using fun same => wired ⟨link, member, same⟩
    rw [none]
    split <;> simp

/-- **A wire of a clean composite** joins declared slots of one type. -/
theorem wire (clean : f.Clean g) {link : Link} (member : link ∈ g.links) :
    ∃ source target output input, f.calleeIn? g link.start.node = some source ∧
      f.calleeIn? g link.stop.node = some target ∧
      source.outputs[link.start.slot]? = some output ∧
      target.inputs[link.stop.slot]? = some input ∧ output.type = input.type := by
  obtain ⟨start, stop⟩ := Graph.link_inside member
  obtain ⟨source, calls⟩ := clean.known _ start
  obtain ⟨target, called⟩ := clean.known _ stop
  obtain ⟨output, input, found⟩ := clean.joins link member source target calls called
  exact ⟨source, target, output, input, calls, called, found⟩

theorem start_ne_output (clean : f.Clean g) {link : Link} (member : link ∈ g.links) :
    link.start.node ≠ g.outputIndex := by
  intro last
  obtain ⟨source, _, output, _, calls, _, found, _⟩ := clean.wire member
  rw [last, calleeIn?_output] at calls
  cases calls
  cases found

theorem stop_ne_input (clean : f.Clean g) {link : Link} (member : link ∈ g.links) :
    link.stop.node ≠ 0 := by
  intro first
  obtain ⟨_, target, _, input, _, called, _, found, _⟩ := clean.wire member
  rw [first] at called
  cases called
  cases found

/-- A clean composite feeds only slots that are declared. -/
theorem declared (clean : f.Clean g) {index : Nat} {callee : Function}
    (calls : f.calleeIn? g index = some callee) {slot : Nat}
    (fed : 0 < g.feedCountAt ⟨index, slot⟩) : slot < callee.inputs.length := by
  unfold Graph.feedCountAt at fed
  by_cases set : ((g.valuesAt index).get? slot).isSome
  · obtain ⟨value, set⟩ := Option.isSome_iff_exists.mp set
    obtain ⟨p, found, _⟩ := clean.values index callee calls slot value set
    exact (List.getElem?_eq_some_iff.mp found).1
  · rw [if_neg set, Nat.add_zero, List.countP_pos_iff] at fed
    obtain ⟨link, member, stop⟩ := fed
    obtain ⟨_, target, _, input, _, called, _, found, _⟩ := clean.wire member
    rw [of_decide_eq_true stop] at called found
    cases calls.symm.trans called
    exact (List.getElem?_eq_some_iff.mp found).1

/-- **A node of a clean composite that has a feed in every declared slot** has exactly these, in
order. -/
theorem slots (clean : f.Clean g) {log : List (Nat × List Value)} {index : Nat} {callee : Function}
    (calls : f.calleeIn? g index = some callee)
    (present : ∀ slot < callee.inputs.length, ∃ value, (slot, value) ∈ f.feedsAfter g log index) :
    (f.feedsAfter g log index).map Prod.fst = List.range callee.inputs.length :=
  feedsAfter_slots (fun _ => clean.feedCountAt_le_one _) (fun _ => clean.declared calls) present

end Clean

/-! ### A clean composite -/

/-- The parameter of the sample functions. -/
def flag : Parameter :=
  ⟨.ofNat 1, "Flag", .boolean⟩

/-- A native function that turns a truth value around. -/
def negation : Function :=
  native "not" "Not" [flag] [flag] fun arguments =>
    [.boolean !((arguments.head?.bind Value.boolean?).getD false)]

/-- A graph with one node, which calls the negation. -/
def inverterGraph : Graph Function :=
  { Graph.new [⟨"Logic", [negation]⟩] with
    nodes := [.new ⟨.ofNat 2⟩ "not" ⟨0, 0⟩]
    wires := [⟨⟨.ofNat 3⟩, ⟨.input, 1⟩, ⟨⟨.ofNat 2⟩, 1⟩⟩,
      ⟨⟨.ofNat 4⟩, ⟨⟨.ofNat 2⟩, 1⟩, ⟨.output, 1⟩⟩] }

/-- A composite that turns a truth value around. -/
def inverter : Function :=
  composite "inverter" "Inverter" [flag] [flag] inverterGraph

theorem inverterGraph_distinctIds : inverterGraph.DistinctIds :=
  ⟨by decide +kernel, by decide +kernel⟩

theorem validate_inverter : inverter.validate none = [] := by
  decide +kernel

/-- The only function that the nodes of the sample graph find is the negation. -/
theorem find?_inverterGraph {id : String} {callee : Function}
    (known : find? inverterGraph.roster id = some callee) : callee = negation :=
  List.mem_singleton.mp (List.mem_of_find?_eq_some known)

end Function

end FlowGraph
