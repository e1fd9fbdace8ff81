/-
**The report by identifier.**

Wires name their nodes by identifier, and edits of a graph move nodes but leave identifiers alone.
So what a clean report says is said here once more without indices: which function a node calls,
which values are set on it, and which wires end where.

* `Function.Tidy`: a composite whose nodes, values and wires fit;
* `Function.calleeIn?_eq_calleeOf?`: callees by index and by identifier;
* `Function.nodes_clean_iff`, `Function.wires_clean_iff`, `Function.feeds_clean_iff`: each part of
  the report;
* `Function.validate_eq_nil_iff_tidy`: **the report is empty exactly for tidy composites** whose
  types are registered.
-/

import FlowGraph.Proofs.CleanReport
import FlowGraph.Proofs.Positions

namespace FlowGraph

namespace Graph

variable {F : Type}

/-- The values set by hand on the node with an identifier. -/
def valuesOf (g : Graph F) (id : NodeId) : Slots :=
  if id = .output then g.outputValues else (g.node? id).elim .empty Node.values

theorem value?_eq_get? (g : Graph F) (id : NodeId) (slot : Nat) :
    g.value? id slot = (g.valuesOf id).get? slot := by
  unfold value? valuesOf
  split
  · rfl
  · cases g.node? id <;> rfl

end Graph

namespace Function

variable {f : Function} {g : Graph Function}

/-! ### Tidy composites -/

/-- The function called by the node with an identifier. -/
def calleeOf? (f : Function) (g : Graph Function) (id : NodeId) : Option Function :=
  if id = .input then some f.inputBoundary
  else if id = .output then some f.outputBoundary
  else ((g.node? id).map Node.function).bind (find? g.roster)

/-- Every value stands in a slot that may hold it. -/
def Suits (inputs : List Parameter) (values : Slots) : Prop :=
  ∀ slot value, values.get? slot = some value → Fits inputs slot value

/-- A wire joins declared slots of one type. -/
def Carries (f : Function) (g : Graph Function) (wire : Wire) : Prop :=
  ∃ source target output input, f.calleeOf? g wire.start.node = some source ∧
    f.calleeOf? g wire.stop.node = some target ∧
    source.outputs[wire.start.slot]? = some output ∧
    target.inputs[wire.stop.slot]? = some input ∧ output.type = input.type

/-- A composite all of whose nodes call known functions, whose values and wires fit these, and in
which no input has two wires or a wire and a value; said by identifier. -/
structure Tidy (f : Function) (g : Graph Function) : Prop where
  known : ∀ node ∈ g.nodes, (find? g.roster node.function).isSome
  suits : ∀ id callee, f.calleeOf? g id = some callee → Suits callee.inputs (g.valuesOf id)
  wires : ∀ wire ∈ g.wires, f.Carries g wire
  unshadowed : ∀ wire ∈ g.wires, (g.valuesOf wire.stop.node).get? wire.stop.slot = none
  once : (g.wires.map Wire.stop).Nodup

/-! ### The report by identifier -/

/-- The functions that nodes call, by identifier and by index. -/
theorem calleeIn?_eq_calleeOf? (f : Function) {id : NodeId} {index : Nat}
    (found : g.indexOf? id = some index) : f.calleeIn? g index = f.calleeOf? g id := by
  unfold calleeOf?
  by_cases first : id = .input
  · rw [first] at found
    cases found
    rw [if_pos first]
    rfl
  · by_cases last : id = .output
    · rw [last] at found
      cases found
      rw [if_neg first, if_pos last, calleeIn?_output]
    · unfold Graph.indexOf? at found
      rw [if_neg first, if_neg last] at found
      obtain ⟨place, search, rfl⟩ := Option.map_eq_some_iff.mp found
      obtain ⟨inside, has, earliest⟩ := List.findIdx?_eq_some_iff_getElem.mp search
      have present : g.node? id = some (g.nodes.get ⟨place, inside⟩) :=
        List.find?_eq_some_iff_getElem.mpr ⟨has, place, inside, rfl, fun earlier less => by
          simpa using earliest earlier less⟩
      rw [if_neg first, if_neg last, calleeIn?_node f inside, present]
      rfl

/-- A node that calls a function is there. -/
theorem isSome_indexOf?_of_calleeOf? {id : NodeId} {callee : Function}
    (calls : f.calleeOf? g id = some callee) : (g.indexOf? id).isSome := by
  rw [Graph.indexOf?_isSome_iff]
  unfold calleeOf? at calls
  split at calls
  · next first => exact Or.inl first
  · split at calls
    · next last => exact Or.inr (Or.inl last)
    · obtain ⟨function, called, _⟩ := Option.bind_eq_some_iff.mp calls
      obtain ⟨node, present, _⟩ := Option.map_eq_some_iff.mp called
      have same := List.find?_some present
      exact Or.inr (Or.inr ⟨node, List.mem_of_find?_eq_some present, of_decide_eq_true same⟩)

/-- A node that calls a function is one of the user's, unless it is virtual. -/
theorem exists_node_of_calleeOf? {id : NodeId} {callee : Function}
    (calls : f.calleeOf? g id = some callee) (inner : id.isBoundary = false) :
    ∃ node ∈ g.nodes, node.id = id := by
  obtain ⟨notInput, notOutput⟩ := NodeId.isBoundary_eq_false_iff.mp inner
  have present := isSome_indexOf?_of_calleeOf? calls
  rw [Graph.indexOf?_isSome_iff] at present
  exact (present.resolve_left notInput).resolve_left notOutput

theorem Carries.link? {wire : Wire} (carries : f.Carries g wire) :
    ∃ link, g.link? wire = some link := by
  obtain ⟨source, target, _, _, calls, called, _⟩ := carries
  obtain ⟨start, foundStart⟩ :=
    Option.isSome_iff_exists.mp (isSome_indexOf?_of_calleeOf? calls)
  obtain ⟨stop, foundStop⟩ := Option.isSome_iff_exists.mp (isSome_indexOf?_of_calleeOf? called)
  exact ⟨⟨⟨start, wire.start.slot⟩, ⟨stop, wire.stop.slot⟩⟩,
    (g.link?_eq_some_iff wire _).mpr ⟨foundStart, rfl, foundStop, rfl⟩⟩

/-- A tidy graph with distinct identifiers is whole. -/
theorem Tidy.whole (tidy : f.Tidy g) (distinct : g.DistinctIds) : g.Whole where
  distinct := distinct
  joined wire member := by
    obtain ⟨link, placed⟩ := (tidy.wires wire member).link?
    exact Option.isSome_of_eq_some placed

theorem valuesOf_node (distinct : g.DistinctIds) {node : Node} (member : node ∈ g.allNodes) :
    g.valuesOf node.id = node.values := by
  unfold Graph.valuesOf
  rcases List.mem_append.mp member with front | back
  · rcases List.mem_cons.mp front with rfl | inner
    · have absent : g.node? g.inputNode.id = none := by
        rw [Option.eq_none_iff_forall_ne_some]
        intro other found
        obtain ⟨inNodes, same⟩ := (distinct.node?_eq_some_iff _ other).mp found
        exact distinct.ne_input inNodes same
      have differ : g.inputNode.id ≠ .output := show NodeId.input ≠ .output by decide
      rw [if_neg differ, absent]
      rfl
    · rw [if_neg (distinct.ne_output inner),
        (distinct.node?_eq_some_iff node.id node).mpr ⟨inner, rfl⟩]
      rfl
  · cases List.mem_singleton.mp back
    exact if_pos rfl

theorem calleeOf?_node (f : Function) (distinct : g.DistinctIds) {node : Node}
    (member : node ∈ g.nodes) : f.calleeOf? g node.id = find? g.roster node.function := by
  unfold calleeOf?
  rw [if_neg (distinct.ne_input member), if_neg (distinct.ne_output member),
    (distinct.node?_eq_some_iff node.id node).mpr ⟨member, rfl⟩]
  rfl

/-- The part of the report on nodes. -/
theorem nodes_clean_iff (distinct : g.DistinctIds) :
    (∀ node ∈ g.allNodes, f.nodeProblems g node = []) ↔
      (∀ node ∈ g.nodes, (find? g.roster node.function).isSome) ∧
        ∀ id callee, f.calleeOf? g id = some callee → Suits callee.inputs (g.valuesOf id) := by
  have each : ∀ node ∈ g.allNodes, f.nodeProblems g node = [] ↔
      ∃ callee, f.calleeOf? g node.id = some callee ∧ Suits callee.inputs (g.valuesOf node.id) := by
    intro node member
    obtain ⟨index, inside, present⟩ := List.getElem_of_mem member
    have located : g.nodeIdAt? index = some node.id := by
      rw [Graph.nodeIdAt?_eq, List.getElem?_eq_getElem inside, present]
      rfl
    have found := distinct.indexOf?_of_nodeIdAt? located
    rw [nodeProblems_eq_nil_iff found, calleeIn?_eq_calleeOf? f found,
      valuesOf_node distinct member]
    rfl
  constructor
  · intro clean
    refine ⟨fun node member => ?_, fun id callee calls => ?_⟩
    · have listed : node ∈ g.allNodes := List.mem_append_left _ (List.mem_cons_of_mem _ member)
      obtain ⟨callee, calls, _⟩ := (each node listed).mp (clean node listed)
      rw [← calleeOf?_node f distinct member, calls]
      rfl
    · obtain ⟨index, found⟩ := Option.isSome_iff_exists.mp (isSome_indexOf?_of_calleeOf? calls)
      have located := Graph.nodeIdAt?_of_indexOf? found
      rw [Graph.nodeIdAt?_eq] at located
      obtain ⟨node, present, rfl⟩ := Option.map_eq_some_iff.mp located
      have listed := List.mem_of_getElem? present
      obtain ⟨callee', calls', suits⟩ := (each node listed).mp (clean node listed)
      cases calls.symm.trans calls'
      exact suits
  · rintro ⟨known, suits⟩ node member
    refine (each node member).mpr ?_
    have called : ∃ callee, f.calleeOf? g node.id = some callee := by
      rcases List.mem_append.mp member with front | back
      · rcases List.mem_cons.mp front with rfl | inner
        · exact ⟨_, if_pos rfl⟩
        · rw [calleeOf?_node f distinct inner]
          exact Option.isSome_iff_exists.mp (known node inner)
      · cases List.mem_singleton.mp back
        have differ : g.outputNode.id ≠ .input := show NodeId.output ≠ .input by decide
        exact ⟨_, (if_neg differ).trans (if_pos rfl)⟩
    obtain ⟨callee, calls⟩ := called
    exact ⟨callee, calls, suits node.id callee calls⟩

/-- The part of the report on wires. -/
theorem wires_clean_iff (known : ∀ index < g.nodeCount,
      ∃ callee, f.calleeIn? g index = some callee) (wire : Wire) :
    f.wireProblems g wire = [] ↔
      f.Carries g wire ∧ (g.valuesOf wire.stop.node).get? wire.stop.slot = none := by
  rw [wireProblems_eq_nil_iff, Graph.value?_eq_get?]
  constructor
  · rintro ⟨link, placed, absent, joins⟩
    obtain ⟨start, startSlot, stop, stopSlot⟩ := (g.link?_eq_some_iff wire link).mp placed
    obtain ⟨source, calls⟩ := known _ (Graph.indexOf?_lt start)
    obtain ⟨target, called⟩ := known _ (Graph.indexOf?_lt stop)
    obtain ⟨output, input, has, takes, same⟩ := joins source target calls called
    rw [calleeIn?_eq_calleeOf? f start] at calls
    rw [calleeIn?_eq_calleeOf? f stop] at called
    rw [← startSlot] at has
    rw [← stopSlot] at takes
    exact ⟨⟨source, target, output, input, calls, called, has, takes, same⟩, absent⟩
  · rintro ⟨carries, absent⟩
    obtain ⟨link, placed⟩ := carries.link?
    obtain ⟨start, startSlot, stop, stopSlot⟩ := (g.link?_eq_some_iff wire link).mp placed
    refine ⟨link, placed, absent, fun source target calls called => ?_⟩
    obtain ⟨source', target', output, input, calls', called', has, takes, same⟩ := carries
    rw [calleeIn?_eq_calleeOf? f start] at calls
    rw [calleeIn?_eq_calleeOf? f stop] at called
    cases calls'.symm.trans calls
    cases called'.symm.trans called
    exact ⟨output, input, startSlot ▸ has, stopSlot ▸ takes, same⟩

/-- The part of the report on inputs with several wires. -/
theorem feeds_clean_iff (joined : ∀ wire ∈ g.wires, (g.link? wire).isSome) :
    feedProblems g = [] ↔ (g.wires.map Wire.stop).Nodup := by
  have stops : (fedInputs g).map Prod.snd = g.wires.map Wire.stop := by
    unfold fedInputs
    rw [List.map_filterMap, ← List.filterMap_eq_map]
    refine List.filterMap_congr fun wire member => ?_
    obtain ⟨link, placed⟩ := Option.isSome_iff_exists.mp (joined wire member)
    rw [placed]
    rfl
  rw [feedProblems_eq_nil_iff, ← stops]
  refine ⟨fun once => (List.nodup_map_iff_inj_on once).mpr ?_, List.Nodup.of_map Prod.snd⟩
  -- The place of an input is determined by its identifier and slot.
  rintro ⟨⟨node, slot⟩, stop⟩ one ⟨⟨node', slot'⟩, stop'⟩ other rfl
  obtain ⟨found, same⟩ := fedInputs_endpoint one
  obtain ⟨found', same'⟩ := fedInputs_endpoint other
  cases Option.some_injective _ (found.symm.trans found')
  cases same.symm.trans same'
  rfl

/-- **The report is empty exactly for tidy composites.** -/
theorem validate_none_iff_tidy (composite : f.body = .composite g) (distinct : g.DistinctIds) :
    f.validate none = [] ↔ f.Tidy g := by
  have located : (∀ node ∈ g.nodes, (find? g.roster node.function).isSome) →
      ∀ index < g.nodeCount, ∃ callee, f.calleeIn? g index = some callee := by
    intro known index inside
    rcases g.index_cases index with rfl | ⟨place, within, rfl⟩ | rfl | beyond
    · exact ⟨_, rfl⟩
    · rw [calleeIn?_node f within]
      exact Option.isSome_iff_exists.mp (known _ (List.get_mem ..))
    · exact ⟨_, calleeIn?_output f g⟩
    · exact absurd inside (Nat.not_lt.mpr beyond)
  rw [validate_eq_nil_iff composite, nodes_clean_iff distinct]
  constructor
  · rintro ⟨⟨known, suits⟩, wires, once⟩
    have each := fun wire member => (wires_clean_iff (located known) wire).mp (wires wire member)
    have joined : ∀ wire ∈ g.wires, (g.link? wire).isSome := fun wire member => by
      obtain ⟨link, placed⟩ := (each wire member).1.link?
      exact Option.isSome_of_eq_some placed
    exact ⟨known, suits, fun wire member => (each wire member).1,
      fun wire member => (each wire member).2, (feeds_clean_iff joined).mp once⟩
  · intro tidy
    exact ⟨⟨tidy.known, tidy.suits⟩,
      fun wire member => (wires_clean_iff (located tidy.known) wire).mpr
      ⟨tidy.wires wire member, tidy.unshadowed wire member⟩,
      (feeds_clean_iff (tidy.whole distinct).joined).mpr tidy.once⟩

/-- All types that the parameters of a composite and of its roster name are registered. -/
def Registered (f : Function) (g : Graph Function) (registry : Registry) : Prop :=
  ∀ p ∈ (f :: Folder.flatten g.roster).flatMap fun f => f.dataInputs ++ f.dataOutputs,
    registry.contains p.type = true

/-- **The report with a registry** is empty for tidy composites with registered types. -/
theorem validate_eq_nil_iff_tidy (composite : f.graph? = some g) (distinct : g.DistinctIds)
    (types : Option Registry) :
    f.validate types = [] ↔ (∀ registry, types = some registry → f.Registered g registry) ∧
      f.Tidy g := by
  have body := body_of_graph? composite
  rw [← validate_none_iff_tidy body distinct]
  unfold validate
  rw [composite]
  cases types with
  | none => simp
  | some registry =>
    have parameters : f.reachableParameters =
        (f :: Folder.flatten g.roster).flatMap fun f => f.dataInputs ++ f.dataOutputs := by
      unfold reachableParameters callable
      rw [composite]
    have named : f.typeProblems registry = [] ↔ f.Registered g registry := by
      unfold typeProblems Registered
      rw [parameters, List.map_eq_nil_iff, List.filter_eq_nil_iff]
      simp
    simp only [List.append_assoc, List.append_eq_nil_iff, List.nil_append, named,
      Option.some.injEq, forall_eq']

end Function

end FlowGraph
