/-
**What is available at the slots of a graph.**

A value is available at a slot if the wires, the values set by hand and the functions that the nodes
call make it so. Availability says nothing about passes, turns or the order in which nodes and wires
are listed.

* `Graph.Available`: the values that are available at a slot;
* `Graph.Available.unique`: **no slot has two values** if it has one feed at most;
* `Graph.Reorders.available`: the order of nodes and wires does not matter.
-/

import FlowGraph.Proofs.Indices
import FlowGraph.Run.Evaluate

namespace FlowGraph

/-- A slot of a node, among its inputs or among its outputs. -/
inductive Port where
  | input (slot : Endpoint)
  | output (slot : Endpoint)

/-- The values that are available at a slot. -/
inductive Graph.Available (g : Graph Function) (inputs : List Value) : Port → Value → Prop
  /-- The Input node puts out the signal and the inputs. -/
  | arguments {slot : Nat} {value : Value} (found : (.signal :: inputs)[slot]? = some value) :
      Available g inputs (.output ⟨.input, slot⟩) value
  | manual {id : NodeId} {slot : Nat} {value : Value} (set : g.value? id slot = some value) :
      Available g inputs (.input ⟨id, slot⟩) value
  | wire {wire : Wire} {value : Value} (member : wire ∈ g.wires)
      (start : Available g inputs (.output wire.start) value) :
      Available g inputs (.input wire.stop) value
  /-- A node puts out what the function that it calls makes of the values at its inputs. -/
  | node {node : Node} {callee : Function} {arguments outputs : List Value} {slot : Nat}
      {value : Value} (member : node ∈ g.nodes)
      (calls : Function.find? g.roster node.function = some callee)
      (count : arguments.length = callee.inputs.length)
      (fed : ∀ (place : Nat) (argument : Value), arguments[place]? = some argument →
        Available g inputs (.input ⟨node.id, place⟩) argument)
      (allowed : arguments.head? = some .signal)
      (evaluated : (callee.evaluate arguments).result = .ok outputs)
      (found : outputs[slot]? = some value) :
      Available g inputs (.output ⟨node.id, slot⟩) value

/-! ### No slot has two values -/

namespace Graph

variable {g : Graph Function} {inputs : List Value}

theorem available_output {slot : Endpoint} {value : Value}
    (available : g.Available inputs (.output slot) value) :
    (slot.node = .input ∧ (.signal :: inputs)[slot.slot]? = some value) ∨
      ∃ node ∈ g.nodes, slot.node = node.id ∧ ∃ callee arguments outputs,
        Function.find? g.roster node.function = some callee ∧
        arguments.length = callee.inputs.length ∧
        (∀ (place : Nat) (argument : Value), arguments[place]? = some argument →
          g.Available inputs (.input ⟨node.id, place⟩) argument) ∧
        (callee.evaluate arguments).result = .ok outputs ∧ outputs[slot.slot]? = some value := by
  cases available with
  | arguments found => exact Or.inl ⟨rfl, found⟩
  | node member calls count fed allowed evaluated found =>
    exact Or.inr ⟨_, member, rfl, _, _, _, calls, count, fed, evaluated, found⟩

theorem available_input {slot : Endpoint} {value : Value}
    (available : g.Available inputs (.input slot) value) :
    g.value? slot.node slot.slot = some value ∨
      ∃ wire ∈ g.wires, wire.stop = slot ∧ g.Available inputs (.output wire.start) value := by
  cases available with
  | manual set => exact Or.inl set
  | wire member start => exact Or.inr ⟨_, member, rfl, start⟩

/-- Only nodes that exist put something out. -/
theorem Available.present {slot : Endpoint} {value : Value}
    (available : g.Available inputs (.output slot) value) : (g.indexOf? slot.node).isSome := by
  rw [indexOf?_isSome_iff]
  rcases available_output available with ⟨first, _⟩ | ⟨node, member, same, _⟩
  · exact Or.inl first
  · exact Or.inr (Or.inr ⟨node, member, same.symm⟩)

theorem eq_of_countP_le_one {α : Type} {p : α → Bool} {things : List α}
    (few : things.countP p ≤ 1) {a b : α} (one : a ∈ things) (other : b ∈ things)
    (left : p a = true) (right : p b = true) : a = b := by
  have first : a ∈ things.filter p := List.mem_filter.mpr ⟨one, left⟩
  have second : b ∈ things.filter p := List.mem_filter.mpr ⟨other, right⟩
  rw [List.countP_eq_length_filter] at few
  match shape : things.filter p, few with
  | [], _ =>
    rw [shape] at first
    cases first
  | [only], _ =>
    rw [shape] at first second
    rw [List.mem_singleton.mp first, List.mem_singleton.mp second]

/-- The slots of which a regular graph feeds each once at most. -/
def Proper (g : Graph Function) : Port → Prop
  | .input slot => slot.node ≠ .input ∧ (g.indexOf? slot.node).isSome
  | .output _ => True

section Feeders

variable {wire : Wire} {slot : Endpoint} {value : Value}

/-- A wire that carries a value counts as a feed of the slot that it ends at. -/
theorem counts_of_available (start : g.Available inputs (.output wire.start) value)
    (stop : wire.stop = slot) (present : (g.indexOf? slot.node).isSome) :
    ((g.link? wire).isSome && decide (wire.stop = slot)) = true := by
  obtain ⟨source, foundStart⟩ := Option.isSome_iff_exists.mp start.present
  obtain ⟨target, foundStop⟩ := Option.isSome_iff_exists.mp present
  rw [← stop] at foundStop
  have placed := (g.link?_eq_some_iff wire ⟨⟨source, _⟩, ⟨target, _⟩⟩).mpr
    ⟨foundStart, rfl, foundStop, rfl⟩
  rw [placed, stop]
  simp

/-- A slot with one feed at most does not have both a wire that carries a value and a value set by
hand. -/
theorem not_wire_and_manual {other : Value} (member : wire ∈ g.wires)
    (start : g.Available inputs (.output wire.start) value) (stop : wire.stop = slot)
    (present : (g.indexOf? slot.node).isSome) (few : g.feedCountOf slot ≤ 1)
    (set : g.value? slot.node slot.slot = some other) : False := by
  unfold feedCountOf at few
  have positive : 0 < g.wires.countP fun wire =>
      (g.link? wire).isSome && decide (wire.stop = slot) :=
    List.countP_pos_iff.mpr ⟨wire, member, counts_of_available start stop present⟩
  rw [set, Option.isSome_some, if_pos rfl] at few
  omega

end Feeders

/-- **No slot has two values** in a graph whose slots have one feed at most. -/
theorem Available.unique (distinct : g.DistinctIds)
    (single : ∀ id ≠ NodeId.input, ∀ slot, g.feedCountOf ⟨id, slot⟩ ≤ 1) {port : Port}
    {first second : Value} (one : g.Available inputs port first) (proper : g.Proper port)
    (other : g.Available inputs port second) : first = second := by
  induction one generalizing second with
  | @arguments slot first found =>
    rcases available_output other with ⟨_, found'⟩ | ⟨node, member, same, _⟩
    · exact Option.some_injective _ (found.symm.trans found')
    · exact absurd same.symm (distinct.ne_input member)
  | @manual id slot first set =>
    rcases available_input other with set' | ⟨wire, member, stop, start⟩
    · exact Option.some_injective _ (set.symm.trans set')
    · exact (not_wire_and_manual member start stop proper.2 (single id proper.1 slot) set).elim
  | @wire wire first member start ih =>
    -- Another wire that ends here and carries a value would be a second feed.
    have few : g.feedCountOf wire.stop ≤ 1 := single wire.stop.node proper.1 wire.stop.slot
    rcases available_input other with set | ⟨wire', member', stop, start'⟩
    · exact (not_wire_and_manual member start rfl proper.2 few set).elim
    · have same : wire = wire' :=
        eq_of_countP_le_one (Nat.le_trans (Nat.le_add_right _ _) few) member member'
          (counts_of_available start rfl proper.2) (counts_of_available start' stop proper.2)
      rw [← same] at start'
      exact ih trivial start'
  | @node node callee arguments outputs slot first member known count fed allowed evaluated found
      ih =>
    rcases available_output other with
      ⟨isInput, _⟩ | ⟨node', member', same, callee', arguments', outputs', known', count', fed',
        evaluated', found'⟩
    · exact absurd isInput (distinct.ne_input member)
    · cases List.inj_on_of_nodup_map distinct.nodup member member' same
      cases Option.some_injective _ (known.symm.trans known')
      have equal : arguments = arguments' := by
        refine List.ext_getElem (count.trans count'.symm) fun place inside inside' => ?_
        refine ih place _ (List.getElem?_eq_getElem inside) ⟨distinct.ne_input member, ?_⟩
          (fed' place _ (List.getElem?_eq_getElem inside'))
        exact (indexOf?_isSome_iff g node.id).mpr (Or.inr (Or.inr ⟨node, member, rfl⟩))
      rw [equal, evaluated'] at evaluated
      cases evaluated
      exact Option.some_injective _ (found.symm.trans found')

/-! ### The order of nodes and wires -/

/-- The same graph with its nodes and wires listed in another order; positions do not matter. -/
structure Reorders (g g' : Graph Function) : Prop where
  nodes : g.nodes.Perm g'.nodes
  wires : g.wires.Perm g'.wires
  roster : g.roster = g'.roster
  outputValues : g.outputValues = g'.outputValues

namespace Reorders

variable {g' : Graph Function}

theorem symm (same : g.Reorders g') : g'.Reorders g :=
  ⟨same.nodes.symm, same.wires.symm, same.roster.symm, same.outputValues.symm⟩

theorem distinctIds (same : g.Reorders g') (distinct : g.DistinctIds) : g'.DistinctIds :=
  ⟨(same.nodes.map Node.id).nodup_iff.mp distinct.nodup,
    fun node member => distinct.inner node (same.nodes.mem_iff.mpr member)⟩

theorem value?_eq (same : g.Reorders g') (distinct : g.DistinctIds) (id : NodeId) (slot : Nat) :
    g.value? id slot = g'.value? id slot := by
  have found : g.node? id = g'.node? id := by
    ext node
    rw [distinct.node?_eq_some_iff, (same.distinctIds distinct).node?_eq_some_iff,
      same.nodes.mem_iff]
  unfold value?
  rw [same.outputValues, found]

theorem link?_isSome (same : g.Reorders g') (wire : Wire) :
    (g.link? wire).isSome = (g'.link? wire).isSome := by
  have present : ∀ id, (g.indexOf? id).isSome = (g'.indexOf? id).isSome := by
    intro id
    rw [Bool.eq_iff_iff, indexOf?_isSome_iff, indexOf?_isSome_iff]
    simp only [same.nodes.mem_iff]
  have joins : ∀ h : Graph Function, (h.link? wire).isSome =
      ((h.indexOf? wire.start.node).isSome && (h.indexOf? wire.stop.node).isSome) := by
    intro h
    unfold link?
    cases h.indexOf? wire.start.node <;> cases h.indexOf? wire.stop.node <;> rfl
  rw [joins, joins, present, present]

theorem feedCountOf_eq (same : g.Reorders g') (distinct : g.DistinctIds) (slot : Endpoint) :
    g.feedCountOf slot = g'.feedCountOf slot := by
  unfold feedCountOf
  simp only [same.link?_isSome, same.value?_eq distinct]
  rw [same.wires.countP_eq]

/-- **What is available does not depend on the order of nodes and wires.** -/
theorem available (same : g.Reorders g') (distinct : g.DistinctIds) {port : Port} {value : Value}
    (available : g.Available inputs port value) : g'.Available inputs port value := by
  induction available with
  | arguments found => exact .arguments found
  | manual set => exact .manual ((same.value?_eq distinct _ _).symm.trans set)
  | wire member _ ih => exact .wire (same.wires.mem_iff.mp member) ih
  | node member calls count _ allowed evaluated found ih =>
    rw [same.roster] at calls
    exact .node (same.nodes.mem_iff.mp member) calls count ih allowed evaluated found

end Reorders

end Graph

end FlowGraph
