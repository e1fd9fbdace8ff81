/-
**Indices and identifiers of nodes.**

Wires name their nodes by identifier, runs and records by index. In a graph whose identifiers are
distinct and not reserved the two views agree.

* `Graph.nodeIdAt?_of_indexOf?`, `Graph.indexOf?_of_nodeIdAt?`: the index of an identifier and the
  identifier at an index are inverse to each other;
* `Graph.link_inside`: wires in the positional view end at nodes that exist;
* `Graph.value?_eq`, `Graph.feedCountAt_eq`: values and feeds are the same in both views.
-/

import Mathlib
import FlowGraph.Graph.Basic

namespace FlowGraph

namespace Graph

variable {F : Type}

/-- The identifiers of the user's nodes are distinct and none of them is reserved. -/
structure DistinctIds (g : Graph F) : Prop where
  nodup : (g.nodes.map Node.id).Nodup
  inner : ∀ node ∈ g.nodes, node.id.isBoundary = false

/-- The values set by hand on the node at an index. -/
def valuesAt (g : Graph F) (index : Nat) : Slots :=
  (g.allNodes[index]?).elim .empty Node.values

/-- The number of wires and values that feed an input slot. -/
def feedCountAt (g : Graph F) (place : Place) : Nat :=
  (g.links.countP fun link => link.stop = place) +
    if ((g.valuesAt place.node).get? place.slot).isSome then 1 else 0

/-- The number of wires and values that feed an input slot, by identifier. A wire with a missing end
feeds nothing. -/
def feedCountOf (g : Graph F) (input : Endpoint) : Nat :=
  (g.wires.countP fun wire => (g.link? wire).isSome && decide (wire.stop = input)) +
    if (g.value? input.node input.slot).isSome then 1 else 0

/-! ### All nodes by index -/

theorem allNodes_succ (g : Graph F) {place : Nat} (inside : place < g.nodes.length) :
    g.allNodes[place + 1]? = g.nodes[place]? := by
  unfold allNodes
  rw [List.cons_append, List.getElem?_cons_succ, List.getElem?_append_left inside]

theorem allNodes_output (g : Graph F) : g.allNodes[g.outputIndex]? = some g.outputNode := by
  unfold allNodes outputIndex
  rw [List.cons_append, List.getElem?_cons_succ, List.getElem?_concat_length]

theorem length_allNodes (g : Graph F) : g.allNodes.length = g.nodeCount := by
  simp [allNodes, nodeCount]

/-- Every index is that of the Input node, of a node of the user, of the Output node, or beyond. -/
theorem index_cases (g : Graph F) (index : Nat) :
    index = 0 ∨ (∃ place < g.nodes.length, index = place + 1) ∨ index = g.outputIndex ∨
      g.nodeCount ≤ index := by
  unfold outputIndex nodeCount
  rcases Nat.eq_zero_or_pos index with zero | positive
  · exact Or.inl zero
  · by_cases inside : index - 1 < g.nodes.length
    · exact Or.inr (Or.inl ⟨index - 1, inside, by omega⟩)
    · exact Or.inr (Or.inr (by omega))

theorem outputIndex_ne_zero (g : Graph F) : g.outputIndex ≠ 0 :=
  Nat.succ_ne_zero g.nodes.length

theorem nodeIdAt?_eq (g : Graph F) (index : Nat) :
    g.nodeIdAt? index = (g.allNodes[index]?).map Node.id := by
  unfold nodeIdAt?
  rcases g.index_cases index with rfl | ⟨place, inside, rfl⟩ | rfl | beyond
  · rfl
  · have notLast : place + 1 ≠ g.outputIndex := by unfold outputIndex; omega
    rw [if_neg (Nat.succ_ne_zero place), if_neg notLast, allNodes_succ g inside,
      Nat.add_sub_cancel]
  · rw [if_neg (by unfold outputIndex; omega), if_pos rfl, allNodes_output]
    rfl
  · have outside : g.allNodes[index]? = none := by
      rw [List.getElem?_eq_none_iff, length_allNodes]
      exact beyond
    unfold nodeCount at beyond
    rw [if_neg (by omega), if_neg (by unfold outputIndex; omega), outside,
      List.getElem?_eq_none_iff.mpr (by omega)]

theorem nodeIdAt?_node (g : Graph F) {place : Nat} (inside : place < g.nodes.length) :
    g.nodeIdAt? (place + 1) = some (g.nodes.get ⟨place, inside⟩).id := by
  rw [nodeIdAt?_eq, allNodes_succ g inside, List.getElem?_eq_getElem inside]
  rfl

theorem nodeIdAt?_output (g : Graph F) : g.nodeIdAt? g.outputIndex = some .output := by
  rw [nodeIdAt?_eq, allNodes_output]
  rfl

theorem isSome_nodeIdAt? (g : Graph F) (index : Nat) :
    (g.nodeIdAt? index).isSome ↔ index < g.nodeCount := by
  rw [nodeIdAt?_eq, Option.isSome_map, ← length_allNodes]
  simp

/-! ### Indices of identifiers -/

/-- The node at the index of an identifier has that identifier. -/
theorem nodeIdAt?_of_indexOf? {g : Graph F} {id : NodeId} {index : Nat}
    (found : g.indexOf? id = some index) : g.nodeIdAt? index = some id := by
  unfold indexOf? at found
  split at found
  · next same =>
    cases found
    rw [same]
    rfl
  · split at found
    · next same =>
      cases found
      rw [same, nodeIdAt?, if_neg (by unfold outputIndex; omega), if_pos rfl]
    · obtain ⟨place, search, rfl⟩ := Option.map_eq_some_iff.mp found
      obtain ⟨inside, has, _⟩ := List.findIdx?_eq_some_iff_getElem.mp search
      rw [nodeIdAt?_eq, allNodes_succ g inside, List.getElem?_eq_getElem inside]
      exact congrArg some (of_decide_eq_true has)

theorem indexOf?_lt {g : Graph F} {id : NodeId} {index : Nat}
    (found : g.indexOf? id = some index) : index < g.nodeCount := by
  have located := nodeIdAt?_of_indexOf? found
  rw [nodeIdAt?_eq, Option.map_eq_some_iff] at located
  obtain ⟨node, present, _⟩ := located
  rw [← length_allNodes]
  exact (List.getElem?_eq_some_iff.mp present).1

/-- Different identifiers have different indices. -/
theorem indexOf?_injective {g : Graph F} {first second : NodeId} {index : Nat}
    (one : g.indexOf? first = some index) (other : g.indexOf? second = some index) :
    first = second :=
  Option.some_injective _ ((nodeIdAt?_of_indexOf? one).symm.trans (nodeIdAt?_of_indexOf? other))

theorem indexOf?_eq_iff {g : Graph F} {first second : NodeId} {i j : Nat}
    (one : g.indexOf? first = some i) (other : g.indexOf? second = some j) :
    first = second ↔ i = j := by
  constructor
  · rintro rfl
    exact Option.some_injective _ (one.symm.trans other)
  · rintro rfl
    exact indexOf?_injective one other

namespace DistinctIds

variable {g : Graph F}

theorem ne_input (distinct : g.DistinctIds) {node : Node} (member : node ∈ g.nodes) :
    node.id ≠ .input := by
  intro same
  have inner := distinct.inner node member
  rw [same] at inner
  exact absurd inner (by decide)

theorem ne_output (distinct : g.DistinctIds) {node : Node} (member : node ∈ g.nodes) :
    node.id ≠ .output := by
  intro same
  have inner := distinct.inner node member
  rw [same] at inner
  exact absurd inner (by decide)

/-- The user's node at a place is found by its identifier. -/
theorem indexOf?_node (distinct : g.DistinctIds) {place : Nat} (inside : place < g.nodes.length) :
    g.indexOf? (g.nodes.get ⟨place, inside⟩).id = some (place + 1) := by
  have member : g.nodes.get ⟨place, inside⟩ ∈ g.nodes := List.get_mem ..
  unfold indexOf?
  rw [if_neg (distinct.ne_input member), if_neg (distinct.ne_output member),
    Option.map_eq_some_iff]
  refine ⟨place, List.findIdx?_eq_some_iff_getElem.mpr ⟨inside, by simp, ?_⟩, rfl⟩
  intro earlier less same
  have lessLength : earlier < g.nodes.length := Nat.lt_trans less inside
  have equal : (g.nodes.map Node.id)[earlier]? = (g.nodes.map Node.id)[place]? := by
    rw [List.getElem?_map, List.getElem?_map, List.getElem?_eq_getElem lessLength,
      List.getElem?_eq_getElem inside]
    exact congrArg some (of_decide_eq_true same)
  have position := (List.nodup_iff_getElem?_ne_getElem?.mp distinct.nodup) earlier place less
    (by rw [List.length_map]; exact inside)
  exact position equal

/-- **The identifier at an index is found at that index.** -/
theorem indexOf?_of_nodeIdAt? (distinct : g.DistinctIds) {index : Nat} {id : NodeId}
    (located : g.nodeIdAt? index = some id) : g.indexOf? id = some index := by
  rw [nodeIdAt?_eq] at located
  rcases g.index_cases index with rfl | ⟨place, inside, rfl⟩ | rfl | beyond
  · cases located
    rfl
  · rw [allNodes_succ g inside, List.getElem?_eq_getElem inside] at located
    cases located
    exact distinct.indexOf?_node inside
  · rw [allNodes_output] at located
    cases located
    rfl
  · rw [List.getElem?_eq_none_iff.mpr (by rw [length_allNodes]; exact beyond)] at located
    cases located

/-- A node of the user is found by its identifier. -/
theorem node?_eq_some_iff (distinct : g.DistinctIds) (id : NodeId) (node : Node) :
    g.node? id = some node ↔ node ∈ g.nodes ∧ node.id = id := by
  unfold node?
  constructor
  · intro found
    have same := List.find?_some found
    exact ⟨List.mem_of_find?_eq_some found, of_decide_eq_true same⟩
  · rintro ⟨member, rfl⟩
    cases found : g.nodes.find? fun other => decide (other.id = node.id) with
    | none => simpa using List.find?_eq_none.mp found node member
    | some other =>
      have same := List.find?_some found
      rw [List.inj_on_of_nodup_map distinct.nodup (List.mem_of_find?_eq_some found) member
        (of_decide_eq_true same)]

end DistinctIds

/-- The identifiers that have an index. -/
theorem indexOf?_isSome_iff (g : Graph F) (id : NodeId) :
    (g.indexOf? id).isSome ↔ id = .input ∨ id = .output ∨ ∃ node ∈ g.nodes, node.id = id := by
  unfold indexOf?
  by_cases first : id = .input
  · simp [first]
  · by_cases last : id = .output
    · rw [if_neg first, if_pos last]
      simp [last]
    · rw [if_neg first, if_neg last, Option.isSome_map, List.findIdx?_isSome]
      simp [first, last]

/-! ### Wires and values by index -/

/-- The positional view of a wire. -/
theorem link?_eq_some_iff (g : Graph F) (wire : Wire) (link : Link) :
    g.link? wire = some link ↔
      g.indexOf? wire.start.node = some link.start.node ∧ wire.start.slot = link.start.slot ∧
        g.indexOf? wire.stop.node = some link.stop.node ∧ wire.stop.slot = link.stop.slot := by
  obtain ⟨⟨startNode, startSlot⟩, ⟨stopNode, stopSlot⟩⟩ := link
  unfold link?
  cases g.indexOf? wire.start.node with
  | none => simp
  | some start =>
    cases g.indexOf? wire.stop.node with
    | none => simp
    | some stop => simp [and_assoc]

theorem mem_links {g : Graph F} {link : Link} :
    link ∈ g.links ↔ ∃ wire ∈ g.wires, g.link? wire = some link :=
  List.mem_filterMap

/-- A wire in the positional view joins nodes that exist. -/
theorem link_inside {g : Graph F} {link : Link} (member : link ∈ g.links) :
    link.start.node < g.nodeCount ∧ link.stop.node < g.nodeCount := by
  obtain ⟨wire, _, placed⟩ := mem_links.mp member
  obtain ⟨start, _, stop, _⟩ := (g.link?_eq_some_iff wire link).mp placed
  exact ⟨indexOf?_lt start, indexOf?_lt stop⟩

theorem valuesAt_output (g : Graph F) : g.valuesAt g.outputIndex = g.outputValues := by
  unfold valuesAt
  rw [allNodes_output]
  rfl

/-- **The values set by hand** by identifier and by index. -/
theorem value?_eq {g : Graph F} (distinct : g.DistinctIds) {id : NodeId} {index : Nat}
    (found : g.indexOf? id = some index) (slot : Nat) :
    g.value? id slot = (g.valuesAt index).get? slot := by
  unfold value?
  by_cases last : id = .output
  · rw [last] at found
    cases found
    rw [if_pos last, valuesAt_output]
  · rw [if_neg last]
    by_cases first : id = .input
    · rw [first] at found
      cases found
      have absent : g.node? id = none := by
        unfold node?
        rw [List.find?_eq_none]
        intro node member same
        exact distinct.ne_input member ((of_decide_eq_true same).trans first)
      rw [absent]
      rfl
    · unfold indexOf? at found
      rw [if_neg first, if_neg last] at found
      obtain ⟨place, search, rfl⟩ := Option.map_eq_some_iff.mp found
      obtain ⟨inside, has, earliest⟩ := List.findIdx?_eq_some_iff_getElem.mp search
      have present : g.node? id = some (g.nodes.get ⟨place, inside⟩) :=
        List.find?_eq_some_iff_getElem.mpr ⟨has, place, inside, rfl, fun earlier less => by
          simpa using earliest earlier less⟩
      unfold valuesAt
      rw [present, allNodes_succ g inside, List.getElem?_eq_getElem inside]
      rfl

/-- **The number of feeds** of a slot by identifier and by index. -/
theorem feedCountAt_eq {g : Graph F} (distinct : g.DistinctIds) {id : NodeId} {index : Nat}
    (found : g.indexOf? id = some index) (slot : Nat) :
    g.feedCountAt ⟨index, slot⟩ = g.feedCountOf ⟨id, slot⟩ := by
  unfold feedCountAt feedCountOf
  rw [value?_eq distinct found, links, List.countP_filterMap]
  congr 2
  funext wire
  obtain ⟨wireId, start, ⟨stop, stopSlot⟩⟩ := wire
  cases placed : g.link? ⟨wireId, start, ⟨stop, stopSlot⟩⟩ with
  | none => rfl
  | some link =>
    obtain ⟨source, ⟨node, linkSlot⟩⟩ := link
    obtain ⟨_, _, foundStop, rfl⟩ := (g.link?_eq_some_iff _ _).mp placed
    simp [← indexOf?_eq_iff foundStop found]

/-- A node that does not exist is not fed. -/
theorem feedCountOf_eq_zero {g : Graph F} {id : NodeId} (absent : g.indexOf? id = none)
    (slot : Nat) : g.feedCountOf ⟨id, slot⟩ = 0 := by
  have missing : ¬ (g.indexOf? id).isSome := by simp [absent]
  rw [indexOf?_isSome_iff] at missing
  unfold feedCountOf
  have unwired : (g.wires.countP fun wire =>
      (g.link? wire).isSome && decide (wire.stop = ⟨id, slot⟩)) = 0 := by
    refine List.countP_eq_zero.mpr fun wire _ counted => ?_
    obtain ⟨linked, stop⟩ := Bool.and_eq_true_iff.mp counted
    obtain ⟨link, placed⟩ := Option.isSome_iff_exists.mp linked
    obtain ⟨_, _, found, _⟩ := (g.link?_eq_some_iff wire link).mp placed
    rw [of_decide_eq_true stop, absent] at found
    cases found
  have unset : g.value? id slot = none := by
    have unknown : g.node? id = none := by
      unfold node?
      rw [List.find?_eq_none]
      exact fun node member same => missing (Or.inr (Or.inr ⟨node, member, of_decide_eq_true same⟩))
    unfold value?
    rw [if_neg fun last => missing (Or.inr (Or.inl last)), unknown]
    rfl
  rw [unwired, unset]
  rfl

end Graph

end FlowGraph
