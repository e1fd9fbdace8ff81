/-
**Removing a node that does not matter.**

A removal takes the node out of the row, renumbers what comes after it and drops the wires at its
slots. The circuit that is left corresponds to the one before in all nodes that matter, with their
new numbers, so a run cannot tell the difference.

* `Circuit.without`: a circuit less one node;
* `Graph.links_without`, `Function.circuit_without`: a removal from a graph is one from its circuit;
* `Circuit.corresponds_without`: what is left corresponds in the nodes that are kept alive;
* `Function.run_removeNode`: **nobody notices that a node which does not matter is removed.**
-/

import FlowGraph.Proofs.Positions
import FlowGraph.Proofs.Relevance

namespace FlowGraph

/-! ### Numbers after a removal -/

theorem lower_injOn {gone a b : Nat} (left : a ≠ gone) (right : b ≠ gone)
    (same : lower gone a = lower gone b) : a = b := by
  unfold lower at same
  split at same <;> split at same <;> omega

/-- Every number is that of a node that was there before. -/
theorem exists_lower (gone index : Nat) : ∃ before, before ≠ gone ∧ lower gone before = index := by
  by_cases early : index < gone
  · exact ⟨index, by omega, if_neg (by omega)⟩
  · exact ⟨index + 1, by omega, if_pos (by omega)⟩

theorem lower_succ {gone index : Nat} (other : index ≠ gone) :
    lower gone (index + 1) = lower gone index + 1 := by
  unfold lower
  split <;> split <;> omega

theorem lower_succ_self (gone : Nat) : lower gone (gone + 1) = lower gone gone := by
  unfold lower
  rw [if_pos (Nat.lt_succ_self gone), if_neg (Nat.lt_irrefl gone), Nat.add_sub_cancel]

theorem getElem?_eraseIdx_lower {α : Type} (row : List α) {gone index : Nat}
    (other : index ≠ gone) : (row.eraseIdx gone)[lower gone index]? = row[index]? := by
  unfold lower
  rw [List.getElem?_eraseIdx]
  split
  · next after =>
    rw [if_neg (by omega), Nat.sub_add_cancel (by omega)]
  · rw [if_pos (by omega)]

/-- The numbers that a row of nodes has after a removal. -/
theorem map_lower_range (gone count : Nat) :
    ((List.range count).filter (· ≠ gone)).map (lower gone) = List.range (lower gone count) := by
  induction count with
  | zero => rfl
  | succ count ih =>
    rw [List.range_succ, List.filter_append, List.map_append, ih]
    by_cases same : count = gone
    · rw [same, lower_succ_self, List.filter_singleton]
      simp
    · rw [lower_succ same, List.range_succ, List.filter_singleton]
      simp [same]

/-- A row stays aligned when a node that is not alive leaves it. -/
theorem Aligned.lowered {live : Nat → Prop} {gone : Nat} (dead : ¬ live gone) (row : List Nat) :
    Aligned (fun a b => live a ∧ b = lower gone a) row
      ((row.filter (· ≠ gone)).map (lower gone)) := by
  induction row with
  | nil => exact .nil
  | cons a rest ih =>
    by_cases same : a = gone
    · rw [List.filter_cons_of_neg (by simp [same])]
      exact .left (fun _ paired => dead (same ▸ paired.1)) ih
    · rw [List.filter_cons_of_pos (by simp [same]), List.map_cons]
      by_cases alive : live a
      · exact .both ⟨alive, rfl⟩ ih
      · refine .left (fun _ paired => alive paired.1) (.right (fun other paired => ?_) ih)
        have differs : other ≠ gone := fun here => dead (here ▸ paired.1)
        exact alive (lower_injOn same differs paired.2 ▸ paired.1)

/-- The error that names the same node by its number after a removal. -/
def RunError.lowered (gone : Nat) (error : RunError) : RunError :=
  ⟨error.node.map (lower gone)⟩

/-! ### Circuits less one node -/

namespace Circuit

/-- The circuit without one of its nodes and without the wires at its slots. -/
def without (c : Circuit) (gone : Nat) : Circuit :=
  { c with
    stations := c.stations.eraseIdx gone
    links := (c.links.filter fun link => !link.touches gone).map (Link.mapNodes (lower gone)) }

variable {c : Circuit} {gone : Nat} {live : Nat → Prop} {inputs : List Value}

theorem length_stations_without (inside : gone < c.stations.length) :
    (c.without gone).stations.length = lower gone c.stations.length := by
  unfold lower
  rw [if_pos inside]
  exact List.length_eraseIdx_of_lt inside

theorem outputIndex_without (inside : gone < c.outputIndex) :
    (c.without gone).outputIndex = lower gone c.outputIndex := by
  unfold outputIndex at inside ⊢
  rw [length_stations_without (by omega)]
  unfold lower
  rw [if_pos (by omega), if_pos inside]

/-- Wires between nodes that are alive stay as they are, with new numbers. -/
theorem linksTo_without (dead : ¬ live gone) {index : Nat} (alive : live index)
    (closed : ∀ link ∈ c.links, link.stop.node = index → live link.start.node) :
    (c.without gone).linksTo (lower gone index) =
      (c.linksTo index).map (Link.mapNodes (lower gone)) := by
  have apart : ∀ {other}, live other → other ≠ gone := fun alive here => dead (here ▸ alive)
  unfold linksTo without
  rw [List.filter_map, List.filter_filter]
  congr 1
  refine List.filter_congr fun link member => ?_
  rw [Bool.eq_iff_iff]
  simp only [Function.comp_apply, Link.touches, Bool.and_eq_true, Bool.not_eq_true',
    Bool.or_eq_false_iff, decide_eq_true_eq, decide_eq_false_iff_not]
  constructor
  · rintro ⟨stop, _, stays⟩
    exact lower_injOn stays (apart alive) stop
  · rintro rfl
    exact ⟨rfl, apart (closed link member rfl), apart alive⟩

theorem calm_without {index : Nat} (other : index ≠ gone) (calm : c.Calm index) :
    (c.without gone).Calm (lower gone index) := by
  intro station callee located
  rw [without, getElem?_eraseIdx_lower c.stations other] at located
  exact calm station callee located

/-- **A circuit corresponds to itself less one node**, in any nodes that are alive without it. The
wires from which these are fed start at nodes that are alive, and the other nodes do not fail. -/
theorem corresponds_without (start : live 0) (output : live c.outputIndex) (dead : ¬ live gone)
    (inside : gone < c.outputIndex)
    (closed : ∀ link ∈ c.links, link.stop.node ≠ 0 → live link.stop.node → live link.start.node)
    (calm : ∀ index, ¬ live index → c.Calm index)
    (alike : ∀ index : Nat, Option.Rel Station.Alike c.stations[index]? c.stations[index]?)
    (opens : ∀ pool, ∃ station callee, c.CanRun pool 0 station callee)
    (opens' : ∀ pool, ∃ station callee, (c.without gone).CanRun pool 0 station callee) :
    Corresponds (fun a b => live a ∧ b = lower gone a) inputs inputs c (c.without gone) := by
  have apart : ∀ {index}, live index → index ≠ gone := fun alive here => dead (here ▸ alive)
  refine
    { unique := ⟨?_, fun _ _ _ first second => first.2.trans second.2.symm⟩
      start := ⟨start, (if_neg (Nat.not_lt_zero gone)).symm⟩
      output := ⟨output, outputIndex_without inside⟩
      outputCount := rfl
      rows := ?_
      opens := opens
      opens' := opens'
      stations := ?_
      links := ?_
      calm := fun alone => calm _ fun alive => alone _ ⟨alive, rfl⟩
      calm' := ?_ }
  · intro a other b first second
    exact lower_injOn (apart first.1) (apart second.1) (first.2.symm.trans second.2)
  · rw [length_stations_without (by unfold outputIndex at inside; omega), ← map_lower_range]
    exact .lowered dead _
  · rintro a _ ⟨alive, rfl⟩
    rw [without, getElem?_eraseIdx_lower c.stations (apart alive)]
    exact alike a
  · rintro a _ ⟨alive, rfl⟩ inner
    have starts : ∀ link ∈ c.links, link.stop.node = a → live link.start.node :=
      fun link member stop => closed link member (stop ▸ inner) (stop ▸ alive)
    rw [linksTo_without dead alive starts, List.forall₂_map_right_iff]
    refine List.forall₂_same.mpr fun link member => ⟨rfl, ?_⟩
    obtain ⟨wired, stop⟩ := List.mem_filter.mp member
    exact ⟨⟨starts link wired (of_decide_eq_true stop), rfl⟩, rfl, fun _ => rfl⟩
  · intro b alone
    obtain ⟨a, other, rfl⟩ := exists_lower gone b
    exact calm_without other (calm a fun alive => alone a ⟨alive, rfl⟩)

/-- Results that are the same up to a removal. -/
theorem SameResult.lowered {α : Type} {first second : Except RunError α}
    (same : SameResult (fun a b => live a ∧ b = lower gone a) first second) (dead : ¬ live gone) :
    first ≠ .error ⟨some gone⟩ ∧ second = first.mapError (RunError.lowered gone) := by
  cases same with
  | ok values => exact ⟨nofun, rfl⟩
  | stalled => exact ⟨nofun, rfl⟩
  | failed paired =>
    refine ⟨?_, by rw [paired.2]; rfl⟩
    rintro ⟨⟩
    exact dead paired.1

end Circuit

/-! ### Graphs less one node -/

namespace Graph

variable {F : Type} {g : Graph F} {id : NodeId} {gone : Nat}

/-- The indices of the other nodes after a removal. -/
theorem indexOf?_without_eq (distinct : g.DistinctIds) (inner : id.isBoundary = false)
    (out : g.indexOf? id = some gone) {other : NodeId} (differs : other ≠ id) :
    (g.without id).indexOf? other = (g.indexOf? other).map (lower gone) := by
  cases found : g.indexOf? other with
  | some index => exact indexOf?_without distinct inner out found differs
  | none =>
    have absent : ¬ (g.indexOf? other).isSome := by simp [found]
    rw [indexOf?_isSome_iff] at absent
    refine Option.not_isSome_iff_eq_none.mp fun present => absent ?_
    rcases (indexOf?_isSome_iff _ _).mp present with first | last | ⟨node, member, same⟩
    · exact Or.inl first
    · exact Or.inr (Or.inl last)
    · exact Or.inr (Or.inr ⟨node, List.mem_of_mem_eraseP member, same⟩)

theorem link?_without (distinct : g.DistinctIds) (inner : id.isBoundary = false)
    (out : g.indexOf? id = some gone) {wire : Wire} (start : wire.start.node ≠ id)
    (stop : wire.stop.node ≠ id) :
    (g.without id).link? wire = (g.link? wire).map (Link.mapNodes (lower gone)) := by
  unfold link?
  rw [indexOf?_without_eq distinct inner out start, indexOf?_without_eq distinct inner out stop]
  cases g.indexOf? wire.start.node <;> cases g.indexOf? wire.stop.node <;> rfl

theorem touches_of_link? (out : g.indexOf? id = some gone) {wire : Wire} {link : Link}
    (placed : g.link? wire = some link) :
    link.touches gone = decide (wire.start.node = id ∨ wire.stop.node = id) := by
  obtain ⟨start, _, stop, _⟩ := (g.link?_eq_some_iff wire link).mp placed
  simp [Link.touches, indexOf?_eq_iff start out, indexOf?_eq_iff stop out]

/-- **The wires that a removal leaves**, whether or not other wires have both ends. -/
theorem links_without (distinct : g.DistinctIds) (inner : id.isBoundary = false)
    (out : g.indexOf? id = some gone) :
    (g.without id).links =
      (g.links.filter fun link => !link.touches gone).map (Link.mapNodes (lower gone)) := by
  show (g.wires.filter _).filterMap (g.without id).link? = _
  unfold links
  rw [List.filterMap_filter, List.filter_filterMap, List.map_filterMap]
  refine List.filterMap_congr fun wire _ => ?_
  by_cases stays : wire.start.node ≠ id ∧ wire.stop.node ≠ id
  · rw [if_pos (decide_eq_true stays), link?_without distinct inner out stays.1 stays.2]
    cases placed : g.link? wire with
    | none => rfl
    | some link =>
      have apart := touches_of_link? out placed
      rw [decide_eq_false (not_or.mpr stays)] at apart
      simp [apart]
  · rw [if_neg (by simpa using stays)]
    cases placed : g.link? wire with
    | none => rfl
    | some link =>
      have touches := touches_of_link? out placed
      rw [decide_eq_true (by tauto)] at touches
      simp [touches]

theorem removeNode_eq (distinct : g.DistinctIds) {node : Node} (member : node ∈ g.nodes) :
    g.removeNode node.id = .ok (node, g.without node.id) := by
  unfold removeNode
  rw [distinct.inner node member, (distinct.node?_eq_some_iff node.id node).mpr ⟨member, rfl⟩]
  rfl

end Graph

/-! ### Composites less one node -/

namespace Function

variable {f : Function} {g : Graph Function}

/-- **The circuit of a graph less one node** is the circuit of the graph less that node. -/
theorem circuit_without (f : Function) (distinct : g.DistinctIds) {id : NodeId} {gone : Nat}
    (inner : id.isBoundary = false) (out : g.indexOf? id = some gone) :
    f.circuit (g.without id) = (f.circuit g).without gone := by
  obtain ⟨place, positive, inside⟩ := Graph.findIdx?_of_indexOf? inner out
  have nodes : (g.without id).nodes = g.nodes.eraseIdx (gone - 1) := by
    show g.nodes.eraseP _ = _
    rw [List.eraseP_eq_eraseIdx, place]
  have callees : (g.without id).callees = g.callees := by
    rw [Graph.callees_eq, Graph.callees_eq]
    rfl
  unfold circuit Circuit.without Circuit.ofGraph
  dsimp only
  rw [nodes, callees, Graph.links_without distinct inner out]
  obtain ⟨gone, rfl⟩ := Nat.exists_eq_succ_of_ne_zero (Nat.ne_of_gt positive)
  rw [List.cons_append, List.cons_append, Nat.succ_eq_add_one, List.eraseIdx_cons_succ,
    List.eraseIdx_append_of_lt_length (by rw [List.length_map]; omega), List.eraseIdx_map]
  rfl

/-- A composite corresponds to itself less a node that does not matter, in the nodes that do. -/
theorem corresponds_without (distinct : g.DistinctIds)
    (natives : ∀ index callee, ¬ g.Matters index → f.calleeIn? g index = some callee →
      callee.isComposite = false)
    {place : Nat} {node : Node} (located : g.nodes[place]? = some node)
    (dead : ¬ (place + 1 = 0 ∨ g.Matters (place + 1))) (inputs : List Value) :
    Circuit.Corresponds (fun a b => (a = 0 ∨ g.Matters a) ∧ b = lower (place + 1) a) inputs inputs
      (f.circuit g) (f.circuit (g.without node.id)) := by
  obtain ⟨inside, here⟩ := List.getElem?_eq_some_iff.mp located
  have out : g.indexOf? node.id = some (place + 1) := here ▸ distinct.indexOf?_node inside
  have left := circuit_without f distinct (distinct.inner node (List.mem_of_getElem? located)) out
  have opens := opens_circuit f (g.without node.id)
  rw [left] at opens ⊢
  refine Circuit.corresponds_without (Or.inl rfl) (Or.inr ?_) dead ?_ ?_
    (fun _ => calm_of_dead natives) (alike_station f g) (opens_circuit f g) opens
  · exact outputIndex_circuit f g ▸ g.matters_output
  · rw [outputIndex_circuit]
    exact Nat.succ_lt_succ inside
  · exact fun link wired inner alive => Or.inr ((alive.resolve_left inner).start wired)

/-- **Nobody notices that a node which does not matter is removed.** If every node that does not
matter calls a native function, or none that is known, then such a node is never the one that a run
blames, and every run gives the same result after the removal of the node, up to the numbers of the
nodes behind it. -/
theorem run_removeNode (composite : f.body = .composite g) (distinct : g.DistinctIds)
    (natives : ∀ index callee, ¬ g.Matters index → f.calleeIn? g index = some callee →
      callee.isComposite = false)
    {place : Nat} {node : Node} (located : g.nodes[place]? = some node)
    (dead : ¬ g.Matters (place + 1)) :
    ∃ h, g.removeNode node.id = .ok (node, h) ∧ ∀ inputs,
      (f.run inputs).result ≠ .error ⟨some (place + 1)⟩ ∧
        ((f.setGraph h).run inputs).result =
          (f.run inputs).result.mapError (RunError.lowered (place + 1)) := by
  refine ⟨_, g.removeNode_eq distinct (List.mem_of_getElem? located), fun inputs => ?_⟩
  have lost : ¬ (place + 1 = 0 ∨ g.Matters (place + 1)) :=
    not_or.mpr ⟨Nat.succ_ne_zero place, dead⟩
  have corresponds := corresponds_without distinct natives located lost inputs
  have body : (f.setGraph (g.without node.id)).body = .composite (g.without node.id) := rfl
  rw [run_composite composite, run_composite body]
  exact (Circuit.run_corresponds corresponds 0 0).lowered lost

/-- A graph with a node that turns the input around for nobody, and one that calls a stalling
composite for the Output node. -/
def haltedGraph : Graph Function :=
  { Graph.new [⟨"Logic", [negation]⟩, ⟨"Own", [unfed]⟩] with
    nodes := [.new ⟨.ofNat 2⟩ "not" ⟨0, 0⟩, .new ⟨.ofNat 3⟩ "unfed" ⟨0, 0⟩]
    wires := [⟨⟨.ofNat 4⟩, ⟨.input, 1⟩, ⟨⟨.ofNat 2⟩, 1⟩⟩,
      ⟨⟨.ofNat 5⟩, ⟨⟨.ofNat 3⟩, 1⟩, ⟨.output, 1⟩⟩] }

/-- A composite with such a graph. -/
def halted : Function :=
  composite "halted" "Halted" [flag] [flag] haltedGraph

/-- The node that does not matter calls the negation. -/
theorem natives_halted {index : Nat} {callee : Function} (dead : ¬ haltedGraph.Matters index)
    (calls : halted.calleeIn? haltedGraph index = some callee) : callee.isComposite = false := by
  rcases calleeIn?_cases calls with ⟨_, rfl⟩ | ⟨_, rfl⟩ | ⟨place, inside, rfl, known⟩
  · rfl
  · rfl
  · have few : place < 2 := inside
    interval_cases place
    · cases known
      rfl
    · have wired : ⟨⟨2, 1⟩, ⟨3, 1⟩⟩ ∈ haltedGraph.links := by decide +kernel
      exact absurd (Graph.Matters.start wired (Graph.matters_output haltedGraph)) dead

theorem halted_removeNode :
    (halted.run [.boolean true]).result = .error ⟨some 2⟩ ∧
      ∃ h, haltedGraph.removeNode ⟨.ofNat 2⟩ = .ok (.new ⟨.ofNat 2⟩ "not" ⟨0, 0⟩, h) ∧
        ((halted.setGraph h).run [.boolean true]).result = .error ⟨some 1⟩ := by
  have fails : (halted.run [.boolean true]).result = .error ⟨some 2⟩ := by decide +kernel
  have distinct : haltedGraph.DistinctIds := ⟨by decide +kernel, by decide +kernel⟩
  have closed : ∀ link ∈ haltedGraph.links, link.stop.node ∈ [2, 3] →
      link.start.node ∈ [2, 3] := by decide +kernel
  have dead : ¬ haltedGraph.Matters 1 := fun matters =>
    absurd (matters.mem (by decide) closed) (by decide)
  obtain ⟨h, removed, runs⟩ := run_removeNode (f := halted) rfl distinct
    (fun _ _ => natives_halted) (show haltedGraph.nodes[0]? = some _ from rfl) dead
  refine ⟨fails, h, removed, ?_⟩
  rw [(runs [.boolean true]).2, fails]
  rfl

end Function

end FlowGraph
