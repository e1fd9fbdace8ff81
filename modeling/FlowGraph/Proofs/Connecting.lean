/-
**Connecting two places.**

Connecting first checks all that it can, and then makes three edits: it cuts the wires that end at
the input, clears the value of the input, and draws the new wire. The places were checked, so both
of their nodes exist and the wire can be drawn. Only clearing can still be refused, namely if the
input belongs to a node of the user under the identifier of the Input node, which takes no values.
The wires are cut by then, and they stay cut.

* `Graph.isSome_indexOf?_of_endpointAt`: the node at a place is found by its identifier, whatever
  identifiers there are;
* `Graph.Clears`, `Graph.clears_clearValue`: a change that takes away values only;
* `Function.connect_cases`: **all that connecting can do**;
* `Function.connect_effect`: **when connecting succeeds and what it changes then**, if identifiers
  are distinct;
* `Function.Severs`: when connecting fails too late;
* `Function.connect_failed`: **connecting that fails changes nothing**, unless it fails too late.
-/

import FlowGraph.Proofs.Editing

namespace FlowGraph

/-- The node without its values. -/
def Node.bare (node : Node) : Node :=
  { node with values := .empty }

namespace Graph

variable {F : Type} {g h : Graph F}

theorem endpointAt_eq_ok_iff {place : Place} {endpoint : Endpoint} :
    g.endpointAt place = .ok endpoint ↔
      g.nodeIdAt? place.node = some endpoint.node ∧ endpoint.slot = place.slot := by
  obtain ⟨node, slot⟩ := endpoint
  unfold endpointAt
  cases g.nodeIdAt? place.node with
  | none => simp
  | some found => simp [eq_comm]

/-- The identifier at an index has an index, though not always the same one: identifiers may repeat
or be reserved. -/
theorem isSome_indexOf?_of_nodeIdAt? {index : Nat} {id : NodeId}
    (located : g.nodeIdAt? index = some id) : (g.indexOf? id).isSome := by
  rw [nodeIdAt?_eq] at located
  obtain ⟨node, present, rfl⟩ := Option.map_eq_some_iff.mp located
  rw [indexOf?_isSome_iff]
  have member := List.mem_of_getElem? present
  unfold allNodes at member
  rcases List.mem_append.mp member with front | last
  · rcases List.mem_cons.mp front with rfl | user
    · exact Or.inl rfl
    · exact Or.inr (Or.inr ⟨node, user, rfl⟩)
  · rw [List.mem_singleton.mp last]
    exact Or.inr (Or.inl rfl)

theorem isSome_indexOf?_of_endpointAt {place : Place} {endpoint : Endpoint}
    (located : g.endpointAt place = .ok endpoint) : (g.indexOf? endpoint.node).isSome :=
  isSome_indexOf?_of_nodeIdAt? (endpointAt_eq_ok_iff.mp located).1

/-- Values can be changed at every node with an index but the Input node. -/
theorem modifyValues_succeeds {id : NodeId} (known : (g.indexOf? id).isSome) (inner : id ≠ .input)
    (change : Slots → Slots) : ∃ changed, g.modifyValues id change = .ok changed := by
  unfold modifyValues
  rw [if_neg inner]
  by_cases last : id = .output
  · rw [if_pos last]
    exact ⟨_, rfl⟩
  · rw [← isSome_node? g (NodeId.isBoundary_eq_false_iff.mpr ⟨inner, last⟩)] at known
    rw [if_neg last, if_pos known]
    exact ⟨_, rfl⟩

/-- A wire can be drawn between nodes with an index. -/
theorem addWire_of_isSome {start stop : Endpoint} (first : (g.indexOf? start.node).isSome)
    (second : (g.indexOf? stop.node).isSome) (wire : WireId) :
    g.addWire wire start stop = .ok { g with wires := g.wires ++ [⟨wire, start, stop⟩] } := by
  unfold addWire
  rw [if_neg (by rw [Option.isNone_eq_false_iff.mpr first]; decide),
    if_neg (by rw [Option.isNone_eq_false_iff.mpr second]; decide)]

/-- Cutting wires changes the graph exactly if some wire is cut. -/
theorem disconnect_eq_self_iff {stop : Endpoint} :
    g.disconnect stop = g ↔ ∀ wire ∈ g.wires, wire.stop ≠ stop := by
  constructor
  · intro same wire member
    rw [← same] at member
    exact of_decide_eq_true (List.mem_filter.mp member).2
  · intro apart
    unfold disconnect
    rw [List.filter_eq_self.mpr fun wire member => decide_eq_true (apart wire member)]

/-! ### What a change leaves alone -/

/-- The value set by hand on the input at a place. -/
def valueAt? (g : Graph F) (place : Place) : Option Value :=
  (g.valuesAt place.node).get? place.slot

/-- A change that clears values and does nothing else but to wires: the nodes keep their order,
identifiers, positions and functions, and every value is kept unless its place is one of those that
are cleared. -/
structure Clears (g h : Graph F) (gone : Place → Prop) : Prop where
  nodes : h.nodes.map Node.bare = g.nodes.map Node.bare
  inputPosition : h.inputPosition = g.inputPosition
  outputPosition : h.outputPosition = g.outputPosition
  roster : h.roster = g.roster
  cleared : ∀ place, gone place → h.valueAt? place = none
  kept : ∀ place, ¬ gone place → h.valueAt? place = g.valueAt? place

namespace Clears

variable {gone : Place → Prop}

/-- What nodes say apart from their values is unchanged. -/
theorem map_eq (clears : g.Clears h gone) {α : Type} (part : Node → α)
    (bare : ∀ node : Node, part node.bare = part node) : h.nodes.map part = g.nodes.map part := by
  have same := congrArg (List.map part) clears.nodes
  rw [List.map_map, List.map_map] at same
  simpa only [Function.comp_def, bare] using same

theorem ids (clears : g.Clears h gone) : h.nodes.map Node.id = g.nodes.map Node.id :=
  clears.map_eq Node.id fun _ => rfl

theorem length_eq (clears : g.Clears h gone) : h.nodes.length = g.nodes.length := by
  simpa using congrArg List.length clears.ids

theorem refl (g : Graph F) : g.Clears g fun _ => False :=
  ⟨rfl, rfl, rfl, rfl, fun _ => False.elim, fun _ _ => rfl⟩

/-- Two changes in a row. -/
theorem trans {k : Graph F} {first second : Place → Prop} (one : g.Clears h first)
    (other : h.Clears k second) (either : ∀ place, gone place ↔ first place ∨ second place) :
    g.Clears k gone where
  nodes := other.nodes.trans one.nodes
  inputPosition := other.inputPosition.trans one.inputPosition
  outputPosition := other.outputPosition.trans one.outputPosition
  roster := other.roster.trans one.roster
  cleared place clears := by
    by_cases late : second place
    · exact other.cleared place late
    · rw [other.kept place late]
      exact one.cleared place (((either place).mp clears).resolve_right late)
  kept place keeps := by
    rw [either, not_or] at keeps
    rw [other.kept place keeps.2, one.kept place keeps.1]

/-- Wires do not matter. -/
theorem rewire {before : List Wire} (clears : Clears { g with wires := before } h gone)
    (after : List Wire) : g.Clears { h with wires := after } gone :=
  ⟨clears.nodes, clears.inputPosition, clears.outputPosition, clears.roster, clears.cleared,
    clears.kept⟩

/-- The functions that nodes call are the same. -/
theorem calleeIn?_eq {g h : Graph Function} (clears : g.Clears h gone) (f : Function)
    (index : Nat) : f.calleeIn? h index = f.calleeIn? g index := by
  have called : ∀ (k : Graph Function) (place : Nat),
      (k.nodes[place]?.bind fun node => Function.find? k.roster node.function) =
        (k.nodes.map Node.function)[place]?.bind (Function.find? k.roster) := by
    intro k place
    rw [List.getElem?_map, Option.bind_map]
    rfl
  unfold Function.calleeIn? outputIndex
  rw [called, called, clears.map_eq Node.function fun _ => rfl, clears.roster, clears.length_eq]

end Clears

/-- What a change of values leaves alone. -/
theorem modifyValues_keeps {id : NodeId} {change : Slots → Slots}
    (done : g.modifyValues id change = .ok h) : h.nodes.map Node.bare = g.nodes.map Node.bare ∧
      h.inputPosition = g.inputPosition ∧ h.outputPosition = g.outputPosition := by
  unfold modifyValues at done
  split at done
  · cases done
  · split at done
    · cases done
      exact ⟨rfl, rfl, rfl⟩
    · split at done
      · cases done
        exact ⟨map_modifyFirst Node.bare id (fun node => { node with values := change node.values })
          (fun _ => rfl) g.nodes, rfl, rfl⟩
      · cases done

/-- Values by place and by identifier. -/
theorem valueAt?_eq (distinct : g.DistinctIds) {id : NodeId} {index : Nat}
    (located : g.nodeIdAt? index = some id) (slot : Nat) :
    g.valueAt? ⟨index, slot⟩ = (g.valuesOf id).get? slot := by
  rw [← value?_eq_get?, value?_eq distinct (distinct.indexOf?_of_nodeIdAt? located)]
  rfl

theorem valueAt?_beyond {place : Place} (beyond : g.nodeIdAt? place.node = none) :
    g.valueAt? place = none := by
  rw [nodeIdAt?_eq, Option.map_eq_none_iff] at beyond
  unfold valueAt? valuesAt
  rw [beyond]
  rfl

theorem valueAt?_input (g : Graph F) (slot : Nat) : g.valueAt? ⟨0, slot⟩ = none :=
  rfl

theorem valueAt?_output (g : Graph F) (slot : Nat) :
    g.valueAt? ⟨g.outputIndex, slot⟩ = g.outputValues.get? slot := by
  unfold valueAt?
  rw [valuesAt_output]

/-- Values by place and in order of the nodes. -/
theorem valueAt?_of_getElem? {place : Nat} {values : Slots}
    (found : (g.nodes.map Node.values)[place]? = some values) (slot : Nat) :
    g.valueAt? ⟨place + 1, slot⟩ = values.get? slot := by
  rw [List.getElem?_map] at found
  obtain ⟨node, present, rfl⟩ := Option.map_eq_some_iff.mp found
  unfold valueAt? valuesAt
  rw [allNodes_succ g (List.getElem?_eq_some_iff.mp present).1, present]
  rfl

/-- Clearing the value of an input clears that value and no other. -/
theorem clears_clearValue (distinct : g.DistinctIds) {place : Place} {id : NodeId}
    (located : g.nodeIdAt? place.node = some id)
    (done : g.clearValue id place.slot = .ok h) : g.Clears h (· = place) := by
  obtain ⟨nodes, inputPosition, outputPosition⟩ := modifyValues_keeps done
  obtain ⟨rewritten, _, values⟩ := rewritten_modifyValues done
  have distinct' := distinct.of_ids rewritten.ids
  have same := nodeIdAt?_congr rewritten.ids
  refine ⟨nodes, inputPosition, outputPosition, rewritten.roster, ?_, ?_⟩
  · rintro _ rfl
    rw [valueAt?_eq distinct' ((same _).trans located), values, if_pos rfl, Slots.get?_erase,
      if_pos rfl]
  · rintro ⟨index, slot⟩ apart
    cases other : g.nodeIdAt? index with
    | none => rw [valueAt?_beyond ((same _).trans other), valueAt?_beyond other]
    | some found =>
      rw [valueAt?_eq distinct' ((same _).trans other), valueAt?_eq distinct other, values]
      split
      · next equal =>
        -- The same node, so the slot is another one.
        have sameIndex := Option.some_injective _
          ((distinct.indexOf?_of_nodeIdAt? other).symm.trans
            (equal ▸ distinct.indexOf?_of_nodeIdAt? located))
        rw [Slots.get?_erase, if_neg fun sameSlot => apart (by rw [sameIndex, sameSlot])]
      · rfl

/-- A wire that is drawn comes last. -/
theorem links_append {wire : Wire} {link : Link} (placed : g.link? wire = some link) :
    ({ g with wires := g.wires ++ [wire] } : Graph F).links = g.links ++ [link] := by
  show (g.wires ++ [wire]).filterMap g.link? = _
  rw [List.filterMap_append, List.filterMap_cons_some placed]
  rfl

theorem Rewritten.links_eq (rewritten : g.Rewritten h) : h.links = g.links := by
  unfold links
  rw [rewritten.wires]
  exact List.filterMap_congr fun wire _ => link?_congr rewritten.ids wire

/-- The wires that end at an input are those that end at its place. -/
theorem links_disconnect {stop : Endpoint} {index : Nat}
    (found : g.indexOf? stop.node = some index) :
    (g.disconnect stop).links = g.links.filter fun link => link.stop ≠ ⟨index, stop.slot⟩ := by
  show (g.wires.filter fun wire => wire.stop ≠ stop).filterMap g.link? =
    (g.wires.filterMap g.link?).filter _
  rw [List.filterMap_filter, List.filter_filterMap]
  refine List.filterMap_congr fun wire _ => ?_
  cases placed : g.link? wire with
  | none => simp
  | some link => simp [stop_eq_iff placed found, Option.filter]

end Graph

namespace Function

variable {f : Function} {g : Graph Function} {wire : WireId} {link : Link} {error : EditError}

/-- **All that connecting can do.** It is refused by its checks, or when it comes to clear a value
of the Input node, or else it draws the wire. -/
theorem connect_cases (f : Function) (wire : WireId) (link : Link) :
    (∃ error, f.checkLink link = .error error ∧ f.connect wire link = (f, .error error)) ∨
    ∃ g start stop, f.checkLink link = .ok (g, start, stop) ∧
      (stop.node = .input ∧
          f.connect wire link = (f.setGraph (g.disconnect stop), .error (.boundaryNode .input)) ∨
        stop.node ≠ .input ∧ ∃ cleared,
          (g.disconnect stop).clearValue stop.node stop.slot = .ok cleared ∧
          f.connect wire link =
            (f.setGraph { cleared with wires := cleared.wires ++ [⟨wire, start, stop⟩] },
              .ok ())) := by
  unfold connect
  cases checked : f.checkLink link with
  | error error => exact Or.inl ⟨error, rfl, rfl⟩
  | ok ends =>
    obtain ⟨g, start, stop⟩ := ends
    refine Or.inr ⟨g, start, stop, rfl, ?_⟩
    obtain ⟨_, starts, stops, _⟩ := checkLink_ok checked
    -- Neither of the first two edits changes which identifiers there are.
    have source : ((g.disconnect stop).indexOf? start.node).isSome :=
      Graph.isSome_indexOf?_of_endpointAt starts
    have target : ((g.disconnect stop).indexOf? stop.node).isSome :=
      Graph.isSome_indexOf?_of_endpointAt stops
    by_cases first : stop.node = .input
    · refine Or.inl ⟨first, ?_⟩
      have refused : (g.disconnect stop).clearValue stop.node stop.slot =
          .error (.boundaryNode stop.node) := if_pos first
      dsimp only
      rw [refused, first]
    · obtain ⟨cleared, done⟩ := Graph.modifyValues_succeeds target first
        fun values => values.erase stop.slot
      obtain ⟨rewritten, _⟩ := Graph.rewritten_modifyValues done
      rw [← Graph.indexOf?_congr rewritten.ids] at source target
      have clears : (g.disconnect stop).clearValue stop.node stop.slot = .ok cleared := done
      refine Or.inr ⟨first, cleared, clears, ?_⟩
      dsimp only
      rw [clears]
      dsimp only
      rw [Graph.addWire_of_isSome source target]

/-- A place that passed the checks of an input under the identifier of the Input node belongs to a
node of the user: the Input node itself has no inputs. -/
theorem exists_node_of_checkLink {start : Endpoint} {slot : Nat}
    (checked : f.checkLink link = .ok (g, start, ⟨.input, slot⟩)) :
    slot = link.stop.slot ∧ ∃ node, link.stop.node ≠ 0 ∧
      g.nodes[link.stop.node - 1]? = some node ∧ node.id = .input := by
  obtain ⟨composite, _, stops, _, input, _, takes, _⟩ := checkLink_ok checked
  obtain ⟨located, same⟩ := Graph.endpointAt_eq_ok_iff.mp stops
  refine ⟨same, ?_⟩
  have inner : link.stop.node ≠ 0 := by
    intro first
    unfold inputAt? functionAt? at takes
    rw [composite, Option.bind_some, first] at takes
    cases takes
  have inside : link.stop.node ≠ g.outputIndex := by
    intro last
    rw [last, Graph.nodeIdAt?_output] at located
    exact absurd (Option.some_injective _ located) (show NodeId.output ≠ .input by decide)
  unfold Graph.nodeIdAt? at located
  rw [if_neg inner, if_neg inside] at located
  obtain ⟨node, present, named⟩ := Option.map_eq_some_iff.mp located
  exact ⟨node, inner, present, named⟩

/-! ### Connecting that succeeds -/

/-- The checks of a wire pass exactly if both nodes exist and both slots are declared and have one
type. -/
theorem checkLink_eq_ok_iff (composite : f.graph? = some g) (link : Link) :
    (∃ start stop, f.checkLink link = .ok (g, start, stop)) ↔
      link.start.node < g.nodeCount ∧ link.stop.node < g.nodeCount ∧
        ∃ source target output input, f.functionAt? link.start.node = some source ∧
          f.functionAt? link.stop.node = some target ∧
          source.outputs[link.start.slot]? = some output ∧
          target.inputs[link.stop.slot]? = some input ∧ output.type = input.type := by
  constructor
  · rintro ⟨start, stop, checked⟩
    obtain ⟨_, starts, stops, output, input, has, takes, same⟩ := checkLink_ok checked
    obtain ⟨source, calls, has⟩ := Option.bind_eq_some_iff.mp has
    obtain ⟨target, called, takes⟩ := Option.bind_eq_some_iff.mp takes
    have inside : ∀ {place : Place} {endpoint : Endpoint}, g.endpointAt place = .ok endpoint →
        place.node < g.nodeCount := fun located => by
      rw [← g.isSome_nodeIdAt?, (Graph.endpointAt_eq_ok_iff.mp located).1]
      rfl
    exact ⟨inside starts, inside stops, source, target, output, input, calls, called, has, takes,
      same⟩
  · rintro ⟨first, second, source, target, output, input, calls, called, has, takes, same⟩
    rw [← g.isSome_nodeIdAt?] at first second
    obtain ⟨start, starts⟩ := Option.isSome_iff_exists.mp first
    obtain ⟨stop, stops⟩ := Option.isSome_iff_exists.mp second
    refine ⟨⟨start, link.start.slot⟩, ⟨stop, link.stop.slot⟩, ?_⟩
    have provides : f.outputAt? link.start = some output := by
      unfold outputAt?
      rw [calls, Option.bind_some, has]
    have accepts : f.inputAt? link.stop = some input := by
      unfold inputAt?
      rw [called, Option.bind_some, takes]
    unfold checkLink editable Graph.endpointAt
    rw [composite]
    simp only [bind, Except.bind, starts, stops, provides, accepts]
    rw [if_pos same]

/-- Connecting places that passed the checks. -/
theorem connect_of_checkLink (distinct : g.DistinctIds) {start stop : Endpoint}
    (checked : f.checkLink link = .ok (g, start, stop)) (wire : WireId) :
    ∃ h, f.connect wire link = (f.setGraph h, .ok ()) ∧
      h.links = (g.links.filter fun old => old.stop ≠ link.stop) ++ [link] ∧
      g.Clears h (· = link.stop) := by
  obtain ⟨composite, starts, stops, _⟩ := checkLink_ok checked
  obtain ⟨located, startSlot⟩ := Graph.endpointAt_eq_ok_iff.mp starts
  obtain ⟨locatedStop, stopSlot⟩ := Graph.endpointAt_eq_ok_iff.mp stops
  have foundStart := distinct.indexOf?_of_nodeIdAt? located
  have foundStop := distinct.indexOf?_of_nodeIdAt? locatedStop
  rcases connect_cases f wire link with ⟨error, refused, _⟩ |
    ⟨_, _, _, again, ⟨first, _⟩ | ⟨_, cleared, clears, outcome⟩⟩
  · cases checked.symm.trans refused
  · cases checked.symm.trans again
    obtain ⟨node, slot⟩ := stop
    cases first
    obtain ⟨_, node, _, present, named⟩ := exists_node_of_checkLink checked
    exact absurd named (distinct.ne_input (List.mem_of_getElem? present))
  · cases checked.symm.trans again
    rw [stopSlot] at clears
    have cut : (g.disconnect stop).DistinctIds := ⟨distinct.nodup, distinct.inner⟩
    have frame := Graph.clears_clearValue cut locatedStop clears
    obtain ⟨rewritten, _⟩ := Graph.rewritten_modifyValues clears
    have placed : g.link? ⟨wire, start, stop⟩ = some link :=
      (g.link?_eq_some_iff _ _).mpr ⟨foundStart, startSlot, foundStop, stopSlot⟩
    refine ⟨_, outcome, ?_, frame.rewire _⟩
    rw [Graph.links_append ((Graph.link?_congr rewritten.ids _).trans placed), rewritten.links_eq,
      Graph.links_disconnect foundStop, stopSlot]

/-- Connecting places that did not pass the checks changes nothing. -/
theorem connect_of_error {error : EditError} (refused : f.checkLink link = .error error)
    (wire : WireId) : f.connect wire link = (f, .error error) := by
  unfold connect
  rw [refused]

/-- **The exact effect of connecting** two places. It succeeds exactly if both nodes exist, both
slots are declared and their types agree. Then the new wire comes last, in place of all wires that
ended at the same input, the value of that input is gone, and nothing else is changed: not the
function around the graph, no node or position, and no other value. Connecting the same places once
more has the same outcome and leaves wires and values as they are. -/
theorem connect_effect (composite : f.graph? = some g) (distinct : g.DistinctIds)
    (wire again : WireId) (link : Link) :
    ((f.connect wire link).2 = .ok () ↔
      link.start.node < g.nodeCount ∧ link.stop.node < g.nodeCount ∧
        ∃ source target output input, f.functionAt? link.start.node = some source ∧
          f.functionAt? link.stop.node = some target ∧
          source.outputs[link.start.slot]? = some output ∧
          target.inputs[link.stop.slot]? = some input ∧ output.type = input.type) ∧
    ((f.connect wire link).2 = .ok () → ∃ h, (f.connect wire link).1 = f.setGraph h ∧
      h.links = (g.links.filter fun old => old.stop ≠ link.stop) ++ [link] ∧
      g.Clears h (· = link.stop)) ∧
    ∃ h k, (f.connect wire link).1.graph? = some h ∧
      ((f.connect wire link).1.connect again link).1.graph? = some k ∧
      ((f.connect wire link).1.connect again link).2 = (f.connect wire link).2 ∧
      k.links = h.links ∧ ∀ place, k.valueAt? place = h.valueAt? place := by
  rw [← checkLink_eq_ok_iff composite link]
  cases checked : f.checkLink link with
  | error error =>
    rw [connect_of_error checked, connect_of_error checked]
    refine ⟨iff_of_false (by simp) (by simp), ?_, ?_⟩
    · intro done
      cases done
    · exact ⟨g, g, composite, composite, rfl, rfl, fun _ => rfl⟩
  | ok ends =>
    obtain ⟨graph, start, stop⟩ := ends
    cases composite.symm.trans (checkLink_ok checked).1
    obtain ⟨h, once, links, clears⟩ := connect_of_checkLink distinct checked wire
    -- The second time the same functions are called, so the checks pass again.
    have passes : ∃ start stop, (f.setGraph h).checkLink link = .ok (h, start, stop) := by
      have callees : ∀ index, (f.setGraph h).functionAt? index = f.functionAt? index := by
        intro index
        unfold functionAt?
        rw [composite]
        exact clears.calleeIn?_eq f index
      have count : h.nodeCount = g.nodeCount := congrArg (· + 2) clears.length_eq
      rw [checkLink_eq_ok_iff rfl, callees, callees, count, ← checkLink_eq_ok_iff composite]
      exact ⟨start, stop, checked⟩
    obtain ⟨start', stop', checked'⟩ := passes
    obtain ⟨k, twice, links', clears'⟩ :=
      connect_of_checkLink (distinct.of_ids clears.ids) checked' again
    rw [once]
    refine ⟨iff_of_true rfl ⟨start, stop, rfl⟩, fun _ => ⟨h, rfl, links, clears⟩, h, k, rfl, ?_⟩
    rw [twice]
    refine ⟨rfl, rfl, ?_, fun place => ?_⟩
    · simp [links', links, List.filter_append]
    · by_cases fed : place = link.stop
      · rw [clears'.cleared place fed, clears.cleared place fed]
      · exact clears'.kept place fed

/-- The output of the sample composite is joined to its input: the wire to the output is replaced,
and the first wire stays. -/
theorem inverter_connect_effect :
    (inverter.connect ⟨.ofNat 9⟩ ⟨⟨0, 1⟩, ⟨2, 1⟩⟩).2 = .ok () ∧
      ∃ h, (inverter.connect ⟨.ofNat 9⟩ ⟨⟨0, 1⟩, ⟨2, 1⟩⟩).1 = inverter.setGraph h ∧
        h.links = [⟨⟨0, 1⟩, ⟨1, 1⟩⟩, ⟨⟨0, 1⟩, ⟨2, 1⟩⟩] ∧ h.valueAt? ⟨1, 0⟩ = some .signal ∧
        h.valueAt? ⟨2, 1⟩ = none := by
  obtain ⟨succeeds, effect, _⟩ := connect_effect (f := inverter) rfl inverterGraph_distinctIds
    ⟨.ofNat 9⟩ ⟨.ofNat 9⟩ ⟨⟨0, 1⟩, ⟨2, 1⟩⟩
  have done := succeeds.mpr ⟨by decide, by decide, inverter.inputBoundary, inverter.outputBoundary,
    flag, flag, rfl, rfl, rfl, rfl, rfl⟩
  obtain ⟨h, same, links, clears⟩ := effect done
  refine ⟨done, h, same, links.trans (by decide +kernel), ?_, clears.cleared _ rfl⟩
  exact (clears.kept ⟨1, 0⟩ (by decide)).trans (by decide +kernel)

/-! ### Connecting that fails -/

/-- **Connecting fails too late**: its checks pass, but the input goes under the identifier of the
Input node, and there are wires that end at this slot. -/
def Severs (f : Function) (link : Link) : Prop :=
  ∃ g start, f.checkLink link = .ok (g, start, ⟨.input, link.stop.slot⟩) ∧
    ∃ wire ∈ g.wires, wire.stop = ⟨.input, link.stop.slot⟩

theorem setGraph_eq_self_iff (composite : f.graph? = some g) (changed : Graph Function) :
    f.setGraph changed = f ↔ changed = g := by
  constructor
  · intro same
    have graphs := congrArg graph? same
    rw [composite] at graphs
    exact Option.some_injective _ graphs
  · rintro rfl
    unfold setGraph
    rw [← body_of_graph? composite]
    cases f
    rfl

/-- **Connecting that fails changes nothing**, unless it fails too late. Then it ends at a node of
the user under the identifier of the Input node, and the wires that end at that slot are gone while
all else is as it was. -/
theorem connect_failed (failed : (f.connect wire link).2 = .error error) :
    ((f.connect wire link).1 = f ↔ ¬ f.Severs link) ∧
      (f.Severs link → error = .boundaryNode .input ∧ ∃ g, f.graph? = some g ∧
        (∃ node, g.nodes[link.stop.node - 1]? = some node ∧ node.id = .input) ∧
        (f.connect wire link).1 = f.setGraph (g.disconnect ⟨.input, link.stop.slot⟩)) := by
  rcases connect_cases f wire link with ⟨reason, refused, outcome⟩ |
    ⟨g, start, ⟨node, slot⟩, checked, ⟨rfl, outcome⟩ | ⟨_, _, _, outcome⟩⟩
  · have early : ¬ f.Severs link := by
      rintro ⟨g, start, checked, _⟩
      rw [refused] at checked
      cases checked
    rw [outcome]
    exact ⟨iff_of_true rfl early, fun late => absurd late early⟩
  · obtain ⟨rfl, node, _, present, named⟩ := exists_node_of_checkLink checked
    have composite := (checkLink_ok checked).1
    rw [outcome] at failed ⊢
    cases failed
    refine ⟨?_, fun _ => ⟨rfl, g, composite, ⟨node, present, named⟩, rfl⟩⟩
    rw [setGraph_eq_self_iff composite, Graph.disconnect_eq_self_iff]
    constructor
    · rintro apart ⟨other, start', again, cut, member, stops⟩
      rw [checked] at again
      cases again
      exact apart cut member stops
    · intro whole cut member stops
      exact whole ⟨g, start, checked, cut, member, stops⟩
  · rw [outcome] at failed
    cases failed

/-- A graph whose only node goes under the identifier of the Input node, with a wire to it. -/
def usurpedGraph : Graph Function :=
  { Graph.new [⟨"Logic", [negation]⟩] with
    nodes := [.new .input "not" ⟨0, 0⟩]
    wires := [⟨⟨.ofNat 3⟩, ⟨.input, 1⟩, ⟨.input, 1⟩⟩] }

/-- A composite with such a graph. -/
def usurped : Function :=
  composite "usurped" "Usurped" [flag] [] usurpedGraph

/-- The link from the input of that composite to its node. -/
def usurpedLink : Link :=
  ⟨⟨0, 1⟩, ⟨1, 1⟩⟩

theorem usurped_connect_failed :
    (usurped.connect ⟨.ofNat 4⟩ ⟨⟨0, 1⟩, ⟨1, 2⟩⟩).2 = .error (.slotOutOfRange 1 2) ∧
      (usurped.connect ⟨.ofNat 4⟩ ⟨⟨0, 1⟩, ⟨1, 2⟩⟩).1 = usurped := by
  have failed : (usurped.connect ⟨.ofNat 4⟩ ⟨⟨0, 1⟩, ⟨1, 2⟩⟩).2 = .error (.slotOutOfRange 1 2) := by
    rfl
  refine ⟨failed, (connect_failed failed).1.mpr ?_⟩
  rintro ⟨g, start, checked, _⟩
  cases checked

/-- **Connecting that fails can change a composite**: the wire that was there is gone. -/
theorem usurped_severed :
    (usurped.connect ⟨.ofNat 4⟩ usurpedLink).2 = .error (.boundaryNode .input) ∧
      usurped.graph?.map Graph.wires = some [⟨⟨.ofNat 3⟩, ⟨.input, 1⟩, ⟨.input, 1⟩⟩] ∧
      (usurped.connect ⟨.ofNat 4⟩ usurpedLink).1.graph?.map Graph.wires = some [] ∧
      (usurped.connect ⟨.ofNat 4⟩ usurpedLink).1 ≠ usurped := by
  have severed : (usurped.connect ⟨.ofNat 4⟩ usurpedLink).1.graph?.map Graph.wires = some [] := by
    decide +kernel
  refine ⟨by decide +kernel, by decide +kernel, severed, fun same => ?_⟩
  rw [same] at severed
  exact absurd severed (by decide +kernel)

end Function

end FlowGraph
