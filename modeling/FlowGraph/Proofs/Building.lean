/-
**What a blueprint builds.**

The calls that describe a composite may come in any order, except that a value belongs to the node
placed last. So each part of the finished composite is read off the row of calls: its wires are the
wires in the order in which they were drawn, the values of a node are those set between its call and
that of the next node, and a slot that a wire ends at has no value. Building fails only if a wire
leads to a node that was never placed, wherever in the row it was drawn.

* `BuildStep.nodeValues`: which values are set on which node;
* `BuildStep.foldl_onRows`: the values of all nodes after a row of calls;
* `Blueprint.step_collects`, `Blueprint.steps_collects`: what one call and a row of calls add;
* `Blueprint.drawAll_inside`, `Blueprint.drawAll_outside`: drawing the wires;
* `Blueprint.build_steps`: **what a blueprint builds**, for every row of calls.
-/

import FlowGraph.Blueprint
import FlowGraph.Proofs.Connecting
import FlowGraph.Proofs.ReportEntries
import FlowGraph.Proofs.RoundTrip

namespace FlowGraph

/-! ### Values that are set several times -/

namespace Slots

/-- Of several values for one slot the last stays. -/
theorem get?_insertAll (slots : Slots) (entries : List (Nat × Value)) (slot : Nat) :
    (slots.insertAll entries).get? slot =
      (entries.reverse.lookup slot).or (slots.get? slot) := by
  induction entries generalizing slots with
  | nil => rfl
  | cons entry rest ih =>
    obtain ⟨key, value⟩ := entry
    show ((slots.insert key value).insertAll rest).get? slot = _
    rw [ih, get?_insert, List.reverse_cons, List.lookup_append, lookup_entry, Option.or_assoc]
    split <;> rfl

/-- The values of a second collection take the place of those of the first. -/
theorem get?_insertAll_entries (slots others : Slots) (slot : Nat) :
    (slots.insertAll others.entries).get? slot = (others.get? slot).or (slots.get? slot) := by
  have rebuilt := get?_insertAll empty others.entries slot
  rw [show empty.insertAll others.entries = others from ofList_entries others, get?_empty,
    Option.or_none] at rebuilt
  rw [get?_insertAll, rebuilt]

end Slots

/-! ### Reading a row of calls -/

/-- The function and the position of a node. -/
def Node.placement (node : Node) : String × Position :=
  (node.function, node.position)

namespace BuildStep

/-- The function and the position of the node that a call places. -/
def placement? : BuildStep → Option (String × Position)
  | .node function => some (function, Layout.nodePosition)
  | .nodeAt function position => some (function, position)
  | _ => none

/-- Whether the call places a node. -/
def isPlacing (call : BuildStep) : Bool :=
  call.placement?.isSome

/-- The wire that a call draws. -/
def link? : BuildStep → Option Link
  | .wire link => some link
  | _ => none

/-- The value that a call sets on the node placed last. -/
def value? : BuildStep → Option (Nat × Value)
  | .value slot set => some (slot, set)
  | _ => none

/-- The value that a call sets on the Output node. -/
def outputValue? : BuildStep → Option (Nat × Value)
  | .outputValue slot set => some (slot, set)
  | _ => none

/-- The values that calls set before they place another node. -/
def ownValues (calls : List BuildStep) : List (Nat × Value) :=
  (calls.takeWhile fun call => !call.isPlacing).filterMap value?

/-- The values that are set on each node: by the calls between the one that places it and the next
one that places a node. -/
def nodeValues : List BuildStep → List (List (Nat × Value))
  | [] => []
  | call :: calls =>
    if call.isPlacing then ownValues calls :: nodeValues calls else nodeValues calls

/-- What a call does to the values of the nodes placed so far. -/
def onRows (call : BuildStep) (rows : List Slots) : List Slots :=
  if call.isPlacing then rows ++ [.initial]
  else match call.value? with
    | some (slot, set) => rows.modifyLast fun values => values.insert slot set
    | none => rows

theorem ownValues_of_isPlacing {call : BuildStep} (places : call.isPlacing = true)
    (calls : List BuildStep) : ownValues (call :: calls) = [] := by
  unfold ownValues
  rw [List.takeWhile_cons_of_neg (by simp [places])]
  rfl

theorem ownValues_of_not_isPlacing {call : BuildStep} (stays : call.isPlacing = false)
    (calls : List BuildStep) :
    ownValues (call :: calls) = call.value?.toList ++ ownValues calls := by
  unfold ownValues
  rw [List.takeWhile_cons_of_pos (by simp [stays]), List.filterMap_cons]
  cases call.value? <;> rfl

/-- With a node at hand, the values set first go to it. -/
theorem foldl_onRows_concat (calls : List BuildStep) (rows : List Slots) (last : Slots) :
    calls.foldl (fun rows call => call.onRows rows) (rows ++ [last]) =
      rows ++ last.insertAll (ownValues calls) ::
        (nodeValues calls).map fun values => Slots.initial.insertAll values := by
  induction calls generalizing rows last with
  | nil => rfl
  | cons call calls ih =>
    rw [List.foldl_cons, nodeValues, onRows]
    cases places : call.isPlacing with
    | true =>
      rw [if_pos rfl, if_pos rfl, ih, ownValues_of_isPlacing places, List.append_assoc]
      rfl
    | false =>
      rw [if_neg Bool.false_ne_true, if_neg Bool.false_ne_true, ownValues_of_not_isPlacing places]
      cases call.value? with
      | none => exact ih rows last
      | some entry =>
        dsimp only
        rw [List.modifyLast_concat, ih]
        rfl

/-- **The values of all nodes** after a row of calls. -/
theorem foldl_onRows (calls : List BuildStep) :
    calls.foldl (fun rows call => call.onRows rows) [] =
      (nodeValues calls).map fun values => Slots.initial.insertAll values := by
  induction calls with
  | nil => rfl
  | cons call calls ih =>
    rw [List.foldl_cons, nodeValues, onRows]
    cases places : call.isPlacing with
    | true =>
      rw [if_pos rfl, if_pos rfl, foldl_onRows_concat]
      rfl
    | false =>
      rw [if_neg Bool.false_ne_true, if_neg Bool.false_ne_true]
      cases call.value? with
      | none => exact ih
      | some entry => exact ih

end BuildStep

namespace Blueprint

variable {b next : Blueprint} {g : Graph Function}

/-! ### Collecting the parts -/

/-- What a row of calls adds to a blueprint. -/
structure Collects (b : Blueprint) (calls : List BuildStep) (next : Blueprint) : Prop where
  links : next.links = b.links ++ calls.filterMap BuildStep.link?
  outputValues : next.outputValues =
    b.outputValues.insertAll (calls.filterMap BuildStep.outputValue?)
  placements : next.nodes.map Node.placement =
    b.nodes.map Node.placement ++ calls.filterMap BuildStep.placement?
  values : next.nodes.map Node.values =
    calls.foldl (fun rows call => call.onRows rows) (b.nodes.map Node.values)

theorem Collects.refl (b : Blueprint) : b.Collects [] b :=
  ⟨(List.append_nil _).symm, rfl, (List.append_nil _).symm, rfl⟩

theorem Collects.trans {last : Blueprint} {call : BuildStep} {calls : List BuildStep}
    (first : b.Collects [call] next) (rest : next.Collects calls last) :
    b.Collects (call :: calls) last where
  links := by
    rw [rest.links, first.links, List.append_assoc, ← List.filterMap_append]
    rfl
  outputValues := by
    rw [rest.outputValues, first.outputValues, Slots.insertAll, Slots.insertAll,
      ← List.foldl_append, ← List.filterMap_append]
    rfl
  placements := by
    rw [rest.placements, first.placements, List.append_assoc, ← List.filterMap_append]
    rfl
  values := by
    rw [rest.values, first.values]
    rfl

/-- A value that is set on the node placed last. -/
theorem setLastValue_concat (slot : Nat) (value : Value) (nodes : List Node) (last : Node) :
    setLastValue slot value (nodes ++ [last]) = nodes ++ [last.withValue slot value] := by
  induction nodes with
  | nil => rfl
  | cons node rest ih =>
    rw [List.cons_append, setLastValue, ih]
    · rfl
    · simp

theorem map_placement_setLastValue (slot : Nat) (value : Value) (nodes : List Node) :
    (setLastValue slot value nodes).map Node.placement = nodes.map Node.placement ∧
      (setLastValue slot value nodes).map Node.values =
        (nodes.map Node.values).modifyLast fun values => values.insert slot value := by
  rcases List.eq_nil_or_concat nodes with rfl | ⟨front, last, rfl⟩
  · exact ⟨rfl, rfl⟩
  · rw [List.concat_eq_append, setLastValue_concat]
    simp only [List.map_append, List.map_cons, List.map_nil, List.modifyLast_concat]
    exact ⟨rfl, rfl⟩

/-- **One call.** -/
theorem step_collects (b : Blueprint) (call : BuildStep) (supply : IdSupply) :
    b.Collects [call] (b.step call supply).1 := by
  have nothing := Collects.refl b
  cases call with
  | description _ | layout _ | input _ _ | output _ _ | folders _ =>
    exact ⟨nothing.links, nothing.outputValues, nothing.placements, rfl⟩
  | node function =>
    exact ⟨nothing.links, nothing.outputValues, List.map_append, List.map_append⟩
  | nodeAt function position =>
    exact ⟨nothing.links, nothing.outputValues, List.map_append, List.map_append⟩
  | value slot set =>
    obtain ⟨placements, values⟩ := map_placement_setLastValue slot set b.nodes
    exact ⟨nothing.links, nothing.outputValues, placements.trans nothing.placements, values⟩
  | outputValue slot set => exact ⟨nothing.links, rfl, nothing.placements, rfl⟩
  | wire link => exact ⟨rfl, nothing.outputValues, nothing.placements, rfl⟩

/-- **A row of calls.** -/
theorem steps_collects (b : Blueprint) (calls : List BuildStep) (supply : IdSupply) :
    b.Collects calls (b.steps calls supply).1 := by
  induction calls generalizing b supply with
  | nil => exact .refl b
  | cons call calls ih => exact (step_collects b call supply).trans (ih _ _)

/-- The parts that a row of calls has described. -/
theorem parts_of_steps {id name : String} {calls : List BuildStep} {supply later : IdSupply}
    (described : steps { id := id, name := name } calls supply = (b, later)) :
    b.links = calls.filterMap BuildStep.link? ∧
      b.nodes.length = calls.countP BuildStep.isPlacing ∧
      b.nodes.map Node.placement = calls.filterMap BuildStep.placement? ∧
      b.nodes.map Node.values =
        (BuildStep.nodeValues calls).map (fun values => Slots.initial.insertAll values) ∧
      b.outputValues = Slots.empty.insertAll (calls.filterMap BuildStep.outputValue?) := by
  have collects : Collects { id := id, name := name } calls b := by
    have all := steps_collects { id := id, name := name } calls supply
    rwa [described] at all
  have placed : b.nodes.map Node.placement = calls.filterMap BuildStep.placement? :=
    collects.placements
  refine ⟨collects.links, ?_, placed, collects.values.trans (BuildStep.foldl_onRows calls),
    collects.outputValues⟩
  have length := congrArg List.length placed
  rwa [List.length_map, List.length_filterMap_eq_countP] at length

/-! ### Drawing the wires -/

/-- Drawing a wire between nodes that exist. -/
theorem draw_inside (whole : g.Whole) (id : WireId) {link : Link}
    (start : link.start.node < g.nodeCount) (stop : link.stop.node < g.nodeCount) :
    ∃ h, draw g id link = .ok h ∧ h.Whole ∧ h.links = g.links ++ [link] ∧
      g.Clears h (· = link.stop) := by
  obtain ⟨wire, placed, added⟩ := Codec.addLink_of_inside whole.distinct id start stop
  obtain ⟨target, located⟩ :=
    Option.isSome_iff_exists.mp ((g.isSome_nodeIdAt? link.stop.node).mpr stop)
  have found := whole.distinct.indexOf?_of_nodeIdAt? located
  obtain ⟨wired, _⟩ := whole.link wire.id placed
  have links := Graph.links_append placed
  unfold draw Graph.endpointAt
  simp only [bind, Except.bind, located, added]
  by_cases first : target = .input
  · rw [if_pos first]
    refine ⟨_, rfl, wired, links, rfl, rfl, rfl, rfl, ?_, fun _ _ => rfl⟩
    -- The Input node has no value to be cleared.
    rintro _ rfl
    have zero : link.stop.node = 0 :=
      Option.some_injective _ (found.symm.trans (by rw [first]; rfl))
    rw [show link.stop = ⟨0, link.stop.slot⟩ by rw [← zero]]
    exact Graph.valueAt?_input _ _
  · rw [if_neg first]
    obtain ⟨cleared, done⟩ := Graph.modifyValues_succeeds
      (g := { g with wires := g.wires ++ [wire] }) (Option.isSome_of_eq_some found) first
      fun values => values.erase link.stop.slot
    obtain ⟨rewritten, _⟩ := Graph.rewritten_modifyValues done
    have frame := Graph.clears_clearValue wired.distinct located done
    exact ⟨cleared, done, (wired.of_ids rewritten.ids rewritten.wires).1,
      rewritten.links_eq.trans links, frame.rewire cleared.wires⟩

/-- Drawing a wire that leads to a node which does not exist. -/
theorem draw_outside (id : WireId) {link : Link}
    (outside : ¬ (link.start.node < g.nodeCount ∧ link.stop.node < g.nodeCount)) :
    ∃ error, draw g id link = .error error := by
  obtain ⟨error, refused⟩ := Codec.addLink_of_outside id outside
  unfold draw
  cases g.endpointAt link.stop with
  | error early => exact ⟨early, rfl⟩
  | ok stop =>
    rw [refused]
    exact ⟨error, rfl⟩

theorem drawAll_cons (link : Link) (links : List Link) (g : Graph Function) (supply : IdSupply) :
    drawAll (link :: links) g supply =
      match draw g ⟨supply.draw supply.next⟩ link with
      | .ok wired => drawAll links wired { supply with next := supply.next + 1 }
      | .error error => (.error error, { supply with next := supply.next + 1 }) := by
  rw [drawAll, Codec.bind_eq (Codec.draw_eq supply)]
  cases draw g ⟨supply.draw supply.next⟩ link <;> rfl

/-- **Drawing wires between nodes that exist**: they follow the others in order, and the slots that
they end at lose their values. -/
theorem drawAll_inside (links : List Link) (whole : g.Whole) (supply : IdSupply)
    (inside : ∀ link ∈ links, link.start.node < g.nodeCount ∧ link.stop.node < g.nodeCount) :
    ∃ h later, drawAll links g supply = (.ok h, later) ∧ h.Whole ∧ h.links = g.links ++ links ∧
      g.Clears h fun place => ∃ link ∈ links, link.stop = place := by
  induction links generalizing g supply with
  | nil =>
    refine ⟨g, supply, rfl, whole, (List.append_nil _).symm, ?_⟩
    simpa using Graph.Clears.refl g
  | cons link links ih =>
    obtain ⟨start, stop⟩ := inside link List.mem_cons_self
    obtain ⟨wired, drawn, still, first, clears⟩ :=
      draw_inside whole ⟨supply.draw supply.next⟩ start stop
    have count : wired.nodeCount = g.nodeCount := congrArg (· + 2) clears.length_eq
    obtain ⟨h, later, drawnAll, stays, rest, clearsAll⟩ := ih still
      { supply with next := supply.next + 1 } fun other member => by
        rw [count]
        exact inside other (List.mem_cons_of_mem _ member)
    refine ⟨h, later, ?_, stays, ?_, ?_⟩
    · rw [drawAll_cons, drawn]
      exact drawnAll
    · rw [rest, first, List.append_assoc]
      rfl
    · exact clears.trans clearsAll fun place => by simp [eq_comm]

/-- **Drawing wires fails** if one of them, wherever it stands, leads to a node that does not
exist. -/
theorem drawAll_outside (links : List Link) (whole : g.Whole) (supply : IdSupply)
    (outside : ¬ ∀ link ∈ links, link.start.node < g.nodeCount ∧ link.stop.node < g.nodeCount) :
    ∃ error later, drawAll links g supply = (.error error, later) := by
  induction links generalizing g supply with
  | nil => exact absurd (fun _ member => by cases member) outside
  | cons link links ih =>
    by_cases inside : link.start.node < g.nodeCount ∧ link.stop.node < g.nodeCount
    · obtain ⟨wired, drawn, still, _, clears⟩ :=
        draw_inside whole ⟨supply.draw supply.next⟩ inside.1 inside.2
      have count : wired.nodeCount = g.nodeCount := congrArg (· + 2) clears.length_eq
      rw [drawAll_cons, drawn]
      refine ih still _ fun rest => outside ?_
      rw [count] at rest
      exact List.forall_mem_cons.mpr ⟨inside, rest⟩
    · obtain ⟨error, refused⟩ := draw_outside ⟨supply.draw supply.next⟩ inside
      rw [drawAll_cons, refused]
      exact ⟨error, _, rfl⟩

/-! ### The finished function -/

/-- The value that a slot ends up with: none if a wire ends there, else the one set last, and else
the signal in slot zero. -/
def settledValue (set : List (Nat × Value)) (links : List Link) (place : Place) : Option Value :=
  if ∃ link ∈ links, link.stop = place then none
  else (set.reverse.lookup place.slot).or (if place.slot = 0 then some .signal else none)

/-- A blueprint has no wires until it is built. -/
theorem unwired_whole (distinct : b.unwired.DistinctIds) : b.unwired.Whole :=
  ⟨distinct, fun _ member => absurd member List.not_mem_nil⟩

/-- **Building** a blueprint whose wires lead to nodes that were placed. -/
theorem build_inside (distinct : b.unwired.DistinctIds) (supply : IdSupply)
    (inside : ∀ link ∈ b.links,
      link.start.node ≤ b.nodes.length + 1 ∧ link.stop.node ≤ b.nodes.length + 1) :
    ∃ f g later, b.build supply = (.ok f, later) ∧ f.graph? = some g ∧ g.Whole ∧
      g.links = b.links ∧ b.unwired.Clears g fun place => ∃ link ∈ b.links, link.stop = place := by
  obtain ⟨g, later, drawn, whole, links, clears⟩ :=
    drawAll_inside b.links (unwired_whole distinct) supply fun link member =>
      (inside link member).imp Nat.lt_succ_of_le Nat.lt_succ_of_le
  have built : ∃ f, b.build supply = (.ok f, later) ∧ f.graph? = some g := by
    unfold build
    rw [Codec.bind_eq drawn]
    exact ⟨_, rfl, rfl⟩
  obtain ⟨f, built, composite⟩ := built
  exact ⟨f, g, later, built, composite, whole, links, clears⟩

theorem build_outside (distinct : b.unwired.DistinctIds) (supply : IdSupply)
    (outside : ¬ ∀ link ∈ b.links,
      link.start.node ≤ b.nodes.length + 1 ∧ link.stop.node ≤ b.nodes.length + 1) :
    ∃ error later, b.build supply = (.error error, later) := by
  obtain ⟨error, later, refused⟩ := drawAll_outside b.links (unwired_whole distinct) supply
    fun inside => outside fun link member =>
      (inside link member).imp Nat.le_of_lt_succ Nat.le_of_lt_succ
  refine ⟨error, later, ?_⟩
  unfold build
  rw [Codec.bind_eq refused]
  rfl

/-- Values that no wire replaces are those of the blueprint. -/
theorem valueAt?_settled {set : List (Nat × Value)} {links : List Link} {place : Place}
    (clears : b.unwired.Clears g fun place => ∃ link ∈ links, link.stop = place)
    (before : b.unwired.valueAt? place = (Slots.initial.insertAll set).get? place.slot) :
    g.valueAt? place = settledValue set links place := by
  unfold settledValue
  split
  · next wired => exact clears.cleared place wired
  · next free =>
    rw [clears.kept place free, before, Slots.get?_insertAll, Slots.get?_initial]

/-- No wire ends at a slot with a value, so none is reported. -/
theorem not_isShadowedValue {f : Function} (composite : f.graph? = some g) (whole : g.Whole)
    (unshadowed : ∀ link ∈ g.links, g.valueAt? link.stop = none) (types : Option Registry) :
    ∀ problem ∈ f.validate types, problem.isShadowedValue = false := by
  have none : (f.validate types).filter Problem.isShadowedValue = [] := by
    rw [Function.filter_isShadowedValue_validate composite whole.joined, List.map_eq_nil_iff,
      List.filter_eq_nil_iff]
    intro wire member
    obtain ⟨link, placed⟩ := Option.isSome_iff_exists.mp (whole.joined wire member)
    obtain ⟨_, _, found, slot⟩ := (g.link?_eq_some_iff wire link).mp placed
    rw [Graph.value?_eq whole.distinct found, slot]
    simpa [Graph.valueAt?] using unshadowed link (Graph.mem_links.mpr ⟨wire, member, placed⟩)
  simpa [List.filter_eq_nil_iff] using none

/-- **What a blueprint builds**, for every row of calls in any order. Building succeeds exactly if
all wires lead to nodes that are placed by some call, be it a later one. Then the wires are those
drawn, in the order of the calls, and the nodes are those placed, each with the values set on it
before the next one was placed, except where a wire ends. The same holds of the Output node. So no
slot has both a wire and a value, and none is reported to have both. -/
theorem build_steps (id name : String) (calls : List BuildStep) {supply later : IdSupply}
    (described : steps { id := id, name := name } calls supply = (b, later))
    (distinct : b.unwired.DistinctIds) :
    let count := calls.countP BuildStep.isPlacing
    let links := calls.filterMap BuildStep.link?
    ((∃ f last, b.build later = (.ok f, last)) ↔
      ∀ link ∈ links, link.start.node ≤ count + 1 ∧ link.stop.node ≤ count + 1) ∧
    ∀ f last, b.build later = (.ok f, last) → ∃ g, f.graph? = some g ∧ g.links = links ∧
      g.nodes.length = count ∧ (BuildStep.nodeValues calls).length = count ∧
      g.nodes.map Node.placement = calls.filterMap BuildStep.placement? ∧
      (∀ place set, (BuildStep.nodeValues calls)[place]? = some set → ∀ slot,
        g.valueAt? ⟨place + 1, slot⟩ = settledValue set links ⟨place + 1, slot⟩) ∧
      (∀ slot, g.valueAt? ⟨count + 1, slot⟩ =
        settledValue (calls.filterMap BuildStep.outputValue?) links ⟨count + 1, slot⟩) ∧
      (∀ link ∈ g.links, g.valueAt? link.stop = none) ∧
      ∀ types, ∀ problem ∈ f.validate types, problem.isShadowedValue = false := by
  intro count links
  obtain ⟨drawn, length, placed, rows, outputs⟩ := parts_of_steps described
  rw [show links = b.links from drawn.symm, show count = b.nodes.length from length.symm]
  by_cases inside : ∀ link ∈ b.links,
      link.start.node ≤ b.nodes.length + 1 ∧ link.stop.node ≤ b.nodes.length + 1
  · obtain ⟨f, g, last, built, composite, whole, same, clears⟩ := build_inside distinct later inside
    refine ⟨iff_of_true ⟨f, last, built⟩ inside, fun _ _ again => ?_⟩
    cases built.symm.trans again
    have unshadowed : ∀ link ∈ g.links, g.valueAt? link.stop = none := fun link member =>
      clears.cleared link.stop ⟨link, same ▸ member, rfl⟩
    refine ⟨g, composite, same, clears.length_eq, ?_, ?_, fun place set found slot => ?_,
      fun slot => ?_, unshadowed, not_isShadowedValue composite whole unshadowed⟩
    · simpa using (congrArg List.length rows).symm
    · exact (clears.map_eq Node.placement fun _ => rfl).trans placed
    · refine valueAt?_settled clears (Graph.valueAt?_of_getElem? ?_ slot)
      show (b.nodes.map Node.values)[place]? = _
      rw [rows, List.getElem?_map, found]
      rfl
    · refine valueAt?_settled clears ((Graph.valueAt?_output b.unwired slot).trans ?_)
      show (Slots.initial.insertAll b.outputValues.entries).get? slot = _
      rw [Slots.get?_insertAll_entries, outputs, Slots.get?_insertAll,
        Slots.get?_insertAll, Slots.get?_empty, Option.or_none]
  · obtain ⟨error, last, refused⟩ := build_outside distinct later inside
    refine ⟨iff_of_false ?_ inside, ?_⟩
    · rintro ⟨f, last, built⟩
      cases refused.symm.trans built
    · intro f last built
      cases refused.symm.trans built

/-- Calls that draw wires before they place the nodes, and set values early, twice and where a wire
ends. -/
def relayCalls : List BuildStep :=
  [.wire ⟨⟨1, 1⟩, ⟨2, 1⟩⟩,
    .value 1 (.text "too early"),
    .node "first",
    .value 1 (.boolean true),
    .outputValue 0 .noSignal,
    .value 1 (.boolean false),
    .wire ⟨⟨2, 0⟩, ⟨3, 0⟩⟩,
    .nodeAt "second" ⟨0, 0⟩,
    .value 1 (.text "wired"),
    .outputValue 1 (.text "kept"),
    .wire ⟨⟨0, 0⟩, ⟨0, 4⟩⟩]

theorem relayCalls_build_steps :
    let described := steps { id := "relay", name := "Relay" } relayCalls .counting
    described.1.unwired.DistinctIds ∧ ∃ f last g,
      described.1.build described.2 = (.ok f, last) ∧ f.graph? = some g ∧
      g.links = [⟨⟨1, 1⟩, ⟨2, 1⟩⟩, ⟨⟨2, 0⟩, ⟨3, 0⟩⟩, ⟨⟨0, 0⟩, ⟨0, 4⟩⟩] ∧
      g.valueAt? ⟨1, 0⟩ = some .signal ∧ g.valueAt? ⟨1, 1⟩ = some (.boolean false) ∧
      g.valueAt? ⟨2, 1⟩ = none ∧ g.valueAt? ⟨3, 0⟩ = none ∧
      g.valueAt? ⟨3, 1⟩ = some (.text "kept") := by
  intro described
  have distinct : described.1.unwired.DistinctIds := ⟨by decide +kernel, by decide +kernel⟩
  obtain ⟨succeeds, result⟩ := build_steps "relay" "Relay" relayCalls rfl distinct
  obtain ⟨f, last, built⟩ := succeeds.mpr (by decide)
  obtain ⟨g, composite, links, _, _, _, values, output, _⟩ := result f last built
  refine ⟨distinct, f, last, g, built, composite, links, ?_⟩
  exact ⟨(values 0 _ rfl 0).trans (by decide), (values 0 _ rfl 1).trans (by decide),
    (values 1 _ rfl 1).trans (by decide), (output 0).trans (by decide),
    (output 1).trans (by decide)⟩

end Blueprint

end FlowGraph
