/-
**Composites that only call another function.**

A wrapper has one node, which calls the wrapped function. Wires lead all inputs to that node and all
its outputs to the Output node, in any order. Running the wrapper comes to the same as running the
wrapped function, and so it does after any number of wrappings.

* `Feed.row`: values as the feeds of the slots from zero on;
* `Circuit.feeds_of_bundle`: what a node is fed that a bundle of wires leads to;
* `Function.Wraps.run`: one wrapping;
* `Function.run_wrapped`: **any number of wrappings are transparent.**
-/

import FlowGraph.Proofs.CleanReport
import FlowGraph.Proofs.Relevance

namespace FlowGraph

/-! ### Feeds in a row -/

namespace Feed

/-- Values as the feeds of the slots from zero on. -/
def row (values : List Value) : List Feed :=
  values.zipIdx.map Prod.swap

theorem row_cons (first : Value) (values : List Value) :
    row (first :: values) = (0, first) :: (values.zipIdx 1).map Prod.swap :=
  rfl

@[simp] theorem length_row (values : List Value) : (row values).length = values.length := by
  simp [row]

@[simp] theorem map_snd_row (values : List Value) : (row values).map Prod.snd = values := by
  unfold row
  rw [List.map_map]
  exact List.zipIdx_map_fst 0 values

theorem map_fst_row (values : List Value) :
    (row values).map Prod.fst = List.range values.length := by
  unfold row
  rw [List.map_map, List.range_eq_range']
  exact List.zipIdx_map_snd 0 values

/-- **Feeds of all slots in any order** are in a row when they are ordered by slot. -/
theorem bySlot_eq_row {feeds : List Feed} {values : List Value} (same : feeds.Perm (row values)) :
    bySlot feeds = row values := by
  have all : (bySlot feeds).Perm (row values) := (bySlot_perm feeds).trans same
  have once : ((row values).map Prod.fst).Nodup := by
    rw [map_fst_row]
    exact List.nodup_range
  have ascending : (row values).Pairwise fun a b => a.1 ≤ b.1 := by
    rw [← List.pairwise_map, map_fst_row]
    exact List.pairwise_le_range
  refine all.eq_of_pairwise (fun a b left right less more => ?_) (bySlot_sorted feeds) ascending
  exact List.inj_on_of_nodup_map once (all.subset left) right (Nat.le_antisymm less more)

end Feed

/-! ### Bundles of wires -/

/-- Wires from the data outputs of one node to the data inputs of another one, slot by slot. -/
def Link.bundle (source target count : Nat) : List Link :=
  (List.range count).map fun index => ⟨⟨source, index + 1⟩, ⟨target, index + 1⟩⟩

theorem Link.stop_of_mem_bundle {source target count : Nat} {link : Link}
    (member : link ∈ bundle source target count) : link.stop.node = target := by
  obtain ⟨index, _, rfl⟩ := List.mem_map.mp member
  rfl

namespace Circuit

variable {c : Circuit} {pool : Pool} {index source : Nat} {values : List Value}

theorem filterMap_getElem? (values : List Value) :
    ((List.range values.length).filterMap fun slot => values[slot]?.map (slot + 1, ·)) =
      (values.zipIdx 1).map Prod.swap := by
  induction values using List.reverseRecOn with
  | nil => rfl
  | append_singleton front last ih =>
    rw [List.length_append, List.length_singleton, List.range_succ, List.filterMap_append,
      List.zipIdx_append, List.map_append, ← ih]
    congr 1
    · refine List.filterMap_congr fun slot member => ?_
      rw [List.getElem?_append_left (List.mem_range.mp member)]
    · simp [Nat.add_comm]

/-- A bundle of wires delivers the values at its start. -/
theorem filterMap_bundle (produced : ∀ slot, pool.produced? ⟨source, slot + 1⟩ = values[slot]?) :
    (Link.bundle source index values.length).filterMap (wiredFeed? pool index) =
      (values.zipIdx 1).map Prod.swap := by
  rw [← filterMap_getElem?, Link.bundle, List.filterMap_map]
  refine List.filterMap_congr fun slot _ => ?_
  show (if index = index then _ else none) = _
  rw [if_pos rfl, produced]

theorem filterMap_elsewhere {links : List Link}
    (elsewhere : ∀ link ∈ links, link.stop.node ≠ index) :
    links.filterMap (wiredFeed? pool index) = [] :=
  List.filterMap_eq_nil_iff.mpr fun link member => if_neg (elsewhere link member)

/-- **A node that a bundle of wires leads to**, and no other wire, has the signal and the values at
the start of the bundle for its feeds. -/
theorem feeds_of_bundle {rest : List Link}
    (links : c.links.Perm (Link.bundle source index values.length ++ rest))
    (elsewhere : ∀ link ∈ rest, link.stop.node ≠ index)
    (manual : pool.manualFeeds index = [(0, .signal)])
    (produced : ∀ slot, pool.produced? ⟨source, slot + 1⟩ = values[slot]?) :
    c.feeds pool index = Feed.row (.signal :: values) := by
  unfold feeds
  refine Feed.bySlot_eq_row ?_
  have wired := links.filterMap (wiredFeed? pool index)
  rw [List.filterMap_append, filterMap_bundle produced, filterMap_elsewhere elsewhere,
    List.append_nil] at wired
  rw [manual, Feed.row_cons]
  exact (List.perm_append_singleton _ _).trans (wired.cons _)

/-- A node whose feeds are in a row behind the signal can run, if they are as many as its function
has inputs, and one at least if its function asks for any one. -/
theorem canRun_of_row {station : Station} {callee : Callee}
    (located : c.stations[index]? = some station) (calls : station.callee? = some callee)
    (feeds : c.feeds pool index = Feed.row (.signal :: values))
    (enough : callee.arity ≤ values.length + 1) (any : callee.anyInput = true → values ≠ []) :
    c.CanRun pool index station callee := by
  refine ⟨located, calls, ?_, ?_⟩
  · rw [feeds, Callee.ready, Feed.length_row, List.length_cons]
    split
    · next anyInput =>
      exact decide_eq_true (Nat.succ_lt_succ (List.length_pos_iff.mpr (any anyInput)))
    · rw [List.all_eq_true]
      intro slot below
      have inside : slot ∈ (Feed.row (.signal :: values)).map Prod.fst := by
        rw [Feed.map_fst_row, List.mem_range, List.length_cons]
        exact Nat.lt_of_lt_of_le (List.mem_range.mp below) enough
      obtain ⟨feed, member, same⟩ := List.mem_map.mp inside
      exact List.any_eq_true.mpr ⟨feed, member, decide_eq_true same⟩
  · rw [feeds, gated, Feed.row_cons]
    exact Bool.or_true _

end Circuit

/-! ### Wrappers -/

namespace Function

variable {g w : Function} {body : Graph Function} {node : Node} {xs : List Value}

/-- The outcome of an evaluation at any depth, from the signal and data inputs, and of a run. -/
theorem run_eq_evaluateAt (f : Function) (depth : Nat) (inputs : List Value) :
    (f.run inputs).result = (f.evaluateAt depth (.signal :: inputs)).result.map (List.drop 1) := by
  rw [evaluateAt_depth f depth 0]
  rfl

/-- The first turn of a run hands the inputs out. -/
theorem step_input (w : Function) (body : Graph Function) (xs : List Value) :
    ∃ events, (w.circuit body).step xs 0 ⟨(w.circuit body).initialPool, none⟩ 0 =
      .runs ⟨(w.circuit body).poolOf [(0, .signal :: xs)], none⟩ events := by
  obtain ⟨station, callee, able⟩ := opens_circuit w body (w.circuit body).initialPool
  rw [← Circuit.poolOf_nil] at able ⊢
  rw [Circuit.step_of_canRun able, if_pos rfl, Circuit.poolOf_extend]
  exact ⟨_, rfl⟩

/-- `w` does nothing but call `g`: its graph has one node, which calls `g`, with a wire from each
input to that node and one from each of its outputs to the Output node, in any order; and nothing is
set by hand but the signals that nodes start with. A function that asks for any one of its inputs
has to have one. -/
structure Wraps (g w : Function) (body : Graph Function) (node : Node) : Prop where
  composite : w.body = .composite body
  inputs : w.dataInputs.length = g.dataInputs.length
  outputs : w.dataOutputs.length = g.dataOutputs.length
  nodes : body.nodes = [node]
  calls : node.function = g.id
  known : find? body.roster g.id = some g
  nodeValues : node.values = .initial
  outputValues : body.outputValues = .initial
  wires : body.links.Perm
    (Link.bundle 0 1 g.dataInputs.length ++ Link.bundle 1 2 g.dataOutputs.length)
  fed : g.anyInput = true → g.dataInputs ≠ []

namespace Wraps

theorem stations (wraps : g.Wraps w body node) :
    (w.circuit body).stations = [.ofBoundary body.inputNode 0, .ofNode body.callees node,
      .ofBoundary body.outputNode (g.dataOutputs.length + 1)] := by
  unfold circuit Circuit.ofGraph
  dsimp only
  rw [wraps.nodes, wraps.outputs]
  rfl

theorem callee (wraps : g.Wraps w body node) :
    (Station.ofNode body.callees node).callee? = some g.callee := by
  rw [callee?_ofNode, wraps.calls, wraps.known]
  rfl

theorem outputIndex (wraps : g.Wraps w body node) : (w.circuit body).outputIndex = 2 := by
  rw [Circuit.outputIndex, wraps.stations]
  rfl

/-- Nothing is set by hand but the signals. -/
theorem manualFeeds (wraps : g.Wraps w body node) (log : List (Nat × List Value)) {index : Nat}
    (either : index = 1 ∨ index = 2) :
    ((w.circuit body).poolOf log).manualFeeds index = [(0, .signal)] := by
  rw [Circuit.manualFeeds_poolOf, Circuit.valuesAt, wraps.stations]
  rcases either with rfl | rfl
  · exact congrArg Slots.entries wraps.nodeValues
  · exact congrArg Slots.entries wraps.outputValues

/-- The node is fed the inputs. -/
theorem feeds_node (wraps : g.Wraps w body node) (length : xs.length = g.dataInputs.length) :
    (w.circuit body).feeds ((w.circuit body).poolOf [(0, .signal :: xs)]) 1 =
      Feed.row (.signal :: xs) := by
  refine Circuit.feeds_of_bundle (length ▸ wraps.wires) (fun link member => ?_)
    (wraps.manualFeeds _ (Or.inl rfl)) fun slot => ?_
  · rw [Link.stop_of_mem_bundle member]
    decide
  · rw [Circuit.produced?_poolOf, Pool.ofLog, List.flatMap_singleton, Pool.produced?_ofOutputs,
      if_pos rfl, List.getElem?_cons_succ]

/-- The Output node is fed the outputs of the node. -/
theorem feeds_output (wraps : g.Wraps w body node) (xs : List Value) {outputs : List Value}
    (length : (outputs.drop 1).length = g.dataOutputs.length) :
    (w.circuit body).feeds ((w.circuit body).poolOf [(0, .signal :: xs), (1, outputs)]) 2 =
      Feed.row (.signal :: outputs.drop 1) := by
  refine Circuit.feeds_of_bundle (length ▸ wraps.wires.trans List.perm_append_comm)
    (fun link member => ?_) (wraps.manualFeeds _ (Or.inr rfl)) fun slot => ?_
  · rw [Link.stop_of_mem_bundle member]
    decide
  · have unfolded : Pool.ofLog [(0, .signal :: xs), (1, outputs)] =
        Pool.ofOutputs 0 (.signal :: xs) ++ Pool.ofOutputs 1 outputs := by
      rw [Pool.ofLog, List.flatMap_cons, List.flatMap_singleton]
    rw [Circuit.produced?_poolOf, unfolded, Pool.produced?_append, Pool.produced?_ofOutputs,
      Pool.produced?_ofOutputs, if_neg Nat.one_ne_zero, if_pos rfl, Option.none_or,
      List.getElem?_drop, Nat.add_comm]

/-- The node can run as soon as the inputs are handed out. -/
theorem canRun_node (wraps : g.Wraps w body node) (length : xs.length = g.dataInputs.length) :
    (w.circuit body).CanRun ((w.circuit body).poolOf [(0, .signal :: xs)]) 1
      (.ofNode body.callees node) g.callee := by
  have located : (w.circuit body).stations[1]? = some (.ofNode body.callees node) := by
    rw [wraps.stations]
    rfl
  refine Circuit.canRun_of_row located wraps.callee (wraps.feeds_node length) ?_ ?_
  · rw [callee_eq, length]
    show g.inputs.length ≤ _
    unfold Function.inputs
    split
    · exact Nat.zero_le _
    · exact Nat.le_refl _
  · rw [callee_eq]
    intro anyInput nothing
    rw [nothing] at length
    exact wraps.fed anyInput (List.length_eq_zero_iff.mp length.symm)

/-- The second turn evaluates the wrapped function on the signal and the inputs. -/
theorem step_node (wraps : g.Wraps w body node) (length : xs.length = g.dataInputs.length) :
    ∃ events, (w.circuit body).step xs 0 ⟨(w.circuit body).poolOf [(0, .signal :: xs)], none⟩ 1 =
      match (g.evaluateAt 1 (.signal :: xs)).result with
      | .ok outputs =>
        .runs ⟨(w.circuit body).poolOf [(0, .signal :: xs), (1, outputs)], none⟩ events
      | .error _ => .fails events := by
  have able := wraps.canRun_node length
  have inside : (1 : Nat) ≠ (w.circuit body).outputIndex := by
    rw [wraps.outputIndex]
    decide
  rw [Circuit.step_of_canRun able, if_neg Nat.one_ne_zero, if_neg inside]
  dsimp only
  rw [wraps.feeds_node length, Feed.map_snd_row, ← evaluateAt]
  cases (g.evaluateAt (0 + 1) (.signal :: xs)).result with
  | ok outputs =>
    dsimp only
    rw [Circuit.poolOf_extend]
    exact ⟨_, rfl⟩
  | error error => exact ⟨_, rfl⟩

/-- The third turn delivers what the wrapped function put out. -/
theorem step_output (wraps : g.Wraps w body node) (xs : List Value) {outputs : List Value}
    (length : (outputs.drop 1).length = g.dataOutputs.length) :
    ∃ events, (w.circuit body).step xs 0
        ⟨(w.circuit body).poolOf [(0, .signal :: xs), (1, outputs)], none⟩ 2 =
      .runs ⟨(w.circuit body).poolOf [(0, .signal :: xs), (1, outputs)], some (outputs.drop 1)⟩
        events := by
  have located : (w.circuit body).stations[2]? =
      some (.ofBoundary body.outputNode (g.dataOutputs.length + 1)) := by
    rw [wraps.stations]
    rfl
  have feeds := wraps.feeds_output xs length
  have able := Circuit.canRun_of_row located rfl feeds (Nat.succ_le_succ length.ge) nofun
  rw [Circuit.step_of_canRun able, if_neg (by decide), if_pos wraps.outputIndex.symm]
  dsimp only
  rw [feeds, List.map_drop, Feed.map_snd_row]
  exact ⟨_, rfl⟩

/-- **One wrapping.** -/
theorem run (wraps : g.Wraps w body node) (length : xs.length = g.dataInputs.length) :
    (∀ ys, (g.run xs).result = .ok ys → ys.length = g.dataOutputs.length →
        (w.run xs).result = .ok ys) ∧
      ∀ error, (g.run xs).result = .error error → (w.run xs).result = .error ⟨some 1⟩ := by
  obtain ⟨_, first⟩ := step_input w body xs
  obtain ⟨_, second⟩ := wraps.step_node length
  have row : List.range (w.circuit body).stations.length = [0, 1, 2] := by
    rw [wraps.stations]
    rfl
  rw [run_composite wraps.composite, Circuit.run]
  dsimp only
  rw [row, Circuit.drive_result, Circuit.sweep_runs first, run_eq_evaluateAt g 1]
  cases evaluated : (g.evaluateAt 1 (.signal :: xs)).result with
  | error error =>
    rw [evaluated] at second
    rw [Circuit.sweep_fails second]
    exact ⟨nofun, fun _ _ => rfl⟩
  | ok outputs =>
    rw [evaluated] at second
    refine ⟨?_, nofun⟩
    rintro _ ⟨⟩ count
    obtain ⟨_, third⟩ := wraps.step_output xs count
    have accepted : (w.circuit body).accept? (some (outputs.drop 1)) = some (outputs.drop 1) :=
      if_pos (count.trans wraps.outputs.symm)
    rw [Circuit.sweep_runs second, Circuit.sweep_runs third]
    dsimp only [Circuit.sweep]
    rw [accepted]
    rfl

end Wraps

/-! ### Wrapping again and again -/

/-- The last function of a chain that starts with `g` and in which every function is wrapped by the
next one. -/
inductive Wrapped (g : Function) : Nat → Function → Prop
  | once {w : Function} {body : Graph Function} {node : Node} (wraps : g.Wraps w body node) :
      Wrapped g 1 w
  | again {count : Nat} {v w : Function} {body : Graph Function} {node : Node}
      (inner : Wrapped g count v) (wraps : v.Wraps w body node) : Wrapped g (count + 1) w

/-- Wrapping keeps the numbers of inputs and outputs. -/
theorem Wrapped.counts {count : Nat} (wrapped : g.Wrapped count w) :
    w.dataInputs.length = g.dataInputs.length ∧ w.dataOutputs.length = g.dataOutputs.length := by
  induction wrapped with
  | once wraps => exact ⟨wraps.inputs, wraps.outputs⟩
  | again _ wraps ih => exact ⟨wraps.inputs.trans ih.1, wraps.outputs.trans ih.2⟩

/-- **Any number of wrappings are transparent.** On the right number of inputs, a function that has
been wrapped gives what it gives by itself, if these are as many values as it has outputs; and where
it fails, the run of the outermost wrapper blames its node. -/
theorem run_wrapped {count : Nat} (wrapped : g.Wrapped count w)
    (length : xs.length = g.dataInputs.length) :
    (∀ ys, (g.run xs).result = .ok ys → ys.length = g.dataOutputs.length →
        (w.run xs).result = .ok ys) ∧
      ∀ error, (g.run xs).result = .error error → (w.run xs).result = .error ⟨some 1⟩ := by
  induction wrapped with
  | once wraps => exact wraps.run length
  | again inner wraps ih =>
    obtain ⟨inputs, outputs⟩ := inner.counts
    obtain ⟨succeeds, fails⟩ := wraps.run (length.trans inputs.symm)
    refine ⟨fun ys given many => ?_, fun error given => ?_⟩
    · exact succeeds ys (ih.1 ys given many) (many.trans outputs.symm)
    · exact fails _ (ih.2 error given)

/-- A composite that calls the sample composite, with its wires in the other order. -/
def outerGraph : Graph Function :=
  { Graph.new [⟨"Own", [inverter]⟩] with
    nodes := [.new ⟨.ofNat 2⟩ "inverter" ⟨0, 0⟩]
    wires := [⟨⟨.ofNat 3⟩, ⟨⟨.ofNat 2⟩, 1⟩, ⟨.output, 1⟩⟩,
      ⟨⟨.ofNat 4⟩, ⟨.input, 1⟩, ⟨⟨.ofNat 2⟩, 1⟩⟩] }

theorem outer_run_wrapped :
    (negation.run [.boolean true]).result = .ok [.boolean false] ∧
      ((composite "outer" "Outer" [flag] [flag] outerGraph).run [.boolean true]).result =
        .ok [.boolean false] := by
  have given : (negation.run [.boolean true]).result = .ok [.boolean false] := by decide +kernel
  have inner : negation.Wraps inverter inverterGraph (.new ⟨.ofNat 2⟩ "not" ⟨0, 0⟩) :=
    ⟨rfl, rfl, rfl, rfl, rfl, rfl, rfl, rfl, by decide +kernel, nofun⟩
  have outer : inverter.Wraps (composite "outer" "Outer" [flag] [flag] outerGraph) outerGraph
      (.new ⟨.ofNat 2⟩ "inverter" ⟨0, 0⟩) :=
    ⟨rfl, rfl, rfl, rfl, rfl, rfl, rfl, rfl, by decide +kernel, nofun⟩
  exact ⟨given, (run_wrapped (.again (.once inner) outer) rfl).1 _ given rfl⟩

end Function

end FlowGraph
