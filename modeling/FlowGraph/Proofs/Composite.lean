/-
**Runs of composites in terms of functions.**

A composite runs as the circuit of its graph. This module says what the moments of such a run mean
for the functions that the nodes call, so that proofs about composites need not open circuits.

* `Function.station_bound`: a node of the circuit is bound to the function that the node calls;
* `Function.Runs`: the logs that a run passes through, one rule for each thing that a turn can do;
* `Function.run_ends`: **every run of a composite ends as `Function.Ends` says**;
* `Function.Runs.ran`, `Function.Runs.mem_feeds`: where outputs and feeds come from.
-/

import FlowGraph.Proofs.Indices
import FlowGraph.Proofs.Nesting
import FlowGraph.Proofs.Story

namespace FlowGraph

namespace Function

variable {f : Function} {g : Graph Function}

/-! ### The circuit of a graph -/

theorem length_stations (f : Function) (g : Graph Function) :
    (f.circuit g).stations.length = g.nodeCount := by
  simp [circuit, Circuit.ofGraph, Graph.nodeCount]

theorem outputIndex_circuit (f : Function) (g : Graph Function) :
    (f.circuit g).outputIndex = g.outputIndex := by
  unfold Circuit.outputIndex
  rw [length_stations]
  rfl

/-- A node of the circuit and the node of the graph at the same index. -/
theorem stations_eq (f : Function) (g : Graph Function) (index : Nat) :
    (f.circuit g).stations[index]? =
      if index = 0 then some (.ofBoundary g.inputNode 0)
      else if index = g.outputIndex then some (.ofBoundary g.outputNode (f.dataOutputs.length + 1))
      else (g.nodes[index - 1]?).map (.ofNode g.callees) := by
  unfold circuit Circuit.ofGraph
  dsimp only
  rcases g.index_cases index with rfl | ⟨place, inside, rfl⟩ | rfl | beyond
  · rfl
  · have notLast : place + 1 ≠ g.outputIndex := by unfold Graph.outputIndex; omega
    rw [if_neg (Nat.succ_ne_zero place), if_neg notLast, List.cons_append,
      List.getElem?_cons_succ, List.getElem?_append_left (by rw [List.length_map]; exact inside),
      List.getElem?_map, Nat.add_sub_cancel]
  · rw [if_neg (by unfold Graph.outputIndex; omega), if_pos rfl, List.cons_append]
    unfold Graph.outputIndex
    rw [List.getElem?_cons_succ,
      show g.nodes.length = (g.nodes.map (Station.ofNode g.callees)).length by rw [List.length_map],
      List.getElem?_concat_length]
  · unfold Graph.nodeCount at beyond
    rw [if_neg (by omega), if_neg (by unfold Graph.outputIndex; omega),
      List.getElem?_eq_none_iff.mpr (show g.nodes.length ≤ index - 1 by omega), Option.map_none,
      List.getElem?_eq_none_iff]
    simp only [List.cons_append, List.length_cons, List.length_append, List.length_map,
      List.length_nil]
    omega

/-- The function that a user's node calls, if it is known. -/
theorem callee?_ofNode (g : Graph Function) (node : Node) :
    (Station.ofNode g.callees node).callee? = (find? g.roster node.function).map callee := by
  have ids : (fun bound : Callee => decide (bound.id = node.function)) ∘ callee =
      fun h => decide (h.id = node.function) := by
    funext h
    show decide (h.callee.id = node.function) = _
    rw [callee_eq]
  unfold Station.ofNode find?
  dsimp only
  rw [Graph.callees_eq, List.find?_map, ids]

/-- What a run sees of the function that a node calls. The virtual functions are not evaluated,
since the run itself hands out the inputs and takes the results. -/
structure Bound (g : Graph Function) (index : Nat) (bound : Callee) (h : Function) : Prop where
  anyInput : bound.anyInput = h.anyInput
  arity : bound.arity = h.inputs.length
  evaluate : index ≠ 0 → index ≠ g.outputIndex → bound.evaluate = h.evaluateAt

/-- **A node of the circuit is bound to the function that the node of the graph calls.** -/
theorem station_bound (f : Function) (g : Graph Function) (index : Nat) :
    Option.Rel (Bound g index) (((f.circuit g).stations[index]?).bind Station.callee?)
      (f.calleeIn? g index) := by
  unfold calleeIn?
  rw [stations_eq]
  by_cases first : index = 0
  · rw [if_pos first, if_pos first]
    exact .some ⟨rfl, rfl, fun inner => absurd first inner⟩
  · rw [if_neg first, if_neg first]
    by_cases last : index = g.outputIndex
    · rw [if_pos last, if_pos last]
      exact .some ⟨rfl, rfl, fun _ inside => absurd last inside⟩
    · rw [if_neg last, if_neg last]
      cases g.nodes[index - 1]? with
      | none => exact .none
      | some node =>
        rw [Option.map_some, Option.bind_some, Option.bind_some, callee?_ofNode]
        cases find? g.roster node.function with
        | none => exact .none
        | some h =>
          rw [Option.map_some, callee_eq]
          exact .some ⟨rfl, rfl, fun _ _ => rfl⟩

theorem valuesAt_circuit (f : Function) (g : Graph Function) (index : Nat) :
    (f.circuit g).valuesAt index = g.valuesAt index := by
  unfold Circuit.valuesAt Graph.valuesAt
  rw [stations_eq]
  rcases g.index_cases index with rfl | ⟨place, inside, rfl⟩ | rfl | beyond
  · rfl
  · have notLast : place + 1 ≠ g.outputIndex := by unfold Graph.outputIndex; omega
    rw [if_neg (Nat.succ_ne_zero place), if_neg notLast, Graph.allNodes_succ g inside,
      Nat.add_sub_cancel, List.getElem?_eq_getElem inside]
    rfl
  · rw [if_neg (by unfold Graph.outputIndex; omega), if_pos rfl, Graph.allNodes_output]
    rfl
  · have outside : g.allNodes[index]? = none := by
      rw [List.getElem?_eq_none_iff, Graph.length_allNodes]
      exact beyond
    unfold Graph.nodeCount at beyond
    rw [if_neg (by omega), if_neg (by unfold Graph.outputIndex; omega), outside,
      List.getElem?_eq_none_iff.mpr (show g.nodes.length ≤ index - 1 by omega)]
    rfl

theorem feedCount_circuit (f : Function) (g : Graph Function) (place : Place) :
    (f.circuit g).feedCount place = g.feedCountAt place := by
  unfold Circuit.feedCount Graph.feedCountAt
  rw [valuesAt_circuit]
  rfl

/-! ### The functions that nodes call -/

theorem calleeIn?_output (f : Function) (g : Graph Function) :
    f.calleeIn? g g.outputIndex = some f.outputBoundary := by
  unfold calleeIn?
  rw [if_neg g.outputIndex_ne_zero, if_pos rfl]

theorem calleeIn?_node (f : Function) {place : Nat} (inside : place < g.nodes.length) :
    f.calleeIn? g (place + 1) = find? g.roster (g.nodes.get ⟨place, inside⟩).function := by
  unfold calleeIn?
  rw [if_neg (Nat.succ_ne_zero place), if_neg (by unfold Graph.outputIndex; omega),
    Nat.add_sub_cancel, List.getElem?_eq_getElem inside]
  rfl

/-- The virtual nodes call the virtual functions, the nodes of the user functions of the roster. -/
theorem calleeIn?_cases {index : Nat} {callee : Function}
    (calls : f.calleeIn? g index = some callee) :
    (index = 0 ∧ callee = f.inputBoundary) ∨ (index = g.outputIndex ∧ callee = f.outputBoundary) ∨
      ∃ (place : Nat) (inside : place < g.nodes.length), index = place + 1 ∧
        find? g.roster (g.nodes.get ⟨place, inside⟩).function = some callee := by
  rcases g.index_cases index with rfl | ⟨place, inside, rfl⟩ | rfl | beyond
  · cases calls
    exact Or.inl ⟨rfl, rfl⟩
  · rw [calleeIn?_node f inside] at calls
    exact Or.inr (Or.inr ⟨place, inside, rfl, calls⟩)
  · rw [calleeIn?_output] at calls
    cases calls
    exact Or.inr (Or.inl ⟨rfl, rfl⟩)
  · unfold Graph.nodeCount at beyond
    unfold calleeIn? at calls
    rw [if_neg (by omega), if_neg (by unfold Graph.outputIndex; omega),
      List.getElem?_eq_none_iff.mpr (show g.nodes.length ≤ index - 1 by omega)] at calls
    cases calls

/-- A node other than the virtual ones calls a function of the roster. -/
theorem calleeIn?_inner {index : Nat} {callee : Function} (inner : index ≠ 0)
    (inside : index ≠ g.outputIndex) (calls : f.calleeIn? g index = some callee) :
    ∃ node ∈ g.nodes, g.nodeIdAt? index = some node.id ∧
      find? g.roster node.function = some callee := by
  rcases calleeIn?_cases calls with ⟨first, _⟩ | ⟨last, _⟩ | ⟨place, within, rfl, known⟩
  · exact absurd first inner
  · exact absurd last inside
  · exact ⟨_, List.get_mem _ _, g.nodeIdAt?_node within, known⟩

theorem body_of_graph? (composite : f.graph? = some g) : f.body = .composite g := by
  unfold graph? at composite
  split at composite
  · next body =>
    cases composite
    exact body
  · cases composite

theorem isComposite_of_body (composite : f.body = .composite g) : f.isComposite = true := by
  unfold isComposite graph?
  rw [composite]
  rfl

/-! ### Turns of a composite's nodes -/

/-- The feeds of a node after the nodes of a log have run. -/
def feedsAfter (f : Function) (g : Graph Function) (log : List (Nat × List Value)) (index : Nat) :
    List Feed :=
  (f.circuit g).feeds ((f.circuit g).poolOf log) index

/-- A node can run after the nodes of a log have run: it calls a known function, the feeds that this
function needs are there, and the first of them is the signal. -/
structure CanRun (f : Function) (g : Graph Function) (log : List (Nat × List Value)) (index : Nat)
    (callee : Function) : Prop where
  calls : f.calleeIn? g index = some callee
  ready : if callee.anyInput then 1 < (f.feedsAfter g log index).length
    else ∀ slot < callee.inputs.length, ∃ value, (slot, value) ∈ f.feedsAfter g log index
  allowed : index = 0 ∨ ∃ slot rest, f.feedsAfter g log index = (slot, .signal) :: rest

theorem ready_iff (bound : Callee) (feeds : List Feed) :
    bound.ready feeds = true ↔ if bound.anyInput then 1 < feeds.length
      else ∀ slot < bound.arity, ∃ value, (slot, value) ∈ feeds := by
  unfold Callee.ready
  cases bound.anyInput with
  | true => simp
  | false => simp [List.all_eq_true, List.any_eq_true]

theorem gated_iff (index : Nat) (feeds : List Feed) :
    Circuit.gated index feeds = true ↔
      index = 0 ∨ ∃ slot rest, feeds = (slot, .signal) :: rest := by
  unfold Circuit.gated
  rw [Bool.or_eq_true, decide_eq_true_eq]
  refine or_congr Iff.rfl ?_
  cases feeds with
  | nil => simp
  | cons feed rest =>
    obtain ⟨slot, value⟩ := feed
    simp [Value.isSignal]

/-- **A node of the circuit that can run** calls a function that lets it. -/
theorem canRun_of_circuit {log : List (Nat × List Value)} {index : Nat} {station : Station}
    {bound : Callee}
    (able : (f.circuit g).CanRun ((f.circuit g).poolOf log) index station bound) :
    ∃ callee, f.CanRun g log index callee ∧ Bound g index bound callee := by
  have related := station_bound f g index
  rw [able.located, Option.bind_some, able.calls] at related
  generalize same : f.calleeIn? g index = callee? at related
  cases related with
  | @some _ callee related =>
    refine ⟨callee, ⟨same, ?_, (gated_iff _ _).mp able.allowed⟩, related⟩
    rw [← related.anyInput, ← related.arity]
    exact (ready_iff _ _).mp able.ready

/-- **A node whose function lets it run** can run in the circuit. -/
theorem CanRun.circuit {log : List (Nat × List Value)} {index : Nat} {callee : Function}
    (able : f.CanRun g log index callee) :
    ∃ station bound, (f.circuit g).CanRun ((f.circuit g).poolOf log) index station bound := by
  have related := station_bound f g index
  rw [able.calls] at related
  cases found : (f.circuit g).stations[index]? with
  | none =>
    rw [found] at related
    cases related
  | some station =>
    rw [found, Option.bind_some] at related
    generalize same : station.callee? = bound? at related
    cases related with
    | @some bound _ related =>
      refine ⟨station, bound, found, same, (ready_iff _ _).mpr ?_, (gated_iff _ _).mpr able.allowed⟩
      rw [related.anyInput, related.arity]
      exact able.ready

/-- The Input node can always run. -/
theorem canRun_input (f : Function) (g : Graph Function) (log : List (Nat × List Value)) :
    f.CanRun g log 0 f.inputBoundary :=
  ⟨rfl, fun _ less => absurd less (Nat.not_lt_zero _), Or.inl rfl⟩

theorem CanRun.callee_output {log : List (Nat × List Value)} {callee : Function}
    (able : f.CanRun g log g.outputIndex callee) : callee = f.outputBoundary :=
  Option.some_injective _ (able.calls.symm.trans (calleeIn?_output f g))

/-- What a node other than the Output node puts out when it runs. -/
inductive Produces (f : Function) (g : Graph Function) (inputs : List Value)
    (log : List (Nat × List Value)) : Nat → List Value → Prop
  | input : Produces f g inputs log 0 (.signal :: inputs)
  | node {index : Nat} {callee : Function} {outputs : List Value}
      (able : f.CanRun g log index callee) (inner : index ≠ 0) (inside : index ≠ g.outputIndex)
      (evaluated : (callee.evaluate ((f.feedsAfter g log index).map Prod.snd)).result =
        .ok outputs) :
      Produces f g inputs log index outputs

theorem produces_of_circuit {inputs outputs : List Value} {depth index : Nat}
    {log : List (Nat × List Value)}
    (produced : (f.circuit g).Produces inputs depth ((f.circuit g).poolOf log) index outputs) :
    f.Produces g inputs log index outputs := by
  cases produced with
  | input able => exact .input
  | node able inner inside evaluated =>
    rw [outputIndex_circuit] at inside
    obtain ⟨callee, able, bound⟩ := canRun_of_circuit able
    refine .node able inner inside ?_
    rw [bound.evaluate inner inside] at evaluated
    exact (evaluateAt_depth callee 0 _ _).trans evaluated

/-! ### Runs of a composite -/

/-- The logs that a run of a composite passes through. -/
inductive Runs (f : Function) (g : Graph Function) (inputs : List Value) :
    List (Nat × List Value) → Prop
  | start : Runs f g inputs []
  | produces {log : List (Nat × List Value)} {index : Nat} {outputs : List Value}
      (before : Runs f g inputs log) (fresh : index ∉ log.map Prod.fst)
      (produced : f.Produces g inputs log index outputs) :
      Runs f g inputs (log ++ [(index, outputs)])
  | delivers {log : List (Nat × List Value)} {callee : Function} (before : Runs f g inputs log)
      (fresh : g.outputIndex ∉ log.map Prod.fst) (able : f.CanRun g log g.outputIndex callee) :
      Runs f g inputs (log ++ [(g.outputIndex, [])])

/-- No node that has not run can run after the nodes of a log. -/
def Stuck (f : Function) (g : Graph Function) (log : List (Nat × List Value)) : Prop :=
  ∀ index < g.nodeCount, index ∉ log.map Prod.fst → ∀ callee, ¬ f.CanRun g log index callee

/-- The values that the Output node delivers after the nodes of a log have run. -/
def delivery (f : Function) (g : Graph Function) (log : List (Nat × List Value)) : List Value :=
  ((f.feedsAfter g log g.outputIndex).drop 1).map Prod.snd

/-- How a run of a composite can end. -/
inductive Ends (f : Function) (g : Graph Function) (inputs : List Value) :
    Except RunError (List Value) → Prop
  | delivered {log : List (Nat × List Value)} {callee : Function} (runs : f.Runs g inputs log)
      (able : f.CanRun g log g.outputIndex callee)
      (complete : (f.delivery g log).length = f.dataOutputs.length) :
      Ends f g inputs (.ok (f.delivery g log))
  | needless (wanting : f.dataOutputs = []) : Ends f g inputs (.ok [])
  | failed {log : List (Nat × List Value)} {index : Nat} {callee : Function} {error : RunError}
      (runs : f.Runs g inputs log) (inner : index ≠ 0) (inside : index ≠ g.outputIndex)
      (able : f.CanRun g log index callee)
      (failed : (callee.evaluate ((f.feedsAfter g log index).map Prod.snd)).result =
        .error error) :
      Ends f g inputs (.error ⟨some index⟩)
  | stalled {log : List (Nat × List Value)} (runs : f.Runs g inputs log)
      (wanting : f.dataOutputs ≠ [])
      (stuck : f.Stuck g log)
      (refused : g.outputIndex ∈ log.map Prod.fst → ∃ earlier callee,
        f.CanRun g earlier g.outputIndex callee ∧
          (f.delivery g earlier).length ≠ f.dataOutputs.length) :
      Ends f g inputs (.error ⟨none⟩)

section Runs

variable {inputs : List Value} {depth : Nat}

theorem delivery_circuit (f : Function) (g : Graph Function) (log : List (Nat × List Value)) :
    (f.circuit g).delivery ((f.circuit g).poolOf log) = f.delivery g log := by
  unfold Circuit.delivery delivery feedsAfter
  rw [outputIndex_circuit]

theorem accept?_circuit (f : Function) (g : Graph Function) (values : List Value) :
    (f.circuit g).accept? (some values) =
      if values.length = f.dataOutputs.length then some values else none := rfl

/-- A run passes through every beginning of its log. -/
theorem Runs.earlier_log {earlier log : List (Nat × List Value)} (runs : f.Runs g inputs log)
    (grows : earlier <+: log) : f.Runs g inputs earlier := by
  induction runs with
  | start =>
    rw [List.prefix_nil.mp grows]
    exact .start
  | produces before fresh produced ih =>
    rcases List.prefix_concat_iff.mp grows with rfl | shorter
    · exact .produces before fresh produced
    · exact ih shorter
  | delivers before fresh able ih =>
    rcases List.prefix_concat_iff.mp grows with rfl | shorter
    · exact .delivers before fresh able
    · exact ih shorter

/-- At every moment of a run the nodes that ran form a log of the composite. -/
theorem runs_of_comes {m : Moment} (comes : (f.circuit g).Comes inputs depth m) :
    f.Runs g inputs m.log := by
  induction comes with
  | start => exact .start
  | waits before unable ih => exact ih
  | produces before produced ih =>
    exact .produces ih (before.not_ran_of_ahead List.mem_cons_self) (produces_of_circuit produced)
  | delivers before inner last able ih =>
    have fresh := before.not_ran_of_ahead List.mem_cons_self
    obtain ⟨callee, able, _⟩ := canRun_of_circuit able
    rw [outputIndex_circuit] at last
    rw [last] at fresh able ⊢
    exact .delivers ih fresh able
  | passes before refused ih => exact ih

/-- At the end of a pass no node can run that has not run, if none of those that wait can. -/
theorem stuck_of_comes {pass : Nat} {waiting : List Nat} {log : List (Nat × List Value)}
    {delivered? : Option (List Value)}
    (last : (f.circuit g).Comes inputs depth ⟨pass, [], waiting, log, delivered?⟩)
    (stuck : ∀ index ∈ waiting, ∀ station callee,
      ¬ (f.circuit g).CanRun ((f.circuit g).poolOf log) index station callee) : f.Stuck g log := by
  intro index inside notRan callee able
  obtain ⟨station, bound, able⟩ := able.circuit
  refine stuck index ?_ station bound able
  by_contra notWaiting
  obtain ⟨outputs, member⟩ := last.ran_of_not_pending (by rw [length_stations]; exact inside)
    notWaiting List.not_mem_nil
  exact notRan (List.mem_map.mpr ⟨_, member, rfl⟩)

/-- **Every run of a composite's circuit ends as `Ends` says.** -/
theorem ends_of_circuit {ending : Except RunError (List Value × Nat)}
    (ends : (f.circuit g).Ends inputs depth ending) : f.Ends g inputs (ending.map Prod.fst) := by
  cases ends with
  | @accepted pass waiting log delivered? values last accepted =>
    cases given : delivered? with
    | none =>
      rw [given, Circuit.accept?] at accepted
      split at accepted
      · next wanting =>
        cases accepted
        exact .needless (List.length_eq_zero_iff.mp wanting)
      · cases accepted
    | some delivered =>
      rw [given, accept?_circuit] at accepted
      split at accepted
      · next complete =>
        cases accepted
        obtain ⟨earlier, grows, rfl, station, bound, able⟩ := last.delivered given
        obtain ⟨callee, able, _⟩ := canRun_of_circuit able
        rw [delivery_circuit] at complete ⊢
        rw [outputIndex_circuit] at able
        exact .delivered ((runs_of_comes last).earlier_log grows) able complete
      · cases accepted
  | failed last inner inside able failed =>
    rw [outputIndex_circuit] at inside
    obtain ⟨callee, able, bound⟩ := canRun_of_circuit able
    rw [bound.evaluate inner inside] at failed
    exact .failed (runs_of_comes last) inner inside able
      ((evaluateAt_depth callee 0 _ _).trans failed)
  | @stalled pass waiting log last wanting stuck =>
    refine .stalled (runs_of_comes last) (fun none => wanting (List.length_eq_zero_iff.mpr none))
      (stuck_of_comes last stuck) fun ran => ?_
    rw [← outputIndex_circuit f] at ran
    obtain ⟨earlier, ⟨station, bound, able⟩, atHand | gone⟩ :=
      last.output (by rw [outputIndex_circuit]; exact Nat.succ_ne_zero _) ran
    · cases atHand
    · obtain ⟨callee, able, _⟩ := canRun_of_circuit able
      rw [outputIndex_circuit] at able
      rw [delivery_circuit, accept?_circuit] at gone
      refine ⟨earlier, callee, able, fun complete => ?_⟩
      rw [if_pos complete] at gone
      cases gone

/-- The result of running a composite is that of its circuit. -/
theorem run_composite (composite : f.body = .composite g) (inputs : List Value) :
    (f.run inputs).result = ((f.circuit g).run 0 inputs).result := by
  unfold run evaluate
  rw [evaluateAt_composite composite, Outcome.signalled]
  show ((((f.circuit g).run 0 inputs).result.map _).map (List.drop 1)) = _
  cases ((f.circuit g).run 0 inputs).result <;> rfl

theorem events_run (composite : f.body = .composite g) (inputs : List Value) :
    (f.run inputs).events = ((f.circuit g).run 0 inputs).events := by
  unfold run evaluate
  rw [evaluateAt_composite composite]
  rfl

theorem evaluate_native {mapping : List Value → List Value} (native : f.body = .native mapping)
    (inputs : List Value) :
    (f.evaluate inputs).result = .ok (.signal :: mapping (inputs.drop 1)) := by
  rw [evaluate, evaluateAt_native native]

/-- Evaluating a composite runs it on the data inputs and puts the signal in front. -/
theorem evaluate_composite (composite : f.body = .composite g) (inputs : List Value) :
    (f.evaluate inputs).result = (f.run (inputs.drop 1)).result.map (Value.signal :: ·) := by
  rw [run_composite composite, evaluate, evaluateAt_composite composite]
  rfl

/-- **Every run of a composite ends as `Ends` says.** -/
theorem run_ends (composite : f.body = .composite g) (inputs : List Value) :
    f.Ends g inputs (f.run inputs).result := by
  obtain ⟨ending, ends, same⟩ := (f.circuit g).run_ends inputs 0
  rw [run_composite composite, same]
  exact ends_of_circuit ends

end Runs

/-! ### What holds throughout a run of a composite -/

namespace Runs

variable {inputs : List Value} {log : List (Nat × List Value)}

/-- No node runs twice. -/
theorem nodup (runs : f.Runs g inputs log) : (log.map Prod.fst).Nodup := by
  induction runs with
  | start => exact List.nodup_nil
  | produces before fresh produced ih =>
    rw [List.map_append]
    exact List.concat_eq_append ▸ ih.concat fresh
  | delivers before fresh able ih =>
    rw [List.map_append]
    exact List.concat_eq_append ▸ ih.concat fresh

/-- **Every node that ran did so at an earlier log.** -/
theorem ran (runs : f.Runs g inputs log) {index : Nat} {outputs : List Value}
    (member : (index, outputs) ∈ log) :
    (∃ earlier, earlier <+: log ∧ f.Produces g inputs earlier index outputs) ∨
      (index = g.outputIndex ∧ outputs = []) := by
  induction runs with
  | start => exact absurd member List.not_mem_nil
  | @produces log turn made before fresh produced ih =>
    rcases List.mem_append.mp member with old | new
    · refine (ih old).imp_left fun ⟨earlier, grows, how⟩ => ?_
      exact ⟨earlier, grows.trans (List.prefix_append ..), how⟩
    · cases List.mem_singleton.mp new
      exact Or.inl ⟨log, List.prefix_append .., produced⟩
  | @delivers log callee before fresh able ih =>
    rcases List.mem_append.mp member with old | new
    · refine (ih old).imp_left fun ⟨earlier, grows, how⟩ => ?_
      exact ⟨earlier, grows.trans (List.prefix_append ..), how⟩
    · cases List.mem_singleton.mp new
      exact Or.inr ⟨rfl, rfl⟩

/-- **A feed is a value set by hand or an output of the node at the start of a wire.** -/
theorem mem_feeds (runs : f.Runs g inputs log) (index slot : Nat) (value : Value) :
    (slot, value) ∈ f.feedsAfter g log index ↔
      (g.valuesAt index).get? slot = some value ∨
        ∃ link ∈ g.links, link.stop = ⟨index, slot⟩ ∧
          ∃ outputs, (link.start.node, outputs) ∈ log ∧ outputs[link.start.slot]? = some value := by
  unfold feedsAfter
  rw [Circuit.mem_feeds, valuesAt_circuit]
  refine or_congr Iff.rfl (exists_congr fun link => and_congr_right fun _ =>
    and_congr_right fun _ => ?_)
  rw [Circuit.produced?_poolOf]
  exact Pool.produced?_ofLog runs.nodup link.start value

/-- **Feeds stay as the log grows.** -/
theorem feeds_mono {earlier log : List (Nat × List Value)} (grows : earlier <+: log)
    {index slot : Nat} {value : Value} (known : (slot, value) ∈ f.feedsAfter g earlier index) :
    (slot, value) ∈ f.feedsAfter g log index :=
  Circuit.feeds_mono grows known

end Runs

section Single

variable {log : List (Nat × List Value)} {index : Nat}

/-- A slot that has a feed at hand is fed by a wire or a value. -/
theorem feedCountAt_pos {slot : Nat} {value : Value}
    (member : (slot, value) ∈ f.feedsAfter g log index) : 0 < g.feedCountAt ⟨index, slot⟩ := by
  rw [← feedCount_circuit f]
  exact Circuit.feedCount_pos member

theorem nodup_feedsAfter (single : ∀ slot, g.feedCountAt ⟨index, slot⟩ ≤ 1) :
    ((f.feedsAfter g log index).map Prod.fst).Nodup :=
  Circuit.nodup_feeds (fun slot => feedCount_circuit f g ⟨index, slot⟩ ▸ single slot) log

/-- The feed of a slot is the only one there. -/
theorem feedsAfter_unique (single : ∀ slot, g.feedCountAt ⟨index, slot⟩ ≤ 1) {slot : Nat}
    {first second : Value} (one : (slot, first) ∈ f.feedsAfter g log index)
    (other : (slot, second) ∈ f.feedsAfter g log index) : first = second :=
  Circuit.feeds_unique (fun slot => feedCount_circuit f g ⟨index, slot⟩ ▸ single slot) one other

/-- **A node that has one feed in every declared slot and no other feed has exactly the declared
slots, in order.** -/
theorem feedsAfter_slots {count : Nat} (single : ∀ slot, g.feedCountAt ⟨index, slot⟩ ≤ 1)
    (declared : ∀ slot, 0 < g.feedCountAt ⟨index, slot⟩ → slot < count)
    (present : ∀ slot < count, ∃ value, (slot, value) ∈ f.feedsAfter g log index) :
    (f.feedsAfter g log index).map Prod.fst = List.range count := by
  refine Circuit.feeds_slots (fun slot => ?_) (fun slot fed => ?_) present
  · rw [feedCount_circuit]
    exact single slot
  · rw [feedCount_circuit] at fed
    exact declared slot fed

/-- The Output node delivers as many values as there are outputs if it has all its slots. -/
theorem length_delivery_of_slots
    (slots : (f.feedsAfter g log g.outputIndex).map Prod.fst =
      List.range f.outputBoundary.inputs.length) :
    (f.delivery g log).length = f.dataOutputs.length := by
  have count := congrArg List.length slots
  rw [List.length_map, List.length_range] at count
  unfold delivery
  rw [List.length_map, List.length_drop, count]
  rfl

end Single

end Function

end FlowGraph
