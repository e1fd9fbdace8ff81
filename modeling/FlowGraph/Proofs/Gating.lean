/-
**What lets a node run, and what it hands to its callee.**

A node other than the Input node runs only if the first of its feeds is the signal, and its callee
gets the values of all the others. In a graph whose slots have one feed at most this is the feed of
the lowest slot that anything arrived at. It is slot zero for the Output node and for every callee
that waits for all its inputs. A callee that any input is enough for can do without it: where
nothing arrives at slot zero, a signal that is handed over as a datum opens the gate.

* `Function.GatedAt`: the slot that lets a node run, and the arguments that follow from it;
* `Function.CanRun.gatedAt`, `Function.CanRun.gate_cases`: which slot that is;
* `Function.exists_turn`: the log and the callee of every node that a run starts;
* `Function.run_gated`: **gating and argument passing in every run**;
* `Function.ungated_merge`: a merge that runs although nothing arrives at its slot zero.
-/

import FlowGraph.Function.Fresh
import FlowGraph.Proofs.CleanReport
import FlowGraph.Proofs.Failure

namespace FlowGraph

/-- No slot of a node other than the Input node has two feeds. -/
def Graph.SingleFed (g : Graph Function) : Prop :=
  ∀ index ≠ 0, ∀ slot, g.feedCountAt ⟨index, slot⟩ ≤ 1

/-- The values of the feeds above a slot, in the order of the feeds. -/
def Feed.valuesAbove (slot : Nat) (feeds : List Feed) : List Value :=
  (feeds.filter fun feed => slot < feed.1).map Prod.snd

theorem Feed.valuesAbove_first {slot : Nat} {first : Value} {rest : List Feed}
    (behind : ∀ feed ∈ rest, slot < feed.1) :
    Feed.valuesAbove slot ((slot, first) :: rest) = rest.map Prod.snd := by
  unfold Feed.valuesAbove
  rw [List.filter_cons_of_neg (by simp),
    List.filter_eq_self.mpr fun feed member => decide_eq_true (behind feed member)]

namespace Function

variable {f : Function} {g : Graph Function} {inputs : List Value}
  {log : List (Nat × List Value)} {index slot : Nat} {callee : Function}

/-! ### The slot that lets a node run -/

/-- The data arguments that a node hands to its callee, or the Output node delivers, after the nodes
of a log have run. -/
def arguments (f : Function) (g : Graph Function) (log : List (Nat × List Value)) (index : Nat) :
    List Value :=
  ((f.feedsAfter g log index).drop 1).map Prod.snd

/-- The signal in some slot lets a node run: nothing has arrived below, and the arguments are what
has arrived above, in ascending order of the slots. -/
structure GatedAt (f : Function) (g : Graph Function) (log : List (Nat × List Value))
    (index slot : Nat) : Prop where
  signal : (slot, .signal) ∈ f.feedsAfter g log index
  lowest : ∀ feed ∈ f.feedsAfter g log index, slot ≤ feed.1
  ascending : ((f.feedsAfter g log index).map Prod.fst).Pairwise (· < ·)
  arguments : f.arguments g log index = Feed.valuesAbove slot (f.feedsAfter g log index)

/-- The slots of feeds ascend. -/
theorem sorted_feedsAfter (f : Function) (g : Graph Function) (log : List (Nat × List Value))
    (index : Nat) : ((f.feedsAfter g log index).map Prod.fst).Pairwise (· ≤ ·) :=
  List.pairwise_map.mpr (Circuit.feeds_sorted ..)

/-- Nothing has arrived below the slot of the first feed. -/
theorem first_slot_le {first : Value} {rest : List Feed}
    (shape : f.feedsAfter g log index = (slot, first) :: rest) {feed : Feed}
    (member : feed ∈ f.feedsAfter g log index) : slot ≤ feed.1 := by
  have sorted := sorted_feedsAfter f g log index
  rw [shape] at sorted member
  rcases List.mem_cons.mp member with here | later
  · rw [here]
  · exact (List.pairwise_cons.mp sorted).1 _ (List.mem_map_of_mem later)

theorem ascending_feedsAfter (f : Function) (single : g.SingleFed) (inner : index ≠ 0)
    (log : List (Nat × List Value)) :
    ((f.feedsAfter g log index).map Prod.fst).Pairwise (· < ·) := by
  have both := (sorted_feedsAfter f g log index).and (nodup_feedsAfter (single index inner))
  exact both.imp fun order => lt_of_le_of_ne order.1 order.2

/-- **A node that can run is let through by the signal in its lowest slot.** -/
theorem CanRun.gatedAt (able : f.CanRun g log index callee) (single : g.SingleFed)
    (inner : index ≠ 0) : ∃ slot, f.GatedAt g log index slot := by
  obtain ⟨slot, rest, shape⟩ := able.allowed.resolve_left inner
  have ascending := ascending_feedsAfter f single inner log
  refine ⟨slot, ?_, fun feed => first_slot_le shape, ascending, ?_⟩
  · rw [shape]
    exact List.mem_cons_self
  · rw [shape] at ascending
    unfold Function.arguments
    rw [shape, Feed.valuesAbove_first fun feed member =>
      (List.pairwise_cons.mp ascending).1 _ (List.mem_map_of_mem member)]
    rfl

/-- **The slot that lets a node run is slot zero**, unless nothing has arrived there and the callee
does not wait for it: any input is enough, or the callee has no input slots. -/
theorem CanRun.gate_cases (able : f.CanRun g log index callee)
    (gated : f.GatedAt g log index slot) :
    slot = 0 ∨ (∀ value, (0, value) ∉ f.feedsAfter g log index) ∧
      index ≠ g.outputIndex ∧ (callee.anyInput = true ∨ callee.id = inputFunctionId) := by
  by_cases first : slot = 0
  · exact Or.inl first
  · have missing : ∀ value, (0, value) ∉ f.feedsAfter g log index := fun value member =>
      first (Nat.le_zero.mp (gated.lowest _ member))
    -- A callee that waits for all its inputs, and has some, waits for slot zero.
    have waits : callee.anyInput = false → callee.inputs.length = 0 := by
      intro whole
      have ready := able.ready
      rw [whole] at ready
      by_contra some
      obtain ⟨value, member⟩ := ready 0 (Nat.pos_of_ne_zero some)
      exact missing value member
    refine Or.inr ⟨missing, fun last => ?_, ?_⟩
    · rw [last] at able
      cases able.callee_output
      cases waits rfl
    · cases any : callee.anyInput with
      | true => exact Or.inl rfl
      | false =>
        refine Or.inr ?_
        by_contra own
        have none := waits any
        rw [inputs, if_neg own] at none
        cases none

/-! ### Turns in a run -/

theorem run_native {mapping : List Value → List Value} (native : f.body = .native mapping)
    (values : List Value) : (f.run values).result = .ok (mapping values) := by
  unfold run
  dsimp only
  rw [evaluate_native native]
  rfl

/-- A function gets its arguments without the first one, which is the signal. -/
theorem evaluate_eq_run (h : Function) (values : List Value) :
    (h.evaluate values).result = (h.run (values.drop 1)).result.map (Value.signal :: ·) := by
  cases body : h.body with
  | native mapping =>
    rw [evaluate_native body, run_native body]
    rfl
  | composite nested => exact evaluate_composite body values

theorem evaluate_feeds (h : Function) :
    (h.evaluate ((f.feedsAfter g log index).map Prod.snd)).result =
      (h.run (f.arguments g log index)).result.map (Value.signal :: ·) := by
  rw [evaluate_eq_run, ← List.map_drop]
  rfl

/-- What became of the turn of a node of the user, by what its callee did on the arguments: the node
put the results out, or the run failed there. -/
inductive Concludes (f : Function) (g : Graph Function) (inputs : List Value)
    (log : List (Nat × List Value)) (index : Nat) (callee : Function) : Prop
  | succeeds {values : List Value}
      (result : (callee.run (f.arguments g log index)).result = .ok values)
      (runs : f.Runs g inputs (log ++ [(index, .signal :: values)]))
  | fails {error : RunError}
      (result : (callee.run (f.arguments g log index)).result = .error error)
      (blamed : (f.run inputs).result = .error ⟨some index⟩)

theorem Concludes.of_ok {outputs : List Value}
    (evaluated : (callee.evaluate ((f.feedsAfter g log index).map Prod.snd)).result = .ok outputs)
    (runs : f.Runs g inputs (log ++ [(index, outputs)])) :
    f.Concludes g inputs log index callee := by
  rw [evaluate_feeds] at evaluated
  cases result : (callee.run (f.arguments g log index)).result with
  | ok values =>
    rw [result] at evaluated
    cases evaluated
    exact .succeeds result runs
  | error error =>
    rw [result] at evaluated
    cases evaluated

theorem Concludes.of_error {error : RunError}
    (failed : (callee.evaluate ((f.feedsAfter g log index).map Prod.snd)).result = .error error)
    (blamed : (f.run inputs).result = .error ⟨some index⟩) :
    f.Concludes g inputs log index callee := by
  rw [evaluate_feeds] at failed
  cases result : (callee.run (f.arguments g log index)).result with
  | ok values =>
    rw [result] at failed
    cases failed
  | error error => exact .fails result blamed

/-- The last node of a log could run after all others, and a node of the user put out what its
callee gave. -/
theorem Runs.last_turn {outputs : List Value}
    (runs : f.Runs g inputs (log ++ [(index, outputs)])) (inner : index ≠ 0) :
    ∃ callee, f.CanRun g log index callee ∧
      (index ≠ g.outputIndex → f.Concludes g inputs log index callee) := by
  rcases runs.last_cases with produced | ⟨⟨last, _⟩, callee, able⟩
  · cases produced with
    | input => exact absurd rfl inner
    | node able _ inside evaluated => exact ⟨_, able, fun _ => .of_ok evaluated runs⟩
  · exact ⟨callee, able, fun inside => absurd last inside⟩

/-- Every node of a log had its turn after the nodes before it. -/
theorem Runs.turn {whole : List (Nat × List Value)} (runs : f.Runs g inputs whole)
    (inner : index ≠ 0) {before after : List Nat}
    (order : whole.map Prod.fst = before ++ index :: after) :
    ∃ log callee, f.Runs g inputs log ∧ log.map Prod.fst = before ∧
      f.CanRun g log index callee ∧
        (index ≠ g.outputIndex → f.Concludes g inputs log index callee) := by
  obtain ⟨log, rest, rfl, front, back⟩ := List.map_eq_append_iff.mp order
  obtain ⟨⟨index, outputs⟩, later, rfl, rfl, _⟩ := List.map_eq_cons_iff.mp back
  have last : f.Runs g inputs (log ++ [(index, outputs)]) := by
    refine runs.earlier_log ⟨later, ?_⟩
    rw [List.append_assoc]
    rfl
  obtain ⟨callee, able, concludes⟩ := last.last_turn inner
  exact ⟨log, callee, last.earlier_log (List.prefix_append ..), front, able, concludes⟩

/-- **Every node that a run starts** can run after the nodes that were started before it, and what
its callee does on the arguments decides its turn. -/
theorem exists_turn (composite : f.body = .composite g) (inner : index ≠ 0)
    {before after : List Nat}
    (steps : Event.steps (f.run inputs).events = before ++ index :: after) :
    ∃ log callee, f.Runs g inputs log ∧ log.map Prod.fst = before ∧
      f.CanRun g log index callee ∧
        (index ≠ g.outputIndex → f.Concludes g inputs log index callee) := by
  have finishes := run_finishes composite inputs
  rw [steps] at finishes
  generalize result : (f.run inputs).result = ending at finishes
  generalize order : before ++ index :: after = started at finishes
  cases finishes with
  | succeeds runs values => exact runs.turn inner order.symm
  | stalls runs wanting stuck => exact runs.turn inner order.symm
  | @fails log last callee error runs _ inside able failed =>
    -- The node is the one that failed, or it had its turn before.
    rcases List.eq_nil_or_concat' after with rfl | ⟨more, final, rfl⟩
    · obtain ⟨front, same⟩ := List.append_inj' order rfl
      cases same
      exact ⟨log, callee, runs, front.symm, able, fun _ => .of_error failed result⟩
    · rw [← List.cons_append, ← List.append_assoc] at order
      exact runs.turn inner (List.append_inj' order rfl).1.symm

end Function

/-! ### What the Output node delivers -/

/-- What is at hand was delivered after the nodes that ran before the Output node. -/
theorem Circuit.Comes.delivered_at {c : Circuit} {inputs : List Value} {depth : Nat} {m : Moment}
    (comes : c.Comes inputs depth m) {values : List Value} (given : m.delivered? = some values) :
    ∃ earlier, earlier ++ [(c.outputIndex, [])] <+: m.log ∧
      values = c.delivery (c.poolOf earlier) := by
  induction comes with
  | start => cases given
  | waits before unable ih => exact ih given
  | produces before produced ih =>
    obtain ⟨earlier, grows, same⟩ := ih given
    exact ⟨earlier, grows.trans (List.prefix_append ..), same⟩
  | @delivers pass turn rest waiting log delivered? station callee before inner last able ih =>
    cases given
    rw [last]
    exact ⟨log, List.prefix_rfl, rfl⟩
  | passes before refused ih => cases given

namespace Function

variable {f : Function} {g : Graph Function} {inputs : List Value}
  {log : List (Nat × List Value)} {index slot : Nat} {callee : Function}

/-- The nodes before the Output node determine what a run has come to when they have run. -/
theorem Runs.before_output {earlier whole : List (Nat × List Value)} (runs : f.Runs g inputs log)
    (past : f.Runs g inputs whole) (grows : earlier ++ [(g.outputIndex, [])] <+: whole)
    {after : List Nat} (order : whole.map Prod.fst = log.map Prod.fst ++ g.outputIndex :: after) :
    earlier = log := by
  have reached := past.earlier_log ((List.prefix_append ..).trans grows)
  obtain ⟨rest, rfl⟩ := grows
  have once := past.nodup
  rw [List.map_append, List.map_append, List.append_assoc] at order once
  have fresh := (List.nodup_cons.mp (List.nodup_middle.mp once)).1
  rw [List.mem_append, not_or] at fresh
  exact reached.unique runs ((List.append_cons_inj_of_notMem fresh.1 fresh.2).mp order).1

/-- **A run that succeeds gives the arguments of the Output node**, unless there is nothing to
deliver. -/
theorem result_of_output (composite : f.body = .composite g) (runs : f.Runs g inputs log)
    {after : List Nat}
    (steps : Event.steps (f.run inputs).events = log.map Prod.fst ++ g.outputIndex :: after)
    {values : List Value} (result : (f.run inputs).result = .ok values) :
    values = f.arguments g log g.outputIndex ∨ f.dataOutputs = [] ∧ values = [] := by
  obtain ⟨ending, events, closes, run⟩ := (f.circuit g).run_closes inputs 0
  rw [steps_run composite run] at steps
  rw [run_composite composite, run] at result
  cases closes with
  | @accepted rows row pass waiting whole delivered? accepted story accepts =>
    cases result
    have ran := steps_of_story story
    rw [← steps_tellPasses_concat] at ran
    cases given : delivered? with
    | none =>
      rw [given, Circuit.accept?] at accepts
      split at accepts
      · next needless =>
        cases accepts
        exact Or.inr ⟨List.length_eq_zero_iff.mp needless, rfl⟩
      · cases accepts
    | some delivered =>
      rw [given, accept?_circuit] at accepts
      split at accepts
      · cases accepts
        obtain ⟨earlier, grows, same⟩ := story.comes.delivered_at given
        rw [outputIndex_circuit] at grows
        rw [delivery_circuit] at same
        have order : whole.map Prod.fst = log.map Prod.fst ++ g.outputIndex :: after :=
          ran.symm.trans steps
        rw [same, runs.before_output (runs_of_comes story.comes) grows order]
        exact Or.inl rfl
      · cases accepts
  | failed breaks => cases result
  | stalled story wanting stuck => cases result

/-! ### Merges -/

/-- A function hands on the value of the lowest slot above some slot that anything arrived at. -/
def Forwards (f : Function) (g : Graph Function) (log : List (Nat × List Value)) (index slot : Nat)
    (callee : Function) : Prop :=
  ∃ data value, (data, value) ∈ f.feedsAfter g log index ∧ slot < data ∧
    (∀ feed ∈ f.feedsAfter g log index, slot < feed.1 → data ≤ feed.1) ∧
      (callee.run (f.arguments g log index)).result = .ok [value]

/-- **A merge hands on the value of its lowest slot above the signal.** -/
theorem GatedAt.forwards (gated : f.GatedAt g log index slot) {valueType : ValueType}
    {supply : IdSupply} (able : f.CanRun g log index ((merge valueType).run supply).1) :
    f.Forwards g log index slot ((merge valueType).run supply).1 := by
  have several : 1 < (f.feedsAfter g log index).length := able.ready
  have native : ((merge valueType).run supply).1.body =
      .native (mergeMapping valueType.default) := rfl
  obtain ⟨signal, lowest, ascending, _⟩ := gated
  unfold Forwards Function.arguments
  rw [run_native native]
  generalize f.feedsAfter g log index = feeds at signal lowest ascending several ⊢
  match feeds, several with
  | (first, gate) :: (data, value) :: rest, _ =>
    obtain ⟨above, later⟩ := List.pairwise_cons.mp ascending
    have here : slot = first := by
      rcases List.mem_cons.mp signal with same | behind
      · exact congrArg Prod.fst same
      · have after := above slot (List.mem_map_of_mem behind)
        exact absurd (lowest _ List.mem_cons_self) (Nat.not_le_of_lt after)
    subst here
    refine ⟨data, value, List.mem_cons_of_mem _ List.mem_cons_self, above _ List.mem_cons_self,
      fun feed member behind => ?_, rfl⟩
    rcases List.mem_cons.mp member with rfl | others
    · exact absurd behind (Nat.lt_irrefl _)
    · rcases List.mem_cons.mp others with rfl | further
      · exact Nat.le_refl _
      · exact Nat.le_of_lt ((List.pairwise_cons.mp later).1 _ (List.mem_map_of_mem further))

/-! ### Gating in every run -/

/-- What a node other than the Input node that has its turn after a log hands to its callee, and
what comes of it. -/
structure HandsOver (f : Function) (g : Graph Function) (inputs : List Value)
    (log : List (Nat × List Value)) (index slot : Nat) (callee : Function) : Prop where
  gated : f.GatedAt g log index slot
  /-- The gate is slot zero, unless nothing arrived there and the callee does not wait for it. -/
  gate : slot = 0 ∨ (∀ value, (0, value) ∉ f.feedsAfter g log index) ∧
    index ≠ g.outputIndex ∧ (callee.anyInput = true ∨ callee.id = inputFunctionId)
  /-- The callee of a node of the user is evaluated on the arguments. -/
  node : index ≠ g.outputIndex → f.Concludes g inputs log index callee
  /-- The arguments of the Output node are the result of a run that delivers and succeeds. -/
  output : index = g.outputIndex → ∀ values, (f.run inputs).result = .ok values →
    values = f.arguments g log index ∨ f.dataOutputs = [] ∧ values = []
  merges : ∀ valueType supply, callee = ((merge valueType).run supply).1 →
    f.Forwards g log index slot callee

/-- **Gating and argument passing.** In a composite whose slots have one feed at most, every node
other than the Input node that a run starts has the signal in the lowest slot that anything arrived
at, and hands over what arrived at the slots above, in ascending order. The lowest slot is slot
zero, or nothing arrived there and the callee of the node does not wait for it. -/
theorem run_gated (composite : f.body = .composite g) (single : g.SingleFed) (inner : index ≠ 0)
    {before after : List Nat}
    (steps : Event.steps (f.run inputs).events = before ++ index :: after) :
    ∃ log callee slot, f.Runs g inputs log ∧ log.map Prod.fst = before ∧
      f.calleeIn? g index = some callee ∧ f.HandsOver g inputs log index slot callee := by
  obtain ⟨log, callee, runs, rfl, able, concludes⟩ := exists_turn composite inner steps
  obtain ⟨slot, gated⟩ := able.gatedAt single inner
  refine ⟨log, callee, slot, runs, rfl, able.calls, gated, able.gate_cases gated, concludes,
    fun last values result => ?_, fun valueType supply isMerge => ?_⟩
  · subst last
    exact result_of_output composite runs steps result
  · subst isMerge
    exact gated.forwards able

theorem inverter_gated : inverterGraph.SingleFed ∧
    ∃ log callee slot, log.map Prod.fst = [0] ∧
      inverter.HandsOver inverterGraph [.boolean true] log 1 slot callee := by
  have single : inverterGraph.SingleFed := fun index _ slot =>
    (clean_of_validate rfl inverterGraph_distinctIds validate_inverter).feedCountAt_le_one _
  have steps : Event.steps (inverter.run [.boolean true]).events = [0] ++ 1 :: [2] := by
    decide +kernel
  obtain ⟨log, callee, slot, _, before, _, handsOver⟩ :=
    run_gated (f := inverter) rfl single Nat.one_ne_zero steps
  exact ⟨single, log, callee, slot, before, handsOver⟩

/-! ### A merge without a gate at slot zero -/

/-- A graph with a merge that has the signal in its first data slot and nothing in slot zero. -/
def ungatedGraph : Graph Function :=
  { Graph.new [⟨"Merges", [((merge .boolean).run .counting).1]⟩] with
    nodes := [{ Node.new ⟨.ofNat 2⟩ "merge-boolean" ⟨0, 0⟩ with
      values := (Slots.single 1 .signal).insert 2 (.boolean true) }]
    wires := [⟨⟨.ofNat 3⟩, ⟨⟨.ofNat 2⟩, 1⟩, ⟨.output, 1⟩⟩] }

/-- A composite with such a graph. -/
def ungated : Function :=
  composite "ungated" "Ungated" [] [flag] ungatedGraph

theorem singleFed_ungatedGraph : ungatedGraph.SingleFed := by
  intro index _ slot
  have links : ungatedGraph.links = [⟨⟨1, 1⟩, ⟨2, 1⟩⟩] := by decide +kernel
  unfold Graph.feedCountAt
  rw [links]
  by_cases here : (⟨2, 1⟩ : Place) = ⟨index, slot⟩
  · cases here
    decide +kernel
  · rw [List.countP_cons_of_neg (by simpa using here), List.countP_nil, Nat.zero_add]
    split
    · exact Nat.le_refl 1
    · exact Nat.zero_le 1

/-- **A merge runs although nothing arrives at its slot zero**, and takes the signal in its first
data slot for the one that lets it run. -/
theorem ungated_merge : ungatedGraph.SingleFed ∧
    (ungated.run []).result = .ok [.boolean true] ∧
    Event.steps (ungated.run []).events = [0, 1, 2] ∧
    ¬ ∀ log index, ungated.Runs ungatedGraph [] log →
      log.map Prod.fst ++ [index] <+: Event.steps (ungated.run []).events → index ≠ 0 →
        ungated.GatedAt ungatedGraph log index 0 := by
  have steps : Event.steps (ungated.run []).events = [0, 1, 2] := by decide +kernel
  refine ⟨singleFed_ungatedGraph, by decide +kernel, steps, fun gates => ?_⟩
  have runs : ungated.Runs ungatedGraph [] [(0, [.signal])] :=
    .produces .start List.not_mem_nil .input
  have feeds : ungated.feedsAfter ungatedGraph [(0, [.signal])] 1 =
      [(1, .signal), (2, .boolean true)] := by
    decide +kernel
  have signal := (gates _ 1 runs (steps ▸ ⟨[2], rfl⟩) Nat.one_ne_zero).signal
  rw [feeds] at signal
  exact absurd signal (by decide)

end Function

end FlowGraph
