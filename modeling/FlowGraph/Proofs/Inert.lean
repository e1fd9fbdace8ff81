/-
**Nodes that can never run.**

A node is barred if it calls no known function, or if it was set by hand that it may not run and no
wire can lift that. Such a node waits forever. Nothing comes out of it, so whatever its wires lead
to, the run is that of a circuit without these wires, and what is left of the node can be removed.

* `Circuit.silenced`: a circuit in which a node calls nothing and no wire starts at it;
* `Circuit.run_silenced`: **silencing a node that can never run changes no result**, turn by turn
  and pass by pass;
* `Function.Barred`: nodes that can never run, and `Function.Barred.unable`: why they cannot;
* `Function.run_barred`: **a barred node is never started, and nobody notices that it is removed.**
-/

import FlowGraph.Proofs.Gating
import FlowGraph.Proofs.Removal
import FlowGraph.Proofs.Timetable

namespace FlowGraph

/-! ### Circuits with a silenced node -/

/-- The node without the function that it calls. -/
def Station.muted (station : Station) : Station :=
  { station with callee? := none }

namespace Circuit

/-- The circuit in which a node calls nothing, without the wires that start at the node. -/
def silenced (c : Circuit) (gone : Nat) : Circuit :=
  { c with
    stations := c.stations.modify gone Station.muted
    links := c.links.filter fun link => link.start.node ≠ gone }

variable {c : Circuit} {gone index : Nat} {inputs : List Value} {depth : Nat} {pool : Pool}
  {reached : Reached}

theorem length_stations_silenced (c : Circuit) (gone : Nat) :
    (c.silenced gone).stations.length = c.stations.length :=
  List.length_modify ..

theorem outputIndex_silenced (c : Circuit) (gone : Nat) :
    (c.silenced gone).outputIndex = c.outputIndex := by
  unfold outputIndex
  rw [length_stations_silenced]

theorem stations_silenced (c : Circuit) {gone index : Nat} (other : index ≠ gone) :
    (c.silenced gone).stations[index]? = c.stations[index]? :=
  List.getElem?_modify_ne Station.muted _ (Ne.symm other)

theorem initialPool_silenced (c : Circuit) (gone : Nat) :
    (c.silenced gone).initialPool = c.initialPool := by
  have general : ∀ (stations : List Station) (gone first : Nat),
      (((stations.modify gone Station.muted).zipIdx first).flatMap fun row =>
          Pool.ofSlots row.2 row.1.values) =
        (stations.zipIdx first).flatMap fun row => Pool.ofSlots row.2 row.1.values := by
    intro stations
    induction stations with
    | nil =>
      intro gone first
      rw [List.modify_nil]
    | cons station rest ih =>
      intro gone first
      cases gone with
      | zero => rfl
      | succ gone =>
        rw [List.modify_succ_cons, List.zipIdx_cons, List.zipIdx_cons, List.flatMap_cons,
          List.flatMap_cons, ih]
  exact general c.stations gone 0

/-- A silenced node calls nothing. -/
theorem callee?_silenced {station : Station}
    (located : (c.silenced gone).stations[gone]? = some station) : station.callee? = none := by
  unfold silenced at located
  dsimp only at located
  rw [List.getElem?_modify_eq] at located
  obtain ⟨before, _, rfl⟩ := Option.map_eq_some_iff.mp located
  rfl

theorem not_canRun_silenced (c : Circuit) (gone : Nat) (pool : Pool) (station : Station)
    (callee : Callee) : ¬ (c.silenced gone).CanRun pool gone station callee := by
  intro able
  have calls := able.calls
  rw [callee?_silenced able.located] at calls
  cases calls

/-! ### Runs in which a node never runs -/

/-- The pool at some point of a run at which a node has not run. -/
def Spares (c : Circuit) (gone : Nat) (pool : Pool) : Prop :=
  ∃ log, pool = c.poolOf log ∧ gone ∉ log.map Prod.fst

/-- **A node has the same feeds** with and without the wires from a node that has not run. -/
theorem Spares.feeds (spares : c.Spares gone pool) (index : Nat) :
    (c.silenced gone).feeds pool index = c.feeds pool index := by
  obtain ⟨log, rfl, fresh⟩ := spares
  unfold Circuit.feeds silenced
  dsimp only
  rw [List.filterMap_filter]
  congr 2
  refine List.filterMap_congr fun link _ => ?_
  split
  · rfl
  · next leaves =>
    have start : link.start.node = gone := by simpa using leaves
    have nothing : (c.poolOf log).produced? link.start = none := by
      rw [produced?_poolOf]
      refine produced?_ofLog_eq_none fun outputs member => absurd ?_ fresh
      rw [← start]
      exact List.mem_map_of_mem member
    unfold wiredFeed?
    rw [nothing, Option.map_none, ite_self]

section Unable

variable (unable : ∀ log station callee, ¬ c.CanRun (c.poolOf log) gone station callee)

include unable

/-- **One turn**: a node does the same, whether or not the node that can never run is silenced. -/
theorem step_silenced (spares : c.Spares gone reached.pool) (inputs : List Value)
    (depth index : Nat) :
    (c.silenced gone).step inputs depth reached index = c.step inputs depth reached index := by
  by_cases here : index = gone
  · obtain ⟨log, same, _⟩ := spares
    rw [here, step_of_not_canRun (c.not_canRun_silenced gone reached.pool),
      step_of_not_canRun (same ▸ unable log)]
  · unfold step
    rw [stations_silenced c here, spares.feeds, outputIndex_silenced]

/-- The node that can never run does not run in a turn either. -/
theorem Spares.step {after : Reached} {events : List Event} (spares : c.Spares gone reached.pool)
    (runs : c.step inputs depth reached index = .runs after events) :
    c.Spares gone after.pool := by
  obtain ⟨log, same, fresh⟩ := spares
  rcases step_runs runs with ⟨outputs, produced, rfl⟩ | ⟨_, _, _, rfl⟩
  · have other : gone ≠ index := by
      rintro rfl
      cases produced with
      | input able => exact unable log _ _ (same ▸ able)
      | node able inner inside evaluated => exact unable log _ _ (same ▸ able)
    refine ⟨log ++ [(index, outputs)], ?_, ?_⟩
    · rw [poolOf_concat, ← same]
      rfl
    · rw [List.map_append, List.mem_append, not_or]
      exact ⟨fresh, fun last => other (List.mem_singleton.mp last)⟩
  · exact ⟨log, same, fresh⟩

/-- **One pass** is the same and ends as it began, with the node still to run. -/
theorem sweep_silenced (spares : c.Spares gone reached.pool) (inputs : List Value) (depth : Nat)
    (pending : List Nat) :
    (c.silenced gone).sweep inputs depth reached pending = c.sweep inputs depth reached pending ∧
      c.Spares gone (c.sweep inputs depth reached pending).reached.pool := by
  induction pending generalizing reached with
  | nil => exact ⟨rfl, spares⟩
  | cons index rest ih =>
    have same := step_silenced unable spares inputs depth index
    cases turn : c.step inputs depth reached index with
    | waits =>
      obtain ⟨swept, kept⟩ := ih spares
      rw [sweep_waits turn, sweep_waits (same.trans turn), swept]
      exact ⟨rfl, kept⟩
    | runs after events =>
      obtain ⟨swept, kept⟩ := ih (spares.step unable turn)
      rw [sweep_runs turn, sweep_runs (same.trans turn), swept]
      exact ⟨rfl, kept⟩
    | fails events =>
      rw [sweep_fails turn, sweep_fails (same.trans turn)]
      exact ⟨rfl, spares⟩

/-- **All passes** come to the same result. -/
theorem drive_silenced (spares : c.Spares gone pool) (inputs : List Value) (depth pass : Nat)
    (pending : List Nat) :
    ((c.silenced gone).drive inputs depth pass pool pending).result =
      (c.drive inputs depth pass pool pending).result := by
  induction size : pending.length using Nat.strong_induction_on generalizing pass pool pending with
  | _ count ih =>
    have begins : c.Spares gone (⟨pool, none⟩ : Reached).pool := spares
    obtain ⟨same, kept⟩ := sweep_silenced unable begins inputs depth pending
    have accepts : (c.silenced gone).accept? = c.accept? := by
      funext delivered?
      cases delivered? <;> rfl
    rw [drive_result, drive_result]
    dsimp only
    rw [same, accepts]
    split
    · rfl
    · split
      · rfl
      · split
        · next fewer => exact ih _ (size ▸ fewer) kept _ _ rfl
        · rfl

/-- **Silencing a node that can never run changes no result.** -/
theorem run_silenced (inputs : List Value) (depth : Nat) :
    ((c.silenced gone).run depth inputs).result = (c.run depth inputs).result := by
  have start : c.Spares gone c.initialPool := ⟨[], (c.poolOf_nil).symm, List.not_mem_nil⟩
  unfold run
  dsimp only
  rw [initialPool_silenced, length_stations_silenced, drive_silenced unable start]

end Unable

/-! ### Removing a silenced node -/

/-- A removal takes away all that silencing changes. -/
theorem without_silenced (c : Circuit) (gone : Nat) :
    (c.silenced gone).without gone = c.without gone := by
  unfold without silenced
  congr 1
  · refine List.ext_getElem? fun index => ?_
    rw [List.getElem?_eraseIdx, List.getElem?_eraseIdx]
    split
    · next before => exact List.getElem?_modify_ne Station.muted _ (Nat.ne_of_gt before)
    · next after => exact List.getElem?_modify_ne Station.muted _ (by omega)
  · rw [List.filter_filter]
    congr 1
    refine List.filter_congr fun link _ => ?_
    unfold Link.touches
    by_cases start : link.start.node = gone <;> simp [start]

theorem calm_silenced (c : Circuit) (gone : Nat) : (c.silenced gone).Calm gone := by
  intro station callee located calls
  rw [callee?_silenced located] at calls
  cases calls

theorem alike_silenced
    (alike : ∀ index : Nat, Option.Rel Station.Alike c.stations[index]? c.stations[index]?)
    (index : Nat) : Option.Rel Station.Alike (c.silenced gone).stations[index]?
      (c.silenced gone).stations[index]? := by
  by_cases here : index = gone
  · rw [here]
    unfold silenced
    dsimp only
    rw [List.getElem?_modify_eq]
    cases c.stations[gone]? with
    | none => exact .none
    | some station => exact .some ⟨rfl, .none⟩
  · rw [stations_silenced c here]
    exact alike index

end Circuit

/-! ### Barred nodes -/

namespace Function

variable {f : Function} {g : Graph Function} {place : Nat} {node : Node}

/-- A node of the user calls no known function, or it was set by hand that it may not run and no
wire ends where this is set. -/
def Barred (g : Graph Function) (place : Nat) (node : Node) : Prop :=
  find? g.roster node.function = none ∨
    node.values.get? 0 = some .noSignal ∧ ∀ link ∈ g.links, link.stop ≠ ⟨place + 1, 0⟩

/-- **A barred node cannot run**, whatever has run before. -/
theorem Barred.unable (barred : Barred g place node) (located : g.nodes[place]? = some node)
    (log : List (Nat × List Value)) (station : Station) (bound : Callee) :
    ¬ (f.circuit g).CanRun ((f.circuit g).poolOf log) (place + 1) station bound := by
  intro able
  obtain ⟨callee, able, _⟩ := canRun_of_circuit able
  obtain ⟨inside, here⟩ := List.getElem?_eq_some_iff.mp located
  rcases barred with unknown | ⟨set, unwired⟩
  · have calls := able.calls
    rw [calleeIn?_node f inside, List.get_eq_getElem, here, unknown] at calls
    cases calls
  · have values : (f.circuit g).valuesAt (place + 1) = node.values := by
      rw [valuesAt_circuit, Graph.valuesAt, Graph.allNodes_succ g inside, located]
      rfl
    have known := Circuit.mem_feeds (f.circuit g) log (place + 1) 0
    rw [values] at known
    have stops : (0, .noSignal) ∈ f.feedsAfter g log (place + 1) :=
      (known .noSignal).mpr (Or.inl set)
    obtain ⟨slot, rest, shape⟩ := able.allowed.resolve_left (Nat.succ_ne_zero place)
    -- The first feed would be that of slot zero, where nothing but the value set by hand is.
    have first : (0, .signal) ∈ f.feedsAfter g log (place + 1) := by
      rw [shape, Nat.le_zero.mp (first_slot_le shape stops)]
      exact List.mem_cons_self
    rcases (known .signal).mp first with manual | ⟨link, wired, stop, _⟩
    · rw [set] at manual
      cases manual
    · exact unwired link wired stop

/-- **A barred node is never started.** -/
theorem Barred.not_started (barred : Barred g place node) (located : g.nodes[place]? = some node)
    (composite : f.body = .composite g) (depth : Nat) (arguments : List Value) :
    ∀ event ∈ (f.evaluateAt depth arguments).events, event.starts depth (place + 1) = false := by
  obtain ⟨rows, row, course⟩ := evaluateAt_course composite depth arguments
  rw [← Event.passOf?_eq_none_iff]
  refine Option.eq_none_iff_forall_not_mem.mpr fun pass told => ?_
  obtain ⟨story, able, _⟩ := course.starts pass _ ((course.told _ _).mp told)
  exact barred.unable located _ _ _ able

/-- A composite with a silenced node corresponds to the composite less that node. -/
theorem corresponds_silenced (distinct : g.DistinctIds) (located : g.nodes[place]? = some node)
    (inputs : List Value) :
    Circuit.Corresponds (fun a b => a ≠ place + 1 ∧ b = lower (place + 1) a) inputs inputs
      ((f.circuit g).silenced (place + 1)) (f.circuit (g.without node.id)) := by
  obtain ⟨inside, here⟩ := List.getElem?_eq_some_iff.mp located
  have out : g.indexOf? node.id = some (place + 1) := here ▸ distinct.indexOf?_node inside
  have left := circuit_without f distinct (distinct.inner node (List.mem_of_getElem? located)) out
  rw [← Circuit.without_silenced] at left
  have opens := opens_circuit f (g.without node.id)
  have output : ((f.circuit g).silenced (place + 1)).outputIndex = g.nodes.length + 1 := by
    rw [Circuit.outputIndex_silenced, outputIndex_circuit]
    rfl
  rw [left] at opens ⊢
  refine Circuit.corresponds_without (Ne.symm (Nat.succ_ne_zero place)) ?_ (fun alive => alive rfl)
    ?_ (fun link wired _ _ => ?_) (fun index dead => ?_)
    (Circuit.alike_silenced (alike_station f g)) (fun pool => ⟨_, _, rfl, rfl, rfl, rfl⟩) opens
  · rw [output]
    omega
  · rw [output]
    omega
  · exact of_decide_eq_true (List.mem_filter.mp wired).2
  · rw [not_not.mp dead]
    exact Circuit.calm_silenced _ _

/-- **Barred nodes are inert.** A barred node is never started, at any depth of nesting, and never
the one that a run blames. Every run gives the same result after the removal of the node, up to the
numbers of the nodes behind it. -/
theorem run_barred (composite : f.body = .composite g) (distinct : g.DistinctIds)
    (located : g.nodes[place]? = some node) (barred : Barred g place node) :
    (∀ depth arguments, ∀ event ∈ (f.evaluateAt depth arguments).events,
      event.starts depth (place + 1) = false) ∧
    ∃ h, g.removeNode node.id = .ok (node, h) ∧ ∀ inputs,
      (f.run inputs).result ≠ .error ⟨some (place + 1)⟩ ∧
        ((f.setGraph h).run inputs).result =
          (f.run inputs).result.mapError (RunError.lowered (place + 1)) := by
  refine ⟨fun depth arguments => barred.not_started located composite depth arguments,
    _, g.removeNode_eq distinct (List.mem_of_getElem? located), fun inputs => ?_⟩
  have corresponds := corresponds_silenced (f := f) distinct located inputs
  have body : (f.setGraph (g.without node.id)).body = .composite (g.without node.id) := rfl
  rw [run_composite composite, run_composite body,
    ← Circuit.run_silenced (fun log => barred.unable located log) inputs 0]
  exact (Circuit.run_corresponds corresponds 0 0).lowered fun alive => alive rfl

/-- A graph with a node that may not run and one that may. Both call a stalling composite, and both
feed the Output node. -/
def barredGraph : Graph Function :=
  { Graph.new [⟨"Own", [unfed]⟩] with
    nodes := [(Node.new ⟨.ofNat 2⟩ "unfed" ⟨0, 0⟩).withValue 0 .noSignal,
      .new ⟨.ofNat 3⟩ "unfed" ⟨0, 0⟩]
    wires := [⟨⟨.ofNat 4⟩, ⟨⟨.ofNat 2⟩, 1⟩, ⟨.output, 1⟩⟩,
      ⟨⟨.ofNat 5⟩, ⟨⟨.ofNat 3⟩, 1⟩, ⟨.output, 1⟩⟩] }

/-- A composite with such a graph. -/
def halfBarred : Function :=
  composite "half-barred" "Half barred" [] [flag] barredGraph

theorem halfBarred_run_barred :
    (halfBarred.run []).result = .error ⟨some 2⟩ ∧
      ∃ h, barredGraph.removeNode ⟨.ofNat 2⟩ =
          .ok ((Node.new ⟨.ofNat 2⟩ "unfed" ⟨0, 0⟩).withValue 0 .noSignal, h) ∧
        ((halfBarred.setGraph h).run []).result = .error ⟨some 1⟩ := by
  have fails : (halfBarred.run []).result = .error ⟨some 2⟩ := by decide +kernel
  have distinct : barredGraph.DistinctIds := ⟨by decide +kernel, by decide +kernel⟩
  have barred : Barred barredGraph 0
      ((Node.new ⟨.ofNat 2⟩ "unfed" ⟨0, 0⟩).withValue 0 .noSignal) :=
    Or.inr ⟨by decide +kernel, by decide +kernel⟩
  obtain ⟨_, h, removed, runs⟩ := run_barred (f := halfBarred) rfl distinct
    (show barredGraph.nodes[0]? = some _ from rfl) barred
  refine ⟨fails, h, removed, ?_⟩
  rw [(runs []).2, fails]
  rfl

end Function

end FlowGraph
