/-
**Runs do not depend on identifiers.**

A run tells the identifier of every node that it starts, and that is all it makes of identifiers.
Circuits that differ in identifiers only tell the same events, up to these.

* `Event.unnamed`: an event without the identifier that it tells;
* `Circuit.Echoes`: circuits that are alike and tell the same, up to identifiers;
* `Circuit.sweep_echoes`, `Circuit.drive_echoes`, `Circuit.run_echoes`: a pass, passes and a run;
* `Function.run_renamed`: **a composite whose nodes get other identifiers runs as before.**
-/

import FlowGraph.Proofs.Trace

namespace FlowGraph

/-! ### Events without identifiers -/

namespace Event

/-- The same event with a fixed identifier in place of that of a node. -/
def unnamed : Event → Event
  | stepStarted functionId index _ depth => stepStarted functionId index .input depth
  | event => event

theorem step?_unnamed (event : Event) : event.unnamed.step? = event.step? := by
  cases event with
  | stepStarted functionId index id depth => cases depth <;> rfl
  | _ => rfl

theorem passes?_unnamed (event : Event) : event.unnamed.passes? = event.passes? := by
  cases event <;> rfl

theorem isPassAt_unnamed (depth : Nat) (event : Event) :
    event.unnamed.isPassAt depth = event.isPassAt depth := by
  cases event <;> rfl

variable {events others : List Event}

theorem steps_congr (same : events.map unnamed = others.map unnamed) :
    steps events = steps others := by
  have erased : ∀ row : List Event, steps (row.map unnamed) = steps row := fun row => by
    unfold steps
    rw [List.filterMap_map]
    exact List.filterMap_congr fun event _ => step?_unnamed event
  rw [← erased events, same, erased]

theorem passes_congr (same : events.map unnamed = others.map unnamed) :
    passes events = passes others := by
  have erased : ∀ row : List Event, passes (row.map unnamed) = passes row := fun row => by
    unfold passes
    rw [List.findSome?_map]
    exact congrArg (row.findSome? ·) (funext passes?_unnamed)
  rw [← erased events, same, erased]

theorem countP_isPassAt_congr (same : events.map unnamed = others.map unnamed) (depth : Nat) :
    events.countP (isPassAt depth) = others.countP (isPassAt depth) := by
  have erased : ∀ row : List Event,
      (row.map unnamed).countP (isPassAt depth) = row.countP (isPassAt depth) := fun row => by
    rw [List.countP_map]
    exact List.countP_congr fun event _ => by rw [Function.comp_apply, isPassAt_unnamed]
  rw [← erased events, same, erased]

end Event

/-! ### Circuits that echo each other -/

/-- Two callees are alike and tell the same, up to identifiers of nodes. -/
structure Callee.Echoes (a b : Callee) : Prop where
  alike : a.Alike b
  id : a.id = b.id
  events : ∀ depth inputs, (a.evaluate depth inputs).events.map Event.unnamed =
    (b.evaluate depth inputs).events.map Event.unnamed

/-- Two nodes have the same values set by hand and callees that echo each other. -/
structure Station.Echoes (a b : Station) : Prop where
  values : a.values = b.values
  callee : Option.Rel Callee.Echoes a.callee? b.callee?

theorem Station.Echoes.alike {a b : Station} (echoes : a.Echoes b) : a.Alike b := by
  refine ⟨echoes.values, ?_⟩
  have callees := echoes.callee
  generalize a.callee? = first? at callees
  generalize b.callee? = second? at callees
  cases callees with
  | none => exact .none
  | some related => exact .some related.alike

namespace Circuit

/-- Two circuits differ in identifiers of nodes only. -/
structure Echoes (c d : Circuit) : Prop where
  functionId : c.functionId = d.functionId
  outputCount : c.outputCount = d.outputCount
  links : c.links = d.links
  stations : List.Forall₂ Station.Echoes c.stations d.stations

variable {c d : Circuit}

theorem Echoes.alike (echoes : c.Echoes d) : c.Alike d :=
  ⟨echoes.outputCount, echoes.links, echoes.stations.imp fun _ _ => Station.Echoes.alike⟩

theorem Echoes.callee (echoes : c.Echoes d) {pool : Pool} {index : Nat} {station other : Station}
    {callee bound : Callee} (able : c.CanRun pool index station callee)
    (also : d.CanRun pool index other bound) : callee.Echoes bound := by
  have stations := rel_getElem? echoes.stations index
  rw [able.located, also.located] at stations
  cases stations with
  | some related =>
    have callees := related.callee
    rw [able.calls, also.calls] at callees
    cases callees with
    | some same => exact same

theorem told_echoes (echoes : c.Echoes d) (depth : Nat) {pool : Pool} {index : Nat}
    {station other : Station} {callee bound : Callee} (able : c.CanRun pool index station callee)
    (also : d.CanRun pool index other bound) :
    (c.told depth pool index station callee).map Event.unnamed =
      (d.told depth pool index other bound).map Event.unnamed := by
  have same := echoes.callee able also
  unfold told
  rw [List.map_cons, List.map_cons, same.id, ← echoes.alike.outputIndex, ← echoes.alike.feeds]
  refine congrArg (Event.stepStarted bound.id index .input depth :: ·) ?_
  split
  · rfl
  · exact same.events (depth + 1) _

/-- **One pass** of circuits that echo each other. -/
theorem sweep_echoes (echoes : c.Echoes d) (inputs : List Value) (depth : Nat) (reached : Reached)
    (pending : List Nat) :
    (c.sweep inputs depth reached pending).events.map Event.unnamed =
      (d.sweep inputs depth reached pending).events.map Event.unnamed := by
  induction pending generalizing reached with
  | nil => rfl
  | cons index rest ih =>
    have turn := step_alike echoes.alike inputs depth depth reached index
    generalize left : c.step inputs depth reached index = first at turn
    generalize right : d.step inputs depth reached index = second at turn
    cases turn with
    | waits =>
      rw [sweep_waits left, sweep_waits right]
      exact ih reached
    | runs after events others =>
      obtain ⟨station, callee, able, rfl⟩ := step_told (Or.inl ⟨after, left⟩)
      obtain ⟨other, bound, also, rfl⟩ := step_told (Or.inl ⟨after, right⟩)
      rw [sweep_runs left, sweep_runs right, List.map_append, List.map_append, ih after,
        told_echoes echoes depth able also]
    | fails events others =>
      obtain ⟨station, callee, able, rfl⟩ := step_told (Or.inr left)
      obtain ⟨other, bound, also, rfl⟩ := step_told (Or.inr right)
      rw [sweep_fails left, sweep_fails right]
      exact told_echoes echoes depth able also

theorem drive_echoes (echoes : c.Echoes d) (inputs : List Value) (depth pass : Nat) (pool : Pool)
    (pending : List Nat) :
    (c.drive inputs depth pass pool pending).events.map Event.unnamed =
      (d.drive inputs depth pass pool pending).events.map Event.unnamed := by
  induction size : pending.length using Nat.strong_induction_on generalizing pass pool pending with
  | _ count ih =>
    obtain ⟨sameReached, samePending, sameFailed⟩ :=
      sweep_alike echoes.alike inputs depth depth ⟨pool, none⟩ pending
    have told := sweep_echoes echoes inputs depth ⟨pool, none⟩ pending
    rw [drive.eq_def c, drive.eq_def d]
    dsimp only
    rw [← sameReached, ← samePending, ← sameFailed, ← echoes.alike.accept?, ← echoes.functionId]
    split
    · exact told
    · split
      · simp only [List.map_append, told]
      · split
        · next fewer =>
          simp only [List.map_append, told]
          rw [ih _ (size ▸ fewer) _ _ _ rfl]
        · simp only [List.map_append, told]

/-- **Circuits that echo each other** tell the same runs, up to identifiers. -/
theorem run_echoes (echoes : c.Echoes d) (inputs : List Value) (depth : Nat) :
    (c.run depth inputs).events.map Event.unnamed =
      (d.run depth inputs).events.map Event.unnamed := by
  have pool := echoes.alike.initialPool
  have count := echoes.stations.length_eq
  have results := drive_alike echoes.alike inputs depth depth 1 c.initialPool
    (List.range c.stations.length)
  have told := drive_echoes echoes inputs depth 1 c.initialPool (List.range c.stations.length)
  unfold run
  dsimp only
  rw [← pool, ← count, ← results, ← echoes.functionId]
  simp only [List.map_append, List.map_cons, told, lastEvent, echoes.functionId]

end Circuit

/-! ### Composites -/

/-- Two nodes call the same function with the same values set by hand. -/
structure Node.Resembles (a b : Node) : Prop where
  function : a.function = b.function
  values : a.values = b.values

theorem Function.echoes_callee (f : Function) : f.callee.Echoes f.callee :=
  ⟨⟨rfl, rfl, f.evaluateAt_depth⟩, rfl, fun _ _ => rfl⟩

theorem Node.Resembles.station {g : Graph Function} {a b : Node} (resembles : a.Resembles b) :
    (Station.ofNode g.callees a).Echoes (Station.ofNode g.callees b) := by
  refine ⟨resembles.values, ?_⟩
  have same : (Station.ofNode g.callees a).callee? = (Station.ofNode g.callees b).callee? := by
    unfold Station.ofNode
    rw [resembles.function]
  rw [← same]
  cases bound : (Station.ofNode g.callees a).callee? with
  | none => exact .none
  | some callee =>
    obtain ⟨h, _, rfl⟩ := mem_roster_of_callee bound
    exact .some h.echoes_callee

namespace Function

/-- Two composites have the same id, the same number of outputs, the same roster, the same wires by
index, and nodes that resemble each other in order. Their nodes may be named differently. -/
structure Renamed (f h : Function) (g k : Graph Function) : Prop where
  id : f.id = h.id
  outputCount : f.dataOutputs.length = h.dataOutputs.length
  roster : g.roster = k.roster
  nodes : List.Forall₂ Node.Resembles g.nodes k.nodes
  outputValues : g.outputValues = k.outputValues
  links : g.links = k.links

variable {f h : Function} {g k : Graph Function}

theorem Renamed.circuit (renamed : f.Renamed h g k) : (f.circuit g).Echoes (h.circuit k) := by
  have callees : g.callees = k.callees := by rw [g.callees_eq, k.callees_eq, renamed.roster]
  refine ⟨renamed.id, renamed.outputCount, renamed.links, ?_⟩
  have first : (Station.ofBoundary g.inputNode 0).Echoes (.ofBoundary k.inputNode 0) :=
    ⟨rfl, .some ⟨⟨rfl, rfl, fun _ _ _ => rfl⟩, rfl, fun _ _ => rfl⟩⟩
  have last : (Station.ofBoundary g.outputNode (f.dataOutputs.length + 1)).Echoes
      (.ofBoundary k.outputNode (h.dataOutputs.length + 1)) := by
    rw [renamed.outputCount]
    exact ⟨renamed.outputValues, .some ⟨⟨rfl, rfl, fun _ _ _ => rfl⟩, rfl, fun _ _ => rfl⟩⟩
  have inner : List.Forall₂ Station.Echoes (g.nodes.map (.ofNode g.callees))
      (k.nodes.map (.ofNode k.callees)) := by
    rw [← callees, List.forall₂_map_left_iff, List.forall₂_map_right_iff]
    exact renamed.nodes.imp fun _ _ => Node.Resembles.station
  exact List.rel_append (.cons first inner) (.cons last .nil)

/-- **A composite whose nodes are renamed runs as before** and tells the same, up to names. -/
theorem run_renamed (composite : f.body = .composite g) (other : h.body = .composite k)
    (renamed : f.Renamed h g k) (inputs : List Value) :
    (f.run inputs).result = (h.run inputs).result ∧
      (f.run inputs).events.map Event.unnamed = (h.run inputs).events.map Event.unnamed := by
  rw [run_composite composite, run_composite other, events_run composite, events_run other]
  exact ⟨Circuit.run_alike renamed.circuit.alike inputs 0 0,
    Circuit.run_echoes renamed.circuit inputs 0⟩

end Function

end FlowGraph
