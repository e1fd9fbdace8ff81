/-
**The points of a run.**

A moment is a point of a run between the turns of two nodes. `Circuit.Comes` says which moments a
run passes through, one rule for each thing that a turn or the end of a pass can do, and
`Circuit.Ends` says how a run can end. What holds throughout runs is proved by induction over these
rules.

* `Circuit.step_waits`, `Circuit.step_runs`, `Circuit.step_fails`: all that one turn can do;
* `Circuit.sweep_stalled`: what a pass means that runs no node;
* `Circuit.Comes.perm`: at every moment the nodes are partitioned into those that ran, those that
  wait and those whose turn is still to come;
* `Circuit.Comes.delivered`: what is delivered comes from the feeds of the Output node;
* `Circuit.Comes.output`: what the Output node delivered is either at hand or was refused.
-/

import FlowGraph.Proofs.Feeds

namespace FlowGraph

/-- A point of a run. -/
structure Moment where
  /-- The number of the current pass. -/
  pass : Nat
  /-- The nodes whose turn in this pass is still to come. -/
  ahead : List Nat
  /-- The nodes that had their turn in this pass and could not run. -/
  waiting : List Nat
  /-- The nodes that ran so far, with what they put out, oldest first. -/
  log : List (Nat × List Value)
  /-- What the Output node delivered in this pass. -/
  delivered? : Option (List Value)

namespace Circuit

/-! ### One turn -/

/-- The node at an index calls a known function, has the feeds that this function needs, and the
first of its feeds is the signal. -/
structure CanRun (c : Circuit) (pool : Pool) (index : Nat) (station : Station) (callee : Callee) :
    Prop where
  located : c.stations[index]? = some station
  calls : station.callee? = some callee
  ready : callee.ready (c.feeds pool index) = true
  allowed : gated index (c.feeds pool index) = true

/-- The values that the Output node delivers. -/
def delivery (c : Circuit) (pool : Pool) : List Value :=
  ((c.feeds pool c.outputIndex).drop 1).map Prod.snd

/-- What a node other than the Output node puts out when it runs. -/
inductive Produces (c : Circuit) (inputs : List Value) (depth : Nat) (pool : Pool) :
    Nat → List Value → Prop
  | input {station : Station} {callee : Callee} (able : c.CanRun pool 0 station callee) :
      Produces c inputs depth pool 0 (.signal :: inputs)
  | node {index : Nat} {station : Station} {callee : Callee} {outputs : List Value}
      (able : c.CanRun pool index station callee) (inner : index ≠ 0)
      (inside : index ≠ c.outputIndex)
      (evaluated : (callee.evaluate (depth + 1) ((c.feeds pool index).map Prod.snd)).result =
        .ok outputs) :
      Produces c inputs depth pool index outputs

section Turn

variable {c : Circuit} {inputs : List Value} {depth : Nat} {reached after : Reached} {index : Nat}
  {events : List Event}

theorem step_of_canRun {station : Station} {callee : Callee}
    (able : c.CanRun reached.pool index station callee) :
    c.step inputs depth reached index =
      if index = 0 then
        .runs (reached.extend index (.signal :: inputs))
          [.stepStarted callee.id index station.nodeId depth]
      else if index = c.outputIndex then
        .runs { reached with
            delivered? := some (((c.feeds reached.pool index).drop 1).map Prod.snd) }
          [.stepStarted callee.id index station.nodeId depth]
      else
        let outcome := callee.evaluate (depth + 1) ((c.feeds reached.pool index).map Prod.snd)
        match outcome.result with
        | .ok outputs => .runs (reached.extend index outputs)
            (.stepStarted callee.id index station.nodeId depth :: outcome.events)
        | .error _ =>
          .fails (.stepStarted callee.id index station.nodeId depth :: outcome.events) := by
  have both : (callee.ready (c.feeds reached.pool index) &&
      gated index (c.feeds reached.pool index)) = true := by
    rw [able.ready, able.allowed]
    rfl
  unfold step
  rw [able.located]
  dsimp only
  rw [able.calls]
  exact if_pos both

theorem step_of_not_canRun
    (unable : ∀ station callee, ¬ c.CanRun reached.pool index station callee) :
    c.step inputs depth reached index = .waits := by
  unfold step
  split
  · rfl
  · next station found =>
    split
    · rfl
    · next callee known =>
      refine if_neg fun both => ?_
      obtain ⟨ready, allowed⟩ := Bool.and_eq_true_iff.mp both
      exact unable station callee ⟨found, known, ready, allowed⟩

/-- A node waits only if it cannot run. -/
theorem step_waits (waits : c.step inputs depth reached index = .waits) (station : Station)
    (callee : Callee) : ¬ c.CanRun reached.pool index station callee := by
  intro able
  rw [step_of_canRun able] at waits
  split at waits
  · cases waits
  · split at waits
    · cases waits
    · dsimp only at waits
      split at waits <;> cases waits

/-- **A node that runs** puts its outputs into the pool, or is the Output node and delivers. -/
theorem step_runs (runs : c.step inputs depth reached index = .runs after events) :
    (∃ outputs, c.Produces inputs depth reached.pool index outputs ∧
      after = reached.extend index outputs) ∨
    (index ≠ 0 ∧ index = c.outputIndex ∧
      (∃ station callee, c.CanRun reached.pool index station callee) ∧
      after = { reached with delivered? := some (c.delivery reached.pool) }) := by
  by_cases able : ∃ station callee, c.CanRun reached.pool index station callee
  · obtain ⟨station, callee, able⟩ := able
    rw [step_of_canRun able] at runs
    split at runs
    · next first =>
      cases first
      cases runs
      exact Or.inl ⟨_, .input able, rfl⟩
    · next inner =>
      split at runs
      · next last =>
        cases runs
        refine Or.inr ⟨inner, last, ⟨station, callee, able⟩, ?_⟩
        rw [delivery, last]
      · next inside =>
        dsimp only at runs
        split at runs
        · next outputs evaluated =>
          cases runs
          exact Or.inl ⟨outputs, .node able inner inside evaluated, rfl⟩
        · cases runs
  · rw [step_of_not_canRun fun station callee able' => able ⟨station, callee, able'⟩] at runs
    cases runs

/-- **A turn fails** only at a node of the user whose own evaluation fails. -/
theorem step_fails (fails : c.step inputs depth reached index = .fails events) :
    index ≠ 0 ∧ index ≠ c.outputIndex ∧ ∃ station callee error,
      c.CanRun reached.pool index station callee ∧
      (callee.evaluate (depth + 1) ((c.feeds reached.pool index).map Prod.snd)).result =
        .error error := by
  by_cases able : ∃ station callee, c.CanRun reached.pool index station callee
  · obtain ⟨station, callee, able⟩ := able
    rw [step_of_canRun able] at fails
    split at fails
    · cases fails
    · next inner =>
      split at fails
      · cases fails
      · next inside =>
        dsimp only at fails
        split at fails
        · cases fails
        · next error evaluated =>
          exact ⟨inner, inside, station, callee, error, able, evaluated⟩
  · rw [step_of_not_canRun fun station callee able' => able ⟨station, callee, able'⟩] at fails
    cases fails

end Turn

/-! ### All turns of a run -/

/-- The moments that a run passes through. -/
inductive Comes (c : Circuit) (inputs : List Value) (depth : Nat) : Moment → Prop
  | start : Comes c inputs depth ⟨1, List.range c.stations.length, [], [], none⟩
  | waits {pass index : Nat} {rest waiting : List Nat} {log : List (Nat × List Value)}
      {delivered? : Option (List Value)}
      (before : Comes c inputs depth ⟨pass, index :: rest, waiting, log, delivered?⟩)
      (unable : ∀ station callee, ¬ c.CanRun (c.poolOf log) index station callee) :
      Comes c inputs depth ⟨pass, rest, waiting ++ [index], log, delivered?⟩
  | produces {pass index : Nat} {rest waiting : List Nat} {log : List (Nat × List Value)}
      {delivered? : Option (List Value)} {outputs : List Value}
      (before : Comes c inputs depth ⟨pass, index :: rest, waiting, log, delivered?⟩)
      (produced : c.Produces inputs depth (c.poolOf log) index outputs) :
      Comes c inputs depth ⟨pass, rest, waiting, log ++ [(index, outputs)], delivered?⟩
  | delivers {pass index : Nat} {rest waiting : List Nat} {log : List (Nat × List Value)}
      {delivered? : Option (List Value)} {station : Station} {callee : Callee}
      (before : Comes c inputs depth ⟨pass, index :: rest, waiting, log, delivered?⟩)
      (inner : index ≠ 0) (last : index = c.outputIndex)
      (able : c.CanRun (c.poolOf log) index station callee) :
      Comes c inputs depth
        ⟨pass, rest, waiting, log ++ [(index, [])], some (c.delivery (c.poolOf log))⟩
  | passes {pass : Nat} {waiting : List Nat} {log : List (Nat × List Value)}
      {delivered? : Option (List Value)}
      (before : Comes c inputs depth ⟨pass, [], waiting, log, delivered?⟩)
      (refused : c.accept? delivered? = none) :
      Comes c inputs depth ⟨pass + 1, waiting, [], log, none⟩

/-- How a run can end. -/
inductive Ends (c : Circuit) (inputs : List Value) (depth : Nat) :
    Except RunError (List Value × Nat) → Prop
  | accepted {pass : Nat} {waiting : List Nat} {log : List (Nat × List Value)}
      {delivered? : Option (List Value)} {values : List Value}
      (last : c.Comes inputs depth ⟨pass, [], waiting, log, delivered?⟩)
      (accepted : c.accept? delivered? = some values) :
      Ends c inputs depth (.ok (values, pass))
  | failed {pass index : Nat} {rest waiting : List Nat} {log : List (Nat × List Value)}
      {delivered? : Option (List Value)} {station : Station} {callee : Callee} {error : RunError}
      (last : c.Comes inputs depth ⟨pass, index :: rest, waiting, log, delivered?⟩)
      (inner : index ≠ 0) (inside : index ≠ c.outputIndex)
      (able : c.CanRun (c.poolOf log) index station callee)
      (failed : (callee.evaluate (depth + 1) ((c.feeds (c.poolOf log) index).map Prod.snd)).result =
        .error error) :
      Ends c inputs depth (.error ⟨some index⟩)
  | stalled {pass : Nat} {waiting : List Nat} {log : List (Nat × List Value)}
      (last : c.Comes inputs depth ⟨pass, [], waiting, log, none⟩)
      (wanting : c.outputCount ≠ 0)
      (stuck : ∀ index ∈ waiting, ∀ station callee,
        ¬ c.CanRun (c.poolOf log) index station callee) :
      Ends c inputs depth (.error ⟨none⟩)

section Endings

variable {c : Circuit} {inputs : List Value} {depth : Nat}

theorem poolOf_extend (log : List (Nat × List Value)) (delivered? : Option (List Value))
    (index : Nat) (outputs : List Value) :
    (⟨c.poolOf log, delivered?⟩ : Reached).extend index outputs =
      ⟨c.poolOf (log ++ [(index, outputs)]), delivered?⟩ := by
  unfold Reached.extend
  rw [poolOf_concat]

/-- The Output node puts nothing out, so its turn leaves the pool as it is. -/
theorem poolOf_output (log : List (Nat × List Value)) (index : Nat) :
    c.poolOf (log ++ [(index, [])]) = c.poolOf log := by
  rw [poolOf_concat]
  exact List.append_nil _

theorem sweep_waits {reached : Reached} {index : Nat}
    (waits : c.step inputs depth reached index = .waits) (rest : List Nat) :
    c.sweep inputs depth reached (index :: rest) =
      { c.sweep inputs depth reached rest with
        pending := index :: (c.sweep inputs depth reached rest).pending } := by
  rw [sweep, waits]

theorem sweep_runs {reached after : Reached} {index : Nat} {events : List Event}
    (runs : c.step inputs depth reached index = .runs after events) (rest : List Nat) :
    c.sweep inputs depth reached (index :: rest) =
      { c.sweep inputs depth after rest with
        events := events ++ (c.sweep inputs depth after rest).events } := by
  rw [sweep, runs]

theorem sweep_fails {reached : Reached} {index : Nat} {events : List Event}
    (fails : c.step inputs depth reached index = .fails events) (rest : List Nat) :
    c.sweep inputs depth reached (index :: rest) =
      ⟨reached, index :: rest, events, some index⟩ := by
  rw [sweep, fails]

/-- A pass never makes a node pending that was not. -/
theorem sweep_sublist (c : Circuit) (inputs : List Value) (depth : Nat) (reached : Reached)
    (pending : List Nat) : (c.sweep inputs depth reached pending).pending.Sublist pending := by
  induction pending generalizing reached with
  | nil => exact List.Sublist.refl []
  | cons index rest ih =>
    cases turn : c.step inputs depth reached index with
    | waits =>
      rw [sweep_waits turn]
      exact (ih reached).cons_cons index
    | runs after events =>
      rw [sweep_runs turn]
      exact (ih after).cons index
    | fails events =>
      rw [sweep_fails turn]

/-- **A pass that runs no node** leaves everything as it is, and no pending node can run. -/
theorem sweep_stalled {reached : Reached} {pending : List Nat}
    (unfailed : (c.sweep inputs depth reached pending).failed? = none)
    (idle : pending.length ≤ (c.sweep inputs depth reached pending).pending.length) :
    (c.sweep inputs depth reached pending).reached = reached ∧
      ∀ index ∈ pending, ∀ station callee, ¬ c.CanRun reached.pool index station callee := by
  induction pending with
  | nil => exact ⟨rfl, fun _ member => absurd member List.not_mem_nil⟩
  | cons index rest ih =>
    cases turn : c.step inputs depth reached index with
    | waits =>
      rw [sweep_waits turn] at unfailed idle ⊢
      obtain ⟨same, stuck⟩ := ih unfailed (Nat.le_of_succ_le_succ idle)
      refine ⟨same, fun other member => ?_⟩
      rcases List.mem_cons.mp member with rfl | later
      · exact step_waits turn
      · exact stuck other later
    | runs after events =>
      rw [sweep_runs turn] at idle
      have fewer := (sweep_sublist c inputs depth after rest).length_le
      exact absurd (Nat.le_trans idle fewer) (Nat.not_succ_le_self _)
    | fails events =>
      rw [sweep_fails turn] at unfailed
      cases unfailed

/-- The result of the passes, without their events. -/
theorem drive_result (c : Circuit) (inputs : List Value) (depth pass : Nat) (pool : Pool)
    (pending : List Nat) :
    (c.drive inputs depth pass pool pending).result =
      let swept := c.sweep inputs depth ⟨pool, none⟩ pending
      match swept.failed? with
      | some index => .error ⟨some index⟩
      | none =>
        match c.accept? swept.reached.delivered? with
        | some values => .ok (values, pass)
        | none =>
          if swept.pending.length < pending.length then
            (c.drive inputs depth (pass + 1) swept.reached.pool swept.pending).result
          else .error ⟨none⟩ := by
  rw [drive]
  dsimp only
  cases (c.sweep inputs depth ⟨pool, none⟩ pending).failed? with
  | some index => rfl
  | none =>
    dsimp only
    cases c.accept? (c.sweep inputs depth ⟨pool, none⟩ pending).reached.delivered? with
    | some values => rfl
    | none =>
      dsimp only
      split <;> rfl

end Endings

/-! ### What holds throughout a run -/

section Invariants

variable {c : Circuit} {inputs : List Value} {depth : Nat} {m : Moment}

/-- What has been produced stays as the log grows. -/
theorem produced?_mono {earlier log : List (Nat × List Value)} (grows : earlier <+: log)
    {place : Place} {value : Value} (known : (c.poolOf earlier).produced? place = some value) :
    (c.poolOf log).produced? place = some value := by
  obtain ⟨more, rfl⟩ := grows
  rw [produced?_poolOf] at known ⊢
  rw [Pool.ofLog_append, Pool.produced?_append, known, Option.some_or]

/-- **Feeds stay as the log grows.** -/
theorem feeds_mono {earlier log : List (Nat × List Value)} (grows : earlier <+: log)
    {index slot : Nat} {value : Value}
    (known : (slot, value) ∈ c.feeds (c.poolOf earlier) index) :
    (slot, value) ∈ c.feeds (c.poolOf log) index := by
  rw [mem_feeds] at known ⊢
  rcases known with manual | ⟨link, member, stop, produced⟩
  · exact Or.inl manual
  · exact Or.inr ⟨link, member, stop, produced?_mono grows produced⟩

/-- The turn of a node moves it from the nodes ahead to those that ran. -/
theorem perm_turn (log : List (Nat × List Value)) (index : Nat) (outputs : List Value)
    (waiting rest : List Nat) :
    ((log ++ [(index, outputs)]).map Prod.fst ++ (waiting ++ rest)).Perm
      (log.map Prod.fst ++ (waiting ++ index :: rest)) := by
  rw [List.map_append, List.append_assoc]
  show (log.map Prod.fst ++ index :: (waiting ++ rest)).Perm _
  exact List.Perm.append_left _ List.perm_middle.symm

namespace Comes

/-- **At every moment the nodes are partitioned** into those that ran, those that wait and those
whose turn is still to come. -/
theorem perm (comes : c.Comes inputs depth m) :
    (m.log.map Prod.fst ++ (m.waiting ++ m.ahead)).Perm (List.range c.stations.length) := by
  induction comes with
  | start => exact List.Perm.refl _
  | waits before unable ih =>
    rw [List.append_assoc]
    exact ih
  | produces before produced ih =>
    exact (perm_turn ..).trans ih
  | delivers before inner last able ih =>
    exact (perm_turn ..).trans ih
  | passes before refused ih =>
    rw [List.append_nil] at ih
    exact ih

theorem nodup (comes : c.Comes inputs depth m) :
    (m.log.map Prod.fst ++ (m.waiting ++ m.ahead)).Nodup :=
  comes.perm.nodup_iff.mpr List.nodup_range

/-- A node whose turn is still to come has not run yet. -/
theorem not_ran_of_ahead (comes : c.Comes inputs depth m) {index : Nat}
    (member : index ∈ m.ahead) : index ∉ m.log.map Prod.fst := fun ran =>
  (List.nodup_append.mp comes.nodup).2.2 index ran index (List.mem_append_right _ member) rfl

/-- A node that is not pending has run. -/
theorem ran_of_not_pending (comes : c.Comes inputs depth m) {index : Nat}
    (inside : index < c.stations.length) (notWaiting : index ∉ m.waiting)
    (notAhead : index ∉ m.ahead) : ∃ outputs, (index, outputs) ∈ m.log := by
  have member := comes.perm.mem_iff.mpr (List.mem_range.mpr inside)
  rcases List.mem_append.mp member with ran | pending
  · obtain ⟨⟨found, outputs⟩, present, rfl⟩ := List.mem_map.mp ran
    exact ⟨outputs, present⟩
  · rcases List.mem_append.mp pending with waiting | ahead
    · exact absurd waiting notWaiting
    · exact absurd ahead notAhead

/-- What is delivered comes from the feeds of the Output node at an earlier pool. -/
theorem delivered (comes : c.Comes inputs depth m) {values : List Value}
    (delivered : m.delivered? = some values) :
    ∃ earlier, earlier <+: m.log ∧ values = c.delivery (c.poolOf earlier) ∧
      ∃ station callee, c.CanRun (c.poolOf earlier) c.outputIndex station callee := by
  induction comes with
  | start => cases delivered
  | waits before unable ih => exact ih delivered
  | produces before produced ih =>
    obtain ⟨earlier, grows, how⟩ := ih delivered
    exact ⟨earlier, grows.trans (List.prefix_append ..), how⟩
  | @delivers pass turn rest waiting log delivered? station callee before inner last able ih =>
    cases delivered
    exact ⟨log, List.prefix_append .., rfl, station, callee, last ▸ able⟩
  | passes before refused ih => cases delivered

/-- **Once the Output node has run,** what it delivered is at hand or was refused. -/
theorem output (comes : c.Comes inputs depth m) (inner : c.outputIndex ≠ 0)
    (ran : c.outputIndex ∈ m.log.map Prod.fst) :
    ∃ earlier, (∃ station callee, c.CanRun (c.poolOf earlier) c.outputIndex station callee) ∧
      (m.delivered? = some (c.delivery (c.poolOf earlier)) ∨
        c.accept? (some (c.delivery (c.poolOf earlier))) = none) := by
  induction comes with
  | start => exact absurd ran List.not_mem_nil
  | waits before unable ih => exact ih ran
  | @produces pass turn rest waiting log delivered? made before produced ih =>
    rw [List.map_append] at ran
    rcases List.mem_append.mp ran with old | new
    · exact ih old
    · have same := List.mem_singleton.mp new
      cases produced with
      | input able => exact absurd same inner
      | node able _ inside evaluated => exact absurd same.symm inside
  | @delivers pass turn rest waiting log delivered? station callee before _ last able ih =>
    exact ⟨log, ⟨station, callee, last ▸ able⟩, Or.inl rfl⟩
  | passes before refused ih =>
    obtain ⟨earlier, able, atHand | gone⟩ := ih ran
    · dsimp only at atHand
      rw [atHand] at refused
      exact ⟨earlier, able, Or.inr refused⟩
    · exact ⟨earlier, able, Or.inr gone⟩

end Comes

end Invariants

end Circuit

end FlowGraph
