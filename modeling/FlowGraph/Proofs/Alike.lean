/-
**Circuits that run alike.**

Two circuits are alike if they have the same wires, the same values set by hand and callees that
need the same inputs and give the same results. Identifiers, names and events may differ.

* `Circuit.step_alike`: one turn;
* `Circuit.sweep_alike`: one pass;
* `Circuit.run_alike`: **circuits that are alike have the same results**, at any depths of nesting.
-/

import FlowGraph.Proofs.Moments

namespace FlowGraph

/-- Two callees need the same inputs and give the same results. -/
structure Callee.Alike (a b : Callee) : Prop where
  anyInput : a.anyInput = b.anyInput
  arity : a.arity = b.arity
  evaluate : ∀ depth other inputs,
    (a.evaluate depth inputs).result = (b.evaluate other inputs).result

/-- Two nodes have the same values set by hand and callees that are alike. -/
structure Station.Alike (a b : Station) : Prop where
  values : a.values = b.values
  callee : Option.Rel Callee.Alike a.callee? b.callee?

/-- Two turns come to the same, their events apart. -/
inductive Step.Alike : Step → Step → Prop
  | waits : Step.Alike .waits .waits
  | runs (reached : Reached) (events others : List Event) :
      Step.Alike (.runs reached events) (.runs reached others)
  | fails (events others : List Event) : Step.Alike (.fails events) (.fails others)

theorem rel_getElem? {α β : Type} {R : α → β → Prop} {as : List α} {bs : List β}
    (related : List.Forall₂ R as bs) (index : Nat) : Option.Rel R as[index]? bs[index]? := by
  induction related generalizing index with
  | nil => exact .none
  | cons head _ ih =>
    cases index with
    | zero => exact .some head
    | succ index => exact ih index

namespace Circuit

/-- Two circuits have the same wires and nodes that are alike. -/
structure Alike (c d : Circuit) : Prop where
  outputCount : c.outputCount = d.outputCount
  links : c.links = d.links
  stations : List.Forall₂ Station.Alike c.stations d.stations

variable {c d : Circuit}

namespace Alike

theorem outputIndex (alike : c.Alike d) : c.outputIndex = d.outputIndex := by
  unfold Circuit.outputIndex
  rw [alike.stations.length_eq]

theorem feeds (alike : c.Alike d) (pool : Pool) (index : Nat) :
    c.feeds pool index = d.feeds pool index := by
  unfold Circuit.feeds
  rw [alike.links]

theorem accept? (alike : c.Alike d) (delivered? : Option (List Value)) :
    c.accept? delivered? = d.accept? delivered? := by
  cases delivered? with
  | none => rw [Circuit.accept?, Circuit.accept?, alike.outputCount]
  | some values => rw [Circuit.accept?, Circuit.accept?, alike.outputCount]

theorem initialPool (alike : c.Alike d) : c.initialPool = d.initialPool := by
  have general : ∀ {as bs : List Station}, List.Forall₂ Station.Alike as bs → ∀ first : Nat,
      ((as.zipIdx first).flatMap fun row => Pool.ofSlots row.2 row.1.values) =
        (bs.zipIdx first).flatMap fun row => Pool.ofSlots row.2 row.1.values := by
    intro as bs related
    induction related with
    | nil => exact fun _ => rfl
    | cons head _ ih =>
      intro first
      rw [List.zipIdx_cons, List.zipIdx_cons, List.flatMap_cons, List.flatMap_cons, ih, head.values]
  exact general alike.stations 0

theorem station (alike : c.Alike d) (index : Nat) :
    Option.Rel Station.Alike c.stations[index]? d.stations[index]? :=
  rel_getElem? alike.stations index

end Alike

/-- **One turn** of circuits that are alike. -/
theorem step_alike (alike : c.Alike d) (inputs : List Value) (depth other : Nat)
    (reached : Reached) (index : Nat) :
    (c.step inputs depth reached index).Alike (d.step inputs other reached index) := by
  unfold step
  rw [← alike.feeds, ← alike.outputIndex]
  have stations := alike.station index
  generalize c.stations[index]? = left? at stations
  generalize d.stations[index]? = right? at stations
  cases stations with
  | none => exact .waits
  | @some left right stations =>
    have callees := stations.callee
    dsimp only
    generalize left.callee? = first? at callees
    generalize right.callee? = second? at callees
    cases callees with
    | none => exact .waits
    | @some first second callees =>
      have same : first.ready (c.feeds reached.pool index) =
          second.ready (c.feeds reached.pool index) := by
        unfold Callee.ready
        rw [callees.anyInput, callees.arity]
      dsimp only
      rw [same]
      split
      · split
        · exact .runs _ _ _
        · split
          · exact .runs _ _ _
          · rw [callees.evaluate (depth + 1) (other + 1)]
            split
            · exact .runs _ _ _
            · exact .fails _ _
      · exact .waits

/-- **One pass** of circuits that are alike. -/
theorem sweep_alike (alike : c.Alike d) (inputs : List Value) (depth other : Nat)
    (reached : Reached) (pending : List Nat) :
    let first := c.sweep inputs depth reached pending
    let second := d.sweep inputs other reached pending
    first.reached = second.reached ∧ first.pending = second.pending ∧
      first.failed? = second.failed? := by
  induction pending generalizing reached with
  | nil => exact ⟨rfl, rfl, rfl⟩
  | cons index rest ih =>
    have turn := step_alike alike inputs depth other reached index
    dsimp only
    rw [sweep, sweep]
    generalize c.step inputs depth reached index = left at turn
    generalize d.step inputs other reached index = right at turn
    cases turn with
    | waits =>
      obtain ⟨sameReached, samePending, sameFailed⟩ := ih reached
      exact ⟨sameReached, congrArg (index :: ·) samePending, sameFailed⟩
    | runs after events others => exact ih after
    | fails events others => exact ⟨rfl, rfl, rfl⟩

theorem drive_alike (alike : c.Alike d) (inputs : List Value) (depth other pass : Nat)
    (pool : Pool) (pending : List Nat) :
    (c.drive inputs depth pass pool pending).result =
      (d.drive inputs other pass pool pending).result := by
  induction size : pending.length using Nat.strong_induction_on generalizing pass pool pending with
  | _ count ih =>
    obtain ⟨sameReached, samePending, sameFailed⟩ :=
      sweep_alike alike inputs depth other ⟨pool, none⟩ pending
    rw [drive_result c, drive_result d]
    dsimp only
    rw [← sameReached, ← samePending, ← sameFailed, ← alike.accept?]
    split
    · rfl
    · split
      · rfl
      · split
        · next fewer => exact ih _ (size ▸ fewer) _ _ _ rfl
        · rfl

/-- **Circuits that are alike have the same results.** -/
theorem run_alike (alike : c.Alike d) (inputs : List Value) (depth other : Nat) :
    (c.run depth inputs).result = (d.run other inputs).result := by
  unfold run
  dsimp only
  rw [drive_alike alike inputs depth other, alike.initialPool, alike.stations.length_eq]

end Circuit

end FlowGraph
