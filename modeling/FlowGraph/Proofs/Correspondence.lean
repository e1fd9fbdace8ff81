/-
**Circuits that correspond.**

Some nodes of one circuit are paired with nodes of another one. The circuits correspond if paired
nodes have the same values set by hand, callees that are alike, and the same wires from paired
nodes. A node without a partner may do what it likes, as long as its evaluation does not fail:
nothing that it puts out gets to a paired node. Such nodes can prolong a run by whole passes, and
that is all they can do.

* `Aligned`: rows of nodes with the same paired members;
* `Pool.Agrees`: pools that hold the same for paired nodes;
* `Circuit.step_corresponds`, `Circuit.step_single`: the turns of paired nodes, and of a node
  without a partner;
* `Circuit.sweep_corresponds`: one pass;
* `Circuit.drive_idle`: passes in which no paired node can run come to nothing;
* `Circuit.run_corresponds`: **circuits that correspond have the same results**, and name paired
  nodes where they fail.
-/

import FlowGraph.Proofs.Alike

namespace FlowGraph

variable {pairs : Nat → Nat → Prop} {inputs others : List Value}

/-! ### Rows of nodes -/

/-- Two rows have the same paired members in the same order. Members without a partner may stand
anywhere between them. -/
inductive Aligned (pairs : Nat → Nat → Prop) : List Nat → List Nat → Prop
  | nil : Aligned pairs [] []
  | both {a b : Nat} {as bs : List Nat} (paired : pairs a b) (rest : Aligned pairs as bs) :
      Aligned pairs (a :: as) (b :: bs)
  | left {a : Nat} {as bs : List Nat} (single : ∀ b, ¬ pairs a b) (rest : Aligned pairs as bs) :
      Aligned pairs (a :: as) bs
  | right {b : Nat} {as bs : List Nat} (single : ∀ a, ¬ pairs a b) (rest : Aligned pairs as bs) :
      Aligned pairs as (b :: bs)

namespace Aligned

variable {as bs : List Nat}

theorem symm (aligned : Aligned pairs as bs) : Aligned (flip pairs) bs as := by
  induction aligned with
  | nil => exact .nil
  | both paired rest ih => exact .both paired ih
  | left single rest ih => exact .right single ih
  | right single rest ih => exact .left single ih

/-- Rows are aligned if their members are paired one by one, or have no partner on either side. -/
theorem of_forall₂ (related : List.Forall₂ (fun a b => pairs a b ∨
    ((∀ other, ¬ pairs a other) ∧ ∀ other, ¬ pairs other b)) as bs) : Aligned pairs as bs := by
  induction related with
  | nil => exact .nil
  | cons head _ ih =>
    rcases head with paired | ⟨left, right⟩
    · exact .both paired ih
    · exact .left left (.right right ih)

end Aligned

/-! ### Pools -/

/-- Two output slots hold the same: they are the same slot of paired nodes, and both runs are given
the same there if these are the Input nodes. -/
structure Place.Shared (pairs : Nat → Nat → Prop) (inputs others : List Value) (a b : Place) :
    Prop where
  node : pairs a.node b.node
  slot : a.slot = b.slot
  input : a.node = 0 → (Value.signal :: inputs)[a.slot]? = (Value.signal :: others)[b.slot]?

/-- Two pools hold the same for paired nodes: the values set by hand, and what was produced at
shared slots. -/
structure Pool.Agrees (pairs : Nat → Nat → Prop) (inputs others : List Value) (p q : Pool) :
    Prop where
  manual : ∀ {a b}, pairs a b → p.manualFeeds a = q.manualFeeds b
  produced : ∀ {a b}, Place.Shared pairs inputs others a b → p.produced? a = q.produced? b

/-- What a node puts out is not set by hand. -/
theorem Pool.manualFeeds_extend (p : Pool) (index : Nat) (outputs : List Value) (other : Nat) :
    (p ++ ofOutputs index outputs).manualFeeds other = p.manualFeeds other := by
  have none := manualFeeds_ofLog [(index, outputs)] other
  rw [ofLog, List.flatMap_singleton] at none
  rw [manualFeeds_append, none, List.append_nil]

theorem biUnique_flip (unique : Relator.BiUnique pairs) : Relator.BiUnique (flip pairs) :=
  ⟨fun _ _ _ first second => unique.2 first second, fun _ _ _ first second => unique.1 first second⟩

/-- A pairing in which both Input nodes are paired pairs them with nothing else. -/
theorem eq_zero_iff_of_pairs (unique : Relator.BiUnique pairs) (start : pairs 0 0) {a b : Nat}
    (paired : pairs a b) : a = 0 ↔ b = 0 := by
  constructor
  · rintro rfl
    exact unique.2 paired start
  · rintro rfl
    exact unique.1 paired start

theorem Place.Shared.symm (unique : Relator.BiUnique pairs) (start : pairs 0 0) {a b : Place}
    (shared : Place.Shared pairs inputs others a b) :
    Place.Shared (flip pairs) others inputs b a :=
  ⟨shared.node, shared.slot.symm, fun first =>
    (shared.input ((eq_zero_iff_of_pairs unique start shared.node).mpr first)).symm⟩

namespace Pool.Agrees

variable {p q : Pool} {a b : Nat}

theorem symm (unique : Relator.BiUnique pairs) (start : pairs 0 0)
    (agrees : Agrees pairs inputs others p q) : Agrees (flip pairs) others inputs q p where
  manual paired := (agrees.manual paired).symm
  produced shared := by
    have start' : flip pairs 0 0 := start
    exact (agrees.produced (shared.symm (biUnique_flip unique) start')).symm

/-- Nobody notices what a node without a partner puts out. -/
theorem single (agrees : Agrees pairs inputs others p q) (alone : ∀ b, ¬ pairs a b)
    (outputs : List Value) : Agrees pairs inputs others (p ++ ofOutputs a outputs) q where
  manual paired := by rw [manualFeeds_extend, agrees.manual paired]
  produced {x y} shared := by
    have other : x.node ≠ a := fun same => alone y.node (same ▸ shared.node)
    rw [produced?_append, produced?_ofOutputs, if_neg other, Option.or_none,
      agrees.produced shared]

/-- Paired nodes put out the same at shared slots. -/
theorem both (agrees : Agrees pairs inputs others p q) (unique : Relator.BiUnique pairs)
    (paired : pairs a b) {outputs results : List Value}
    (same : ∀ {x y}, Place.Shared pairs inputs others x y → x.node = a →
      outputs[x.slot]? = results[y.slot]?) :
    Agrees pairs inputs others (p ++ ofOutputs a outputs) (q ++ ofOutputs b results) where
  manual paired := by rw [manualFeeds_extend, manualFeeds_extend, agrees.manual paired]
  produced {x y} shared := by
    rw [produced?_append, produced?_append, produced?_ofOutputs, produced?_ofOutputs,
      agrees.produced shared]
    by_cases here : x.node = a
    · have there : y.node = b := unique.2 (here ▸ shared.node) paired
      rw [if_pos here, if_pos there, same shared here]
    · have elsewhere : y.node ≠ b := fun there => here (unique.1 (there ▸ shared.node) paired)
      rw [if_neg here, if_neg elsewhere]

end Pool.Agrees

/-- Two runs have come to the same for paired nodes: their pools agree, and the Output nodes have
delivered the same in this pass. -/
structure Reached.Agrees (pairs : Nat → Nat → Prop) (inputs others : List Value)
    (reached other : Reached) : Prop where
  pool : Pool.Agrees pairs inputs others reached.pool other.pool
  delivered : reached.delivered? = other.delivered?

/-! ### Circuits -/

theorem Callee.Alike.symm {a b : Callee} (alike : a.Alike b) : b.Alike a :=
  ⟨alike.anyInput.symm, alike.arity.symm, fun depth other inputs =>
    (alike.evaluate other depth inputs).symm⟩

theorem Station.Alike.symm {a b : Station} (alike : a.Alike b) : b.Alike a := by
  refine ⟨alike.values.symm, ?_⟩
  have callees := alike.callee
  generalize a.callee? = first? at callees
  generalize b.callee? = second? at callees
  cases callees with
  | none => exact .none
  | some related => exact .some related.symm

namespace Circuit

/-- The evaluation of the node at an index never fails. -/
def Calm (c : Circuit) (index : Nat) : Prop :=
  ∀ station callee, c.stations[index]? = some station → station.callee? = some callee →
    ∀ depth arguments, ∃ outputs, (callee.evaluate depth arguments).result = .ok outputs

/-- The wires that end at a node. -/
def linksTo (c : Circuit) (index : Nat) : List Link :=
  c.links.filter fun link => link.stop.node = index

/-- Two circuits, one of which runs on `inputs` and the other on `others`, correspond in their
paired nodes. -/
structure Corresponds (pairs : Nat → Nat → Prop) (inputs others : List Value) (c d : Circuit) :
    Prop where
  unique : Relator.BiUnique pairs
  start : pairs 0 0
  output : pairs c.outputIndex d.outputIndex
  outputCount : c.outputCount = d.outputCount
  rows : Aligned pairs (List.range c.stations.length) (List.range d.stations.length)
  opens : ∀ pool, ∃ station callee, c.CanRun pool 0 station callee
  opens' : ∀ pool, ∃ station callee, d.CanRun pool 0 station callee
  stations : ∀ {a b}, pairs a b → Option.Rel Station.Alike c.stations[a]? d.stations[b]?
  links : ∀ {a b}, pairs a b → a ≠ 0 → List.Forall₂ (fun link other =>
    link.stop.slot = other.stop.slot ∧ link.start.Shared pairs inputs others other.start)
      (c.linksTo a) (d.linksTo b)
  calm : ∀ {a}, (∀ b, ¬ pairs a b) → c.Calm a
  calm' : ∀ {b}, (∀ a, ¬ pairs a b) → d.Calm b

/-- Two results are the same, up to the numbers of paired nodes. -/
inductive SameResult {α : Type} (pairs : Nat → Nat → Prop) :
    Except RunError α → Except RunError α → Prop
  | ok (value : α) : SameResult pairs (.ok value) (.ok value)
  | stalled : SameResult pairs (.error ⟨none⟩) (.error ⟨none⟩)
  | failed {a b : Nat} (paired : pairs a b) :
      SameResult pairs (.error ⟨some a⟩) (.error ⟨some b⟩)

theorem Corresponds.symm {c d : Circuit} (corresponds : Corresponds pairs inputs others c d) :
    Corresponds (flip pairs) others inputs d c where
  unique := biUnique_flip corresponds.unique
  start := corresponds.start
  output := corresponds.output
  outputCount := corresponds.outputCount.symm
  rows := corresponds.rows.symm
  opens := corresponds.opens'
  opens' := corresponds.opens
  stations {a b} paired := by
    have related := corresponds.stations paired
    generalize c.stations[b]? = left? at related
    generalize d.stations[a]? = right? at related
    cases related with
    | none => exact .none
    | some alike => exact .some alike.symm
  links {a b} paired inner := by
    have inner' : b ≠ 0 := fun first => inner
      ((eq_zero_iff_of_pairs corresponds.unique corresponds.start paired).mp first)
    refine (corresponds.links paired inner').flip.imp fun link other related => ?_
    exact ⟨related.1.symm, related.2.symm corresponds.unique corresponds.start⟩
  calm := corresponds.calm'
  calm' := corresponds.calm

theorem Corresponds.agrees_symm {c d : Circuit} (corresponds : Corresponds pairs inputs others c d)
    {reached other : Reached} (agrees : Reached.Agrees pairs inputs others reached other) :
    Reached.Agrees (flip pairs) others inputs other reached :=
  ⟨agrees.pool.symm corresponds.unique corresponds.start, agrees.delivered.symm⟩

section Turns

variable {c d : Circuit} {p q : Pool} {a b : Nat}

theorem filterMap_wiredFeed? (c : Circuit) (pool : Pool) (index : Nat) :
    c.links.filterMap (wiredFeed? pool index) =
      (c.linksTo index).filterMap fun link =>
        (pool.produced? link.start).map (link.stop.slot, ·) := by
  unfold linksTo
  rw [List.filterMap_filter]
  refine List.filterMap_congr fun link _ => ?_
  simp only [wiredFeed?, decide_eq_true_eq]

/-- **Paired nodes have the same feeds.** -/
theorem Corresponds.feeds (corresponds : Corresponds pairs inputs others c d)
    (agrees : Pool.Agrees pairs inputs others p q) (paired : pairs a b) (inner : a ≠ 0) :
    c.feeds p a = d.feeds q b := by
  have wired : ∀ {links rest : List Link}, List.Forall₂ (fun link other =>
      link.stop.slot = other.stop.slot ∧ link.start.Shared pairs inputs others other.start)
        links rest →
      (links.filterMap fun link => (p.produced? link.start).map (link.stop.slot, ·)) =
        rest.filterMap fun link => (q.produced? link.start).map (link.stop.slot, ·) := by
    intro links rest related
    induction related with
    | nil => rfl
    | cons head _ ih => rw [List.filterMap_cons, List.filterMap_cons, ih, head.1,
        agrees.produced head.2]
  unfold Circuit.feeds
  rw [filterMap_wiredFeed?, filterMap_wiredFeed?, wired (corresponds.links paired inner),
    agrees.manual paired]

/-- A node that can run has a partner that can, and the two call functions that are alike. -/
theorem Corresponds.canRun (corresponds : Corresponds pairs inputs others c d)
    (agrees : Pool.Agrees pairs inputs others p q) (paired : pairs a b) (inner : a ≠ 0)
    {station : Station} {callee : Callee} (able : c.CanRun p a station callee) :
    ∃ station' callee', d.CanRun q b station' callee' ∧ callee.Alike callee' := by
  have inner' : b ≠ 0 := fun first => inner
    ((eq_zero_iff_of_pairs corresponds.unique corresponds.start paired).mpr first)
  have related := corresponds.stations paired
  rw [able.located] at related
  generalize located : d.stations[b]? = station? at related
  cases related with
  | @some _ station' alike =>
    have callees := alike.callee
    rw [able.calls] at callees
    generalize calls : station'.callee? = callee? at callees
    cases callees with
    | @some _ callee' alike =>
      have feeds := corresponds.feeds agrees paired inner
      refine ⟨station', callee', ⟨located, calls, ?_, ?_⟩, alike⟩
      · have ready := able.ready
        unfold Callee.ready at ready ⊢
        rw [← alike.anyInput, ← alike.arity, ← feeds]
        exact ready
      · have allowed := able.allowed
        unfold gated at allowed ⊢
        rw [decide_eq_false inner] at allowed
        rw [decide_eq_false inner', ← feeds]
        exact allowed

/-- Two turns come to the same for paired nodes. -/
inductive StepAgrees (pairs : Nat → Nat → Prop) (inputs others : List Value) : Step → Step → Prop
  | waits : StepAgrees pairs inputs others .waits .waits
  | runs {reached other : Reached} (agrees : Reached.Agrees pairs inputs others reached other)
      (events more : List Event) :
      StepAgrees pairs inputs others (.runs reached events) (.runs other more)
  | fails (events more : List Event) :
      StepAgrees pairs inputs others (.fails events) (.fails more)

/-- **The turns of paired nodes** come to the same. -/
theorem step_corresponds (corresponds : Corresponds pairs inputs others c d)
    {reached reached' : Reached} (agrees : Reached.Agrees pairs inputs others reached reached')
    (paired : pairs a b) (depth other : Nat) :
    StepAgrees pairs inputs others (c.step inputs depth reached a)
      (d.step others other reached' b) := by
  have zero := eq_zero_iff_of_pairs corresponds.unique corresponds.start paired
  by_cases first : a = 0
  · cases first
    cases zero.mp rfl
    obtain ⟨station, callee, able⟩ := corresponds.opens reached.pool
    obtain ⟨station', callee', able'⟩ := corresponds.opens' reached'.pool
    rw [step_of_canRun able, step_of_canRun able', if_pos rfl, if_pos rfl]
    refine .runs ?_ _ _
    exact ⟨agrees.pool.both corresponds.unique paired fun shared here => shared.input here,
      agrees.delivered⟩
  · have first' : b ≠ 0 := fun second => first (zero.mpr second)
    by_cases able : ∃ station callee, c.CanRun reached.pool a station callee
    · obtain ⟨station, callee, able⟩ := able
      obtain ⟨station', callee', able', alike⟩ :=
        corresponds.canRun agrees.pool paired first able
      have feeds := corresponds.feeds agrees.pool paired first
      rw [step_of_canRun able, step_of_canRun able', if_neg first, if_neg first']
      by_cases last : a = c.outputIndex
      · have last' : b = d.outputIndex := corresponds.unique.2 (last ▸ paired) corresponds.output
        rw [if_pos last, if_pos last', feeds]
        refine .runs ?_ _ _
        exact ⟨agrees.pool, rfl⟩
      · have inside : b ≠ d.outputIndex := fun last' =>
          last (corresponds.unique.1 (last' ▸ paired) corresponds.output)
        rw [if_neg last, if_neg inside]
        dsimp only
        rw [feeds, alike.evaluate (depth + 1) (other + 1)]
        split
        · refine .runs ?_ _ _
          exact ⟨agrees.pool.both corresponds.unique paired fun shared _ => by rw [shared.slot],
            agrees.delivered⟩
        · exact .fails _ _
    · have unable : ∀ station callee, ¬ d.CanRun reached'.pool b station callee := by
        intro station callee able'
        obtain ⟨station', callee', able'', _⟩ := corresponds.symm.canRun
          (agrees.pool.symm corresponds.unique corresponds.start) paired first' able'
        exact able ⟨station', callee', able''⟩
      rw [step_of_not_canRun fun station callee able' => able ⟨station, callee, able'⟩,
        step_of_not_canRun unable]
      exact .waits

/-- **The turn of a node without a partner** changes nothing for paired nodes. -/
theorem step_single (corresponds : Corresponds pairs inputs others c d)
    {reached reached' : Reached} (agrees : Reached.Agrees pairs inputs others reached reached')
    (alone : ∀ b, ¬ pairs a b) (depth : Nat) :
    c.step inputs depth reached a = .waits ∨
      ∃ after events, c.step inputs depth reached a = .runs after events ∧
        Reached.Agrees pairs inputs others after reached' := by
  have inside : a ≠ c.outputIndex := fun last =>
    alone d.outputIndex (last ▸ corresponds.output)
  cases turn : c.step inputs depth reached a with
  | waits => exact Or.inl rfl
  | runs after events =>
    rcases step_runs turn with ⟨outputs, _, rfl⟩ | ⟨_, last, _⟩
    · exact Or.inr ⟨_, events, rfl, agrees.pool.single alone outputs, agrees.delivered⟩
    · exact absurd last inside
  | fails events =>
    obtain ⟨_, _, station, callee, error, able, failed⟩ := step_fails turn
    obtain ⟨outputs, evaluated⟩ := corresponds.calm alone station callee able.located able.calls
      (depth + 1) ((c.feeds reached.pool a).map Prod.snd)
    rw [evaluated] at failed
    cases failed

end Turns

/-! ### Passes -/

/-- Two passes come to the same for paired nodes: paired nodes fail, or both passes go on, with
the same paired nodes pending. -/
def SweepAgrees (pairs : Nat → Nat → Prop) (inputs others : List Value) (first second : Sweep) :
    Prop :=
  (∃ a b, pairs a b ∧ first.failed? = some a ∧ second.failed? = some b) ∨
    (first.failed? = none ∧ second.failed? = none ∧
      Reached.Agrees pairs inputs others first.reached second.reached ∧
        Aligned pairs first.pending second.pending)

section Passes

variable {c d : Circuit} {p q : Pool} {as bs : List Nat}

/-- **One pass** of circuits that correspond. -/
theorem sweep_corresponds (corresponds : Corresponds pairs inputs others c d)
    {reached reached' : Reached} (agrees : Reached.Agrees pairs inputs others reached reached')
    (aligned : Aligned pairs as bs) (depth other : Nat) :
    SweepAgrees pairs inputs others (c.sweep inputs depth reached as)
      (d.sweep others other reached' bs) := by
  induction aligned generalizing reached reached' with
  | nil => exact Or.inr ⟨rfl, rfl, agrees, .nil⟩
  | @both a b as bs paired rest ih =>
    have turn := step_corresponds corresponds agrees paired depth other
    generalize left : c.step inputs depth reached a = first at turn
    generalize right : d.step others other reached' b = second at turn
    cases turn with
    | waits =>
      rw [sweep_waits left, sweep_waits right]
      exact (ih agrees).imp_right fun ⟨ends, ends', reached, aligned⟩ =>
        ⟨ends, ends', reached, .both paired aligned⟩
    | runs agrees events more =>
      rw [sweep_runs left, sweep_runs right]
      exact ih agrees
    | fails events more =>
      rw [sweep_fails left, sweep_fails right]
      exact Or.inl ⟨a, b, paired, rfl, rfl⟩
  | @left a as bs alone rest ih =>
    rcases step_single corresponds agrees alone depth with waits | ⟨after, events, runs, agrees⟩
    · rw [sweep_waits waits]
      exact (ih agrees).imp_right fun ⟨ends, ends', reached, aligned⟩ =>
        ⟨ends, ends', reached, .left alone aligned⟩
    · rw [sweep_runs runs]
      exact ih agrees
  | @right b as bs alone rest ih =>
    rcases step_single corresponds.symm (corresponds.agrees_symm agrees) alone other with
      waits | ⟨after, events, runs, agrees'⟩
    · rw [sweep_waits waits]
      exact (ih agrees).imp_right fun ⟨ends, ends', reached, aligned⟩ =>
        ⟨ends, ends', reached, .right alone aligned⟩
    · rw [sweep_runs runs]
      exact ih (corresponds.symm.agrees_symm agrees')

/-- A pass over nodes that cannot run leaves everything as it is. -/
theorem sweep_of_unable {reached : Reached}
    (unable : ∀ a ∈ as, ∀ station callee, ¬ c.CanRun reached.pool a station callee)
    (depth : Nat) : c.sweep inputs depth reached as = ⟨reached, as, [], none⟩ := by
  induction as with
  | nil => rfl
  | cons a rest ih =>
    rw [sweep_waits (step_of_not_canRun (unable a List.mem_cons_self)),
      ih fun other member => unable other (List.mem_cons_of_mem _ member)]

theorem Corresponds.accept? (corresponds : Corresponds pairs inputs others c d)
    (delivered? : Option (List Value)) : c.accept? delivered? = d.accept? delivered? := by
  cases delivered? <;> rw [Circuit.accept?, Circuit.accept?, corresponds.outputCount]

/-- **Where one circuit is stuck,** the other one gets stuck too. -/
theorem drive_idle (corresponds : Corresponds pairs inputs others c d)
    (agrees : Pool.Agrees pairs inputs others p q) (aligned : Aligned pairs as bs)
    (unable : ∀ a ∈ as, ∀ station callee, ¬ c.CanRun p a station callee)
    (refused : c.accept? none = none) (other pass : Nat) :
    (d.drive others other pass q bs).result = .error ⟨none⟩ := by
  -- The stuck circuit stays where it is, while every pass of the other leaves fewer nodes pending.
  induction size : bs.length using Nat.strong_induction_on generalizing pass q bs with
  | _ count ih =>
    have start : Reached.Agrees pairs inputs others ⟨p, none⟩ ⟨q, none⟩ := ⟨agrees, rfl⟩
    have swept := sweep_corresponds corresponds start aligned 0 other
    have still : c.sweep inputs 0 ⟨p, none⟩ as = _ := sweep_of_unable unable 0
    rw [still] at swept
    rw [drive_result]
    rcases swept with ⟨_, _, _, failed, _⟩ | ⟨_, ends, reached, aligned⟩
    · cases failed
    · dsimp only
      rw [ends, ← reached.delivered, ← corresponds.accept?, refused]
      dsimp only
      split
      · next fewer => exact ih _ (size ▸ fewer) reached.pool aligned _ rfl
      · rfl

/-- The last pass of a run that stalls. -/
theorem drive_stalled {depth : Nat}
    (ends : (c.sweep inputs depth ⟨p, none⟩ as).failed? = none)
    (refused : c.accept? (c.sweep inputs depth ⟨p, none⟩ as).reached.delivered? = none)
    (idle : as.length ≤ (c.sweep inputs depth ⟨p, none⟩ as).pending.length) (pass : Nat) :
    (c.drive inputs depth pass p as).result = .error ⟨none⟩ ∧ c.accept? none = none ∧
      ∀ a ∈ as, ∀ station callee, ¬ c.CanRun p a station callee := by
  obtain ⟨same, unable⟩ := sweep_stalled ends idle
  refine ⟨?_, ?_, unable⟩
  · rw [drive_result]
    dsimp only
    rw [ends, refused]
    exact if_neg (Nat.not_lt.mpr idle)
  · rw [same] at refused
    exact refused

/-- **The passes** of circuits that correspond. -/
theorem drive_corresponds (corresponds : Corresponds pairs inputs others c d)
    (agrees : Pool.Agrees pairs inputs others p q) (aligned : Aligned pairs as bs)
    (depth other pass : Nat) :
    SameResult pairs (c.drive inputs depth pass p as).result
      (d.drive others other pass q bs).result := by
  induction size : as.length using Nat.strong_induction_on generalizing pass p q as bs with
  | _ count ih =>
    have start : Reached.Agrees pairs inputs others ⟨p, none⟩ ⟨q, none⟩ := ⟨agrees, rfl⟩
    rcases sweep_corresponds corresponds start aligned depth other with
      ⟨a, b, paired, failed, failed'⟩ | ⟨ends, ends', reached, pending⟩
    · rw [drive_result, drive_result]
      dsimp only
      rw [failed, failed']
      exact .failed paired
    · have accept := corresponds.accept? (c.sweep inputs depth ⟨p, none⟩ as).reached.delivered?
      rw [reached.delivered] at accept
      cases accepted : d.accept? (d.sweep others other ⟨q, none⟩ bs).reached.delivered? with
      | some values =>
        rw [drive_result, drive_result]
        dsimp only
        rw [ends, ends', reached.delivered, accept, accepted]
        exact .ok _
      | none =>
        have refused : c.accept? (c.sweep inputs depth ⟨p, none⟩ as).reached.delivered? = none := by
          rw [reached.delivered, accept, accepted]
        -- As long as both runs make progress they go on together. If one of them stalls, then the
        -- paired nodes of the other cannot run either.
        by_cases progress : (c.sweep inputs depth ⟨p, none⟩ as).pending.length < as.length
        · by_cases progress' : (d.sweep others other ⟨q, none⟩ bs).pending.length < bs.length
          · rw [drive_result, drive_result]
            dsimp only
            rw [ends, ends', refused, accepted]
            dsimp only
            rw [if_pos progress, if_pos progress']
            exact ih _ (size ▸ progress) reached.pool pending _ rfl
          · obtain ⟨stalled, wanting, unable⟩ := drive_stalled ends' accepted
              (Nat.le_of_not_lt progress') pass
            rw [stalled, drive_idle corresponds.symm
              (agrees.symm corresponds.unique corresponds.start) aligned.symm unable wanting]
            exact .stalled
        · obtain ⟨stalled, wanting, unable⟩ := drive_stalled ends refused
            (Nat.le_of_not_lt progress) pass
          rw [stalled, drive_idle corresponds agrees aligned unable wanting]
          exact .stalled

/-- Before the first pass pools hold nothing but values set by hand. -/
theorem Corresponds.initialPool (corresponds : Corresponds pairs inputs others c d) :
    Pool.Agrees pairs inputs others c.initialPool d.initialPool where
  manual {a b} paired := by
    rw [manualFeeds_initialPool, manualFeeds_initialPool, valuesAt, valuesAt]
    have related := corresponds.stations paired
    generalize c.stations[a]? = left? at related
    generalize d.stations[b]? = right? at related
    cases related with
    | none => rfl
    | some alike => exact congrArg Slots.entries alike.values
  produced _ := by rw [produced?_initialPool, produced?_initialPool]

/-- **Circuits that correspond have the same results.** -/
theorem run_corresponds (corresponds : Corresponds pairs inputs others c d) (depth other : Nat) :
    SameResult pairs (c.run depth inputs).result (d.run other others).result := by
  have same := drive_corresponds corresponds corresponds.initialPool corresponds.rows depth other 1
  unfold run
  dsimp only
  generalize (c.drive inputs depth 1 c.initialPool _).result = first at same
  generalize (d.drive others other 1 d.initialPool _).result = second at same
  cases same with
  | ok value => exact .ok _
  | stalled => exact .stalled
  | failed paired => exact .failed paired

end Passes

end Circuit

end FlowGraph
