/-
**The pool throughout a run.**

A run goes from point to point: the turn of a node, or the end of a pass, leads from one point to
the next. Where a moment has a log, and its pool is that of the log by definition, a point has the
pool that the turns of the run itself have reached, and beside it the nodes that ran, each with what
it put out. The pool at a point then holds the values set by hand and, in the slots of each node
that ran, what this node put out, and nothing else. Hence what a wire delivers never changes once it
is there, and the feeds of a node only grow.

* `Circuit.advance`: one turn of a node or the end of a pass, as the passes of a run do it;
* `Circuit.drive_leads`: **the points of a run lead to its end**, with its result and its events;
* `Circuit.advance_moves`: all that one step can do to the pool and to the pending nodes;
* `Circuit.sound_advance`, `Circuit.sound_of_leads`: one step and all steps keep the nodes
  partitioned and the pool that of the nodes that ran;
* `Circuit.grows_of_ran`: what more nodes that ran mean for wires and feeds;
* `Function.evaluateAt_pools`: **what every point of every run of a composite has in its pool.**
-/

import FlowGraph.Proofs.CleanReport

namespace FlowGraph

/-- A point of a run. -/
structure Point where
  /-- The number of the current pass. -/
  pass : Nat
  /-- The pool, and what the Output node delivered in this pass. -/
  reached : Reached
  /-- The nodes whose turn in this pass is still to come. -/
  ahead : List Nat
  /-- The nodes that had their turn in this pass and could not run. -/
  waiting : List Nat
  /-- Whether a node ran in this pass. -/
  progressed : Bool
  /-- The nodes that ran so far, with what they put out, oldest first. -/
  ran : List (Nat × List Value)
  /-- The events told so far. -/
  events : List Event

/-- The nodes that have not run. -/
def Point.pending (p : Point) : List Nat :=
  p.waiting ++ p.ahead

/-! ### Lists of feeds -/

/-- What a partial function gives is a part of what one gives that is defined more often. -/
theorem filterMap_sublist {α β : Type} {first second : α → Option β}
    (stays : ∀ a b, first a = some b → second a = some b) (things : List α) :
    (things.filterMap first).Sublist (things.filterMap second) := by
  induction things with
  | nil => exact List.Sublist.slnil
  | cons a rest ih =>
    cases known : first a with
    | none =>
      rw [List.filterMap_cons_none known]
      cases later : second a with
      | none => rwa [List.filterMap_cons_none later]
      | some b =>
        rw [List.filterMap_cons_some later]
        exact ih.cons b
    | some b =>
      rw [List.filterMap_cons_some known, List.filterMap_cons_some (stays a b known)]
      exact ih.cons_cons b

theorem Feed.bySlot_cons (feed : Feed) (feeds : List Feed) :
    bySlot (feed :: feeds) =
      (bySlot feeds).orderedInsert (fun a b => decide (a.1 ≤ b.1)) feed :=
  insertBefore_eq feed (bySlot feeds)

/-- Ordering more feeds by slot leaves the feeds in their order. -/
theorem Feed.bySlot_sublist {feeds more : List Feed} (part : feeds.Sublist more) :
    (bySlot feeds).Sublist (bySlot more) := by
  have transitive : IsTrans Feed fun a b => decide (a.1 ≤ b.1) = true :=
    ⟨fun a b c first second =>
      decide_eq_true (Nat.le_trans (of_decide_eq_true first) (of_decide_eq_true second))⟩
  induction part with
  | slnil => exact List.Sublist.slnil
  | cons feed part ih =>
    rw [bySlot_cons]
    exact ih.trans (List.sublist_orderedInsert feed _)
  | @cons_cons feeds more feed part ih =>
    rw [bySlot_cons, bySlot_cons]
    exact ih.orderedInsert_sublist feed ((bySlot_sorted more).imp decide_eq_true)

/-! ### Parts of a pool -/

namespace Pool

/-- The values set by hand. -/
def manual (pool : Pool) : Pool :=
  pool.filter fun datum => match datum.origin with
    | .manual _ => true
    | .produced _ => false

/-- The values that the node at an index has produced. -/
def producedBy (pool : Pool) (index : Nat) : Pool :=
  pool.filter fun datum => match datum.origin with
    | .manual _ => false
    | .produced place => place.node = index

theorem manual_append (pool later : Pool) : (pool ++ later).manual = pool.manual ++ later.manual :=
  List.filter_append ..

theorem producedBy_append (pool later : Pool) (index : Nat) :
    (pool ++ later).producedBy index = pool.producedBy index ++ later.producedBy index :=
  List.filter_append ..

theorem producedBy_ofOutputs (owner : Nat) (outputs : List Value) (index : Nat) :
    (ofOutputs owner outputs).producedBy index =
      if owner = index then ofOutputs owner outputs else [] := by
  unfold producedBy ofOutputs
  split
  · next own =>
    refine List.filter_eq_self.mpr fun datum member => ?_
    obtain ⟨output, _, rfl⟩ := List.mem_map.mp member
    exact decide_eq_true own
  · next other =>
    refine List.filter_eq_nil_iff.mpr fun datum member => ?_
    obtain ⟨output, _, rfl⟩ := List.mem_map.mp member
    exact fun own => other (of_decide_eq_true own)

theorem manual_ofLog (log : List (Nat × List Value)) : (ofLog log).manual = [] := by
  refine List.filter_eq_nil_iff.mpr fun datum member => ?_
  obtain ⟨entry, _, inside⟩ := List.mem_flatMap.mp member
  obtain ⟨output, _, rfl⟩ := List.mem_map.mp inside
  exact Bool.false_ne_true

/-- A node that did not run has produced nothing. -/
theorem producedBy_ofLog_of_notMem {log : List (Nat × List Value)} {index : Nat}
    (absent : index ∉ log.map Prod.fst) : (ofLog log).producedBy index = [] := by
  refine List.filter_eq_nil_iff.mpr fun datum member own => absent ?_
  obtain ⟨entry, present, inside⟩ := List.mem_flatMap.mp member
  obtain ⟨output, _, rfl⟩ := List.mem_map.mp inside
  exact List.mem_map.mpr ⟨entry, present, of_decide_eq_true own⟩

/-- **A node that ran once has produced what it put out.** -/
theorem producedBy_ofLog {log : List (Nat × List Value)} (once : (log.map Prod.fst).Nodup)
    {index : Nat} {outputs : List Value} (member : (index, outputs) ∈ log) :
    (ofLog log).producedBy index = ofOutputs index outputs := by
  induction log with
  | nil => exact absurd member List.not_mem_nil
  | cons entry rest ih =>
    obtain ⟨notLater, onceRest⟩ := List.nodup_cons.mp once
    have split : ofLog (entry :: rest) = ofOutputs entry.1 entry.2 ++ ofLog rest := rfl
    rw [split, producedBy_append, producedBy_ofOutputs]
    rcases List.mem_cons.mp member with rfl | later
    · rw [if_pos rfl, producedBy_ofLog_of_notMem notLater, List.append_nil]
    · have other : entry.1 ≠ index := fun same =>
        notLater (same ▸ List.mem_map.mpr ⟨_, later, rfl⟩)
      rw [if_neg other, List.nil_append]
      exact ih onceRest later

/-- The outputs of a node stand in distinct slots. -/
theorem nodup_ofOutputs (index : Nat) (outputs : List Value) :
    ((ofOutputs index outputs).map Datum.origin).Nodup := by
  have slots : (ofOutputs index outputs).map Datum.origin =
      (List.range' 0 outputs.length).map fun slot => .produced ⟨index, slot⟩ := by
    rw [ofOutputs, List.map_map, ← List.zipIdx_map_snd, List.map_map]
    rfl
  rw [slots]
  refine List.Nodup.map (fun first second same => ?_) List.nodup_range'
  cases same
  rfl

theorem countP_le_producedBy (pool : Pool) (place : Place) :
    (pool.countP fun datum => datum.origin = .produced place) ≤
      ((pool.producedBy place.node).map Datum.origin).count (.produced place) := by
  rw [List.count_eq_countP, List.countP_map, producedBy, List.countP_filter]
  refine List.countP_mono_left fun datum _ here => ?_
  have origin := of_decide_eq_true here
  simp [origin]

end Pool

namespace Circuit

/-! ### The points of a run -/

/-- What a node puts out when it runs: the Output node delivers and puts out nothing. -/
def outputsAt (c : Circuit) (inputs : List Value) (depth : Nat) (pool : Pool) (index : Nat) :
    List Value :=
  if index = 0 then .signal :: inputs
  else if index = c.outputIndex then []
  else
    match (c.stations[index]?).bind Station.callee? with
    | none => []
    | some callee =>
      match (callee.evaluate (depth + 1) ((c.feeds pool index).map Prod.snd)).result with
      | .ok outputs => outputs
      | .error _ => []

/-- The point at which a run begins. -/
def opening (c : Circuit) : Point :=
  ⟨1, ⟨c.initialPool, none⟩, List.range c.stations.length, [], false, [], []⟩

/-- The point that follows, or the end of the run: the next node has its turn, or a pass is over. -/
def advance (c : Circuit) (inputs : List Value) (depth : Nat) (p : Point) : Ending ⊕ Point :=
  match p.ahead with
  | index :: rest =>
    match c.step inputs depth p.reached index with
    | .waits => .inr { p with ahead := rest, waiting := p.waiting ++ [index] }
    | .runs after events =>
      .inr ⟨p.pass, after, rest, p.waiting, true,
        p.ran ++ [(index, c.outputsAt inputs depth p.reached.pool index)], p.events ++ events⟩
    | .fails events => .inl ⟨.error ⟨some index⟩, p.events ++ events⟩
  | [] =>
    let events := p.events ++ [.passCompleted c.functionId p.pass p.progressed depth]
    match c.accept? p.reached.delivered? with
    | some values => .inl ⟨.ok (values, p.pass), events⟩
    | none =>
      if p.progressed then
        .inr ⟨p.pass + 1, ⟨p.reached.pool, none⟩, p.waiting, [], false, p.ran, events⟩
      else .inl ⟨.error ⟨none⟩, events⟩

/-- One point leads to another one of the same run, or is the same. -/
def Leads (c : Circuit) (inputs : List Value) (depth : Nat) : Point → Point → Prop :=
  Relation.ReflTransGen fun p q => c.advance inputs depth p = .inr q

section Points

variable {c : Circuit} {inputs : List Value} {depth : Nat}

/-- **A pass leads to its end**, or to the node at which it fails. -/
theorem sweep_leads (c : Circuit) (inputs : List Value) (depth : Nat) (p : Point) :
    let swept := c.sweep inputs depth p.reached p.ahead
    (swept.failed? = none → ∃ ran, c.Leads inputs depth p
      ⟨p.pass, swept.reached, [], p.waiting ++ swept.pending,
        p.progressed || decide (swept.pending.length < p.ahead.length), ran,
        p.events ++ swept.events⟩) ∧
    ∀ index, swept.failed? = some index → ∃ last, c.Leads inputs depth p last ∧
      c.advance inputs depth last = .inl ⟨.error ⟨some index⟩, p.events ++ swept.events⟩ := by
  obtain ⟨pass, reached, ahead, waiting, progressed, ran, told⟩ := p
  dsimp only
  induction ahead generalizing reached waiting progressed ran told with
  | nil =>
    refine ⟨fun _ => ⟨ran, ?_⟩, fun index failed => absurd failed.symm (Option.some_ne_none index)⟩
    simp only [sweep, List.append_nil, List.length_nil, Nat.lt_irrefl, decide_false, Bool.or_false]
    exact .refl
  | cons index rest ih =>
    cases turn : c.step inputs depth reached index with
    | waits =>
      have first : c.advance inputs depth ⟨pass, reached, index :: rest, waiting, progressed, ran,
          told⟩ = .inr ⟨pass, reached, rest, waiting ++ [index], progressed, ran, told⟩ := by
        simp only [advance, turn]
      obtain ⟨goesOn, fails⟩ := ih reached (waiting ++ [index]) progressed ran told
      rw [sweep_waits turn]
      refine ⟨fun unfailed => ?_, fun failing failed => ?_⟩
      · obtain ⟨later, leads⟩ := goesOn unfailed
        rw [List.append_assoc, List.singleton_append] at leads
        simp only [List.length_cons, Nat.add_lt_add_iff_right]
        exact ⟨later, .head first leads⟩
      · obtain ⟨last, leads, ends⟩ := fails failing failed
        exact ⟨last, .head first leads, ends⟩
    | runs after events =>
      have first : c.advance inputs depth ⟨pass, reached, index :: rest, waiting, progressed, ran,
          told⟩ = .inr ⟨pass, after, rest, waiting, true,
            ran ++ [(index, c.outputsAt inputs depth reached.pool index)], told ++ events⟩ := by
        simp only [advance, turn]
      obtain ⟨goesOn, fails⟩ := ih after waiting true
        (ran ++ [(index, c.outputsAt inputs depth reached.pool index)]) (told ++ events)
      have fewer := (sweep_sublist c inputs depth after rest).length_le
      rw [sweep_runs turn]
      refine ⟨fun unfailed => ?_, fun failing failed => ?_⟩
      · obtain ⟨later, leads⟩ := goesOn unfailed
        rw [Bool.true_or, List.append_assoc] at leads
        rw [List.length_cons, decide_eq_true (Nat.lt_succ_of_le fewer), Bool.or_true]
        exact ⟨later, .head first leads⟩
      · obtain ⟨last, leads, ends⟩ := fails failing failed
        rw [List.append_assoc] at ends
        exact ⟨last, .head first leads, ends⟩
    | fails events =>
      rw [sweep_fails turn]
      refine ⟨fun unfailed => absurd unfailed (Option.some_ne_none index), fun failing failed => ?_⟩
      cases failed
      refine ⟨_, .refl, ?_⟩
      simp only [advance, turn]

/-- **The points of a run lead to its end**, with the same result and the same events. -/
theorem drive_leads (c : Circuit) (inputs : List Value) (depth pass : Nat) (pool : Pool)
    (pending : List Nat) (ran : List (Nat × List Value)) (told : List Event) :
    ∃ last, c.Leads inputs depth ⟨pass, ⟨pool, none⟩, pending, [], false, ran, told⟩ last ∧
      c.advance inputs depth last = .inl ⟨(c.drive inputs depth pass pool pending).result,
        told ++ (c.drive inputs depth pass pool pending).events⟩ := by
  -- Every pass but the last leaves fewer nodes pending.
  induction size : pending.length using Nat.strong_induction_on
    generalizing pass pool pending ran told with
  | _ bound ih =>
    obtain ⟨goesOn, fails⟩ :=
      sweep_leads c inputs depth ⟨pass, ⟨pool, none⟩, pending, [], false, ran, told⟩
    dsimp only at goesOn fails
    rw [drive]
    dsimp only
    generalize c.sweep inputs depth ⟨pool, none⟩ pending = swept at goesOn fails ⊢
    cases failed : swept.failed? with
    | some index => exact fails index failed
    | none =>
      obtain ⟨later, leads⟩ := goesOn failed
      rw [Bool.false_or, List.nil_append] at leads
      dsimp only
      cases accepted : c.accept? swept.reached.delivered? with
      | some values =>
        refine ⟨_, leads, ?_⟩
        simp only [advance, accepted, List.append_assoc]
      | none =>
        dsimp only
        split
        · next fewer =>
          rw [decide_eq_true fewer] at leads
          obtain ⟨last, further, ends⟩ :=
            ih _ (size ▸ fewer) (pass + 1) swept.reached.pool swept.pending later
              (told ++ swept.events ++ [.passCompleted c.functionId pass true depth]) rfl
          refine ⟨last, leads.trans (.head ?_ further), ?_⟩
          · simp only [advance, accepted, if_true]
          · rw [ends]
            simp only [fewer, decide_true, List.append_assoc]
        · next idle =>
          rw [decide_eq_false idle] at leads
          refine ⟨_, leads, ?_⟩
          simp only [advance, accepted, idle, decide_false, Bool.false_eq_true, if_false,
            List.append_assoc]

/-! ### One step -/

/-- What the node at an index puts out when it runs: the Output node puts out nothing. -/
def PutsOut (c : Circuit) (inputs : List Value) (depth : Nat) (pool : Pool) (index : Nat)
    (outputs : List Value) : Prop :=
  c.Produces inputs depth pool index outputs ∨
    (index ≠ 0 ∧ index = c.outputIndex ∧ outputs = [])

theorem outputsAt_of_produces {pool : Pool} {index : Nat} {outputs : List Value}
    (produced : c.Produces inputs depth pool index outputs) :
    c.outputsAt inputs depth pool index = outputs := by
  unfold outputsAt
  cases produced with
  | input able => exact if_pos rfl
  | node able inner inside evaluated =>
    rw [if_neg inner, if_neg inside, able.located, Option.bind_some, able.calls]
    dsimp only
    rw [evaluated]

/-- **A node that runs** puts its outputs at the end of the pool. -/
theorem putsOut_of_runs {reached after : Reached} {index : Nat} {events : List Event}
    (runs : c.step inputs depth reached index = .runs after events) :
    c.PutsOut inputs depth reached.pool index (c.outputsAt inputs depth reached.pool index) ∧
      after.pool =
        reached.pool ++ Pool.ofOutputs index (c.outputsAt inputs depth reached.pool index) := by
  rcases step_runs runs with ⟨outputs, produced, rfl⟩ | ⟨inner, last, _, rfl⟩
  · rw [outputsAt_of_produces produced]
    exact ⟨Or.inl produced, rfl⟩
  · have nothing : c.outputsAt inputs depth reached.pool index = [] := by
      rw [outputsAt, if_neg inner, if_pos last]
    rw [nothing]
    exact ⟨Or.inr ⟨inner, last, rfl⟩, (List.append_nil _).symm⟩

/-- **All that one step can do:** it leaves the pool and the pending nodes as they are, or the node
whose turn it is moves from the pending nodes to those that ran and puts its outputs at the end of
the pool. -/
theorem advance_moves {p q : Point} (next : c.advance inputs depth p = .inr q) :
    (q.ran = p.ran ∧ q.reached.pool = p.reached.pool ∧ q.pending = p.pending) ∨
      ∃ index outputs, p.ahead.head? = some index ∧
        c.PutsOut inputs depth p.reached.pool index outputs ∧
        q.ran = p.ran ++ [(index, outputs)] ∧
        q.reached.pool = p.reached.pool ++ Pool.ofOutputs index outputs ∧
        p.pending.Perm (index :: q.pending) := by
  obtain ⟨pass, reached, ahead, waiting, progressed, ran, told⟩ := p
  cases ahead with
  | cons index rest =>
    unfold advance at next
    dsimp only at next
    cases turn : c.step inputs depth reached index with
    | waits =>
      rw [turn] at next
      cases next
      refine Or.inl ⟨rfl, rfl, ?_⟩
      show (waiting ++ [index]) ++ rest = waiting ++ index :: rest
      rw [List.append_assoc, List.singleton_append]
    | runs after events =>
      rw [turn] at next
      cases next
      obtain ⟨made, grown⟩ := putsOut_of_runs turn
      exact Or.inr ⟨index, _, rfl, made, rfl, grown, List.perm_middle⟩
    | fails events =>
      rw [turn] at next
      cases next
  | nil =>
    unfold advance at next
    dsimp only at next
    split at next
    · cases next
    · split at next
      · cases next
        exact Or.inl ⟨rfl, rfl, (List.append_nil waiting).symm⟩
      · cases next

/-! ### All steps of a run -/

/-- The nodes are partitioned into those that ran and those that are pending, and the pool is that
of the nodes that ran. -/
structure Sound (c : Circuit) (p : Point) : Prop where
  partition : (p.ran.map Prod.fst ++ p.pending).Perm (List.range c.stations.length)
  pool : p.reached.pool = c.poolOf p.ran

theorem sound_opening (c : Circuit) : c.Sound c.opening :=
  ⟨List.Perm.refl _, (poolOf_nil c).symm⟩

/-- **One step keeps a point sound.** -/
theorem sound_advance {p q : Point} (sound : c.Sound p) (next : c.advance inputs depth p = .inr q) :
    c.Sound q := by
  rcases advance_moves next with ⟨ran, pool, pending⟩ | ⟨index, outputs, _, _, ran, pool, pending⟩
  · exact ⟨by rw [ran, pending]; exact sound.partition, by rw [ran, pool]; exact sound.pool⟩
  · refine ⟨?_, ?_⟩
    · rw [ran, List.map_append, List.append_assoc]
      exact (pending.symm.append_left _).trans sound.partition
    · rw [ran, pool, sound.pool, poolOf_concat]

/-- **Every point of a run is sound.** -/
theorem sound_of_leads {p q : Point} (sound : c.Sound p) (leads : c.Leads inputs depth p q) :
    c.Sound q := by
  induction leads with
  | refl => exact sound
  | tail _ next ih => exact sound_advance ih next

/-- Nodes that ran stay so. -/
theorem ran_of_leads {p q : Point} (leads : c.Leads inputs depth p q) : p.ran <+: q.ran := by
  induction leads with
  | refl => exact List.prefix_rfl
  | tail _ next ih =>
    rcases advance_moves next with ⟨ran, _⟩ | ⟨index, outputs, _, _, ran, _⟩
    · rw [ran]
      exact ih
    · rw [ran]
      exact ih.trans (List.prefix_append ..)

/-- Between two points of a run the node at an index had its turn and put its outputs out. -/
def HadTurn (c : Circuit) (inputs : List Value) (depth : Nat) (start finish : Point) (index : Nat)
    (outputs : List Value) : Prop :=
  ∃ before, c.Leads inputs depth start before ∧ c.Leads inputs depth before finish ∧
    before.ahead.head? = some index ∧ c.PutsOut inputs depth before.reached.pool index outputs

theorem HadTurn.advance {start p q : Point} {index : Nat} {outputs : List Value}
    (had : c.HadTurn inputs depth start p index outputs)
    (next : c.advance inputs depth p = .inr q) : c.HadTurn inputs depth start q index outputs := by
  obtain ⟨before, reachable, further, turn⟩ := had
  exact ⟨before, reachable, further.tail next, turn⟩

/-- **Every node that ran had its turn** at an earlier point of the run. -/
theorem hadTurn_of_ran {start q : Point} (leads : c.Leads inputs depth start q)
    (fresh : start.ran = []) {index : Nat} {outputs : List Value}
    (member : (index, outputs) ∈ q.ran) : c.HadTurn inputs depth start q index outputs := by
  induction leads with
  | refl =>
    rw [fresh] at member
    exact absurd member List.not_mem_nil
  | @tail p q leads next ih =>
    rcases advance_moves next with ⟨ran, _⟩ | ⟨turn, made, ahead, puts, ran, _⟩
    · exact (ih (ran ▸ member)).advance next
    · rw [ran] at member
      rcases List.mem_append.mp member with old | new
      · exact (ih old).advance next
      · cases List.mem_singleton.mp new
        exact ⟨p, leads, .single next, ahead, puts⟩

/-! ### The pool of a sound point -/

/-- Before the first pass all values of the pool are set by hand. -/
theorem manual_initialPool (c : Circuit) : c.initialPool.manual = c.initialPool := by
  refine List.filter_eq_self.mpr fun datum member => ?_
  obtain ⟨row, _, inside⟩ := List.mem_flatMap.mp member
  obtain ⟨entry, _, rfl⟩ := List.mem_map.mp inside
  rfl

theorem producedBy_initialPool (c : Circuit) (index : Nat) :
    c.initialPool.producedBy index = [] := by
  refine List.filter_eq_nil_iff.mpr fun datum member => ?_
  obtain ⟨row, _, inside⟩ := List.mem_flatMap.mp member
  obtain ⟨entry, _, rfl⟩ := List.mem_map.mp inside
  exact Bool.false_ne_true

theorem producedBy_poolOf (c : Circuit) (log : List (Nat × List Value)) (index : Nat) :
    (c.poolOf log).producedBy index = (Pool.ofLog log).producedBy index := by
  rw [poolOf, Pool.producedBy_append, producedBy_initialPool, List.nil_append]

namespace Sound

variable {p : Point}

theorem nodup (sound : c.Sound p) : (p.ran.map Prod.fst ++ p.pending).Nodup :=
  sound.partition.nodup_iff.mpr List.nodup_range

theorem once (sound : c.Sound p) : (p.ran.map Prod.fst).Nodup :=
  sound.nodup.of_append_left

theorem manual (sound : c.Sound p) : p.reached.pool.manual = c.initialPool := by
  rw [sound.pool, poolOf, Pool.manual_append, manual_initialPool, Pool.manual_ofLog,
    List.append_nil]

theorem present (sound : c.Sound p) {index : Nat} {outputs : List Value}
    (member : (index, outputs) ∈ p.ran) :
    p.reached.pool.producedBy index = Pool.ofOutputs index outputs := by
  rw [sound.pool, producedBy_poolOf]
  exact Pool.producedBy_ofLog sound.once member

theorem absent (sound : c.Sound p) {index : Nat} (waits : index ∉ p.ran.map Prod.fst) :
    p.reached.pool.producedBy index = [] := by
  rw [sound.pool, producedBy_poolOf]
  exact Pool.producedBy_ofLog_of_notMem waits

theorem notMem_of_pending (sound : c.Sound p) {index : Nat} (member : index ∈ p.pending) :
    index ∉ p.ran.map Prod.fst := fun ran =>
  List.disjoint_of_nodup_append sound.nodup ran member

theorem notMem_of_le (sound : c.Sound p) {index : Nat} (beyond : c.stations.length ≤ index) :
    index ∉ p.ran.map Prod.fst := fun ran =>
  Nat.not_lt.mpr beyond
    (List.mem_range.mp (sound.partition.mem_iff.mp (List.mem_append_left _ ran)))

/-- **No output slot stands twice in the pool.** -/
theorem single (sound : c.Sound p) (place : Place) :
    (p.reached.pool.countP fun datum => datum.origin = .produced place) ≤ 1 := by
  refine (Pool.countP_le_producedBy _ place).trans ?_
  by_cases ran : place.node ∈ p.ran.map Prod.fst
  · obtain ⟨⟨index, outputs⟩, member, same⟩ := List.mem_map.mp ran
    rw [← same, sound.present member]
    exact List.nodup_iff_count_le_one.mp (Pool.nodup_ofOutputs index outputs) _
  · rw [sound.absent ran]
    exact Nat.zero_le 1

end Sound

/-! ### Wires and feeds from point to point -/

/-- From one point to another what a wire delivers and what is set by hand stay, and the feeds of a
node only become more. -/
structure Grows (c : Circuit) (p q : Point) : Prop where
  wired : ∀ index link feed, wiredFeed? p.reached.pool index link = some feed →
    wiredFeed? q.reached.pool index link = some feed
  byHand : ∀ index, q.reached.pool.manualFeeds index = p.reached.pool.manualFeeds index
  feeds : ∀ index, (c.feeds p.reached.pool index).Sublist (c.feeds q.reached.pool index)

theorem wiredFeed?_mono {earlier log : List (Nat × List Value)} (grows : earlier <+: log)
    {index : Nat} {link : Link} {feed : Feed}
    (known : wiredFeed? (c.poolOf earlier) index link = some feed) :
    wiredFeed? (c.poolOf log) index link = some feed := by
  unfold wiredFeed? at known ⊢
  split at known
  · next here =>
    obtain ⟨value, produced, rfl⟩ := Option.map_eq_some_iff.mp known
    rw [if_pos here, produced?_mono grows produced, Option.map_some]
  · cases known

/-- **As more nodes run, wires keep what they deliver and feeds only become more.** -/
theorem grows_of_ran {p q : Point} (before : c.Sound p) (after : c.Sound q)
    (grows : p.ran <+: q.ran) : c.Grows p q := by
  refine ⟨fun index link feed known => ?_, fun index => ?_, fun index => ?_⟩
  · rw [before.pool] at known
    rw [after.pool]
    exact wiredFeed?_mono grows known
  · rw [before.pool, after.pool, manualFeeds_poolOf, manualFeeds_poolOf]
  · rw [before.pool, after.pool, feeds, feeds, manualFeeds_poolOf, manualFeeds_poolOf]
    refine Feed.bySlot_sublist (List.Sublist.append ?_ (List.Sublist.refl _))
    exact filterMap_sublist (fun link feed known => wiredFeed?_mono grows known) c.links

end Points

end Circuit

/-! ### The pools of a composite -/

namespace Function

variable {f : Function} {g : Graph Function}

theorem initialPool_circuit (f : Function) (g : Graph Function) :
    (f.circuit g).initialPool =
      g.allNodes.zipIdx.flatMap fun row => Pool.ofSlots row.2 row.1.values := by
  have values : (f.circuit g).stations.map Station.values = g.allNodes.map Node.values := by
    simp only [circuit, Circuit.ofGraph, Graph.allNodes, List.map_append, List.map_cons,
      List.map_map, List.map_nil]
    rfl
  have pools {α : Type} (things : List α) (value : α → Slots) :
      (things.zipIdx.flatMap fun row => Pool.ofSlots row.2 (value row.1)) =
        (things.map value).zipIdx.flatMap fun row => Pool.ofSlots row.2 row.1 := by
    rw [List.zipIdx_map, List.flatMap_map]
    rfl
  show ((f.circuit g).stations.zipIdx.flatMap fun row => Pool.ofSlots row.2 row.1.values) = _
  rw [pools, pools, values]

/-- The Output node puts out nothing. -/
theorem putsOut_output {inputs outputs : List Value} {depth : Nat} {pool : Pool}
    (puts : (f.circuit g).PutsOut inputs depth pool g.outputIndex outputs) : outputs = [] := by
  rcases puts with produced | ⟨_, _, nothing⟩
  · generalize last : g.outputIndex = index at produced
    cases produced with
    | input able => exact absurd last g.outputIndex_ne_zero
    | node able inner inside evaluated =>
      rw [outputIndex_circuit] at inside
      exact absurd last.symm inside
  · exact nothing

/-- What a point of a run of a composite on data inputs has in its pool. -/
structure PoolAt (f : Function) (g : Graph Function) (inputs : List Value) (depth : Nat)
    (p : Point) : Prop where
  /-- Every node either ran, once, or is pending. -/
  partition : (p.ran.map Prod.fst ++ p.pending).Perm (List.range g.nodeCount)
  /-- The values set by hand are those of all nodes. -/
  manual : p.reached.pool.manual =
    g.allNodes.zipIdx.flatMap fun row => Pool.ofSlots row.2 row.1.values
  /-- An output slot has one value at most. -/
  single : ∀ place, (p.reached.pool.countP fun datum => datum.origin = .produced place) ≤ 1
  /-- A pending node and the Output node have produced nothing, and there are no other nodes. -/
  absent : ∀ index, index ∈ p.pending ∨ index = g.outputIndex ∨ g.nodeCount ≤ index →
    p.reached.pool.producedBy index = []
  /-- A node that ran has produced its outputs, from slot zero on. -/
  present : ∀ index outputs, (index, outputs) ∈ p.ran →
    p.reached.pool.producedBy index = Pool.ofOutputs index outputs
  /-- These outputs are what the node put out when it had its turn. -/
  turn : ∀ index outputs, (index, outputs) ∈ p.ran →
    (f.circuit g).HadTurn inputs depth (f.circuit g).opening p index outputs

/-- **Every point of a run has the pool that it should have.** -/
theorem poolAt_of_leads {inputs : List Value} {depth : Nat} {p : Point}
    (leads : (f.circuit g).Leads inputs depth (f.circuit g).opening p) :
    f.PoolAt g inputs depth p := by
  have sound := Circuit.sound_of_leads (Circuit.sound_opening _) leads
  have turn (index : Nat) (outputs : List Value) (member : (index, outputs) ∈ p.ran) :=
    Circuit.hadTurn_of_ran leads rfl member
  refine ⟨?_, ?_, sound.single, ?_, fun _ _ => sound.present, turn⟩
  · rw [← length_stations f]
    exact sound.partition
  · rw [← initialPool_circuit f]
    exact sound.manual
  · rintro index (pending | rfl | beyond)
    · exact sound.absent (sound.notMem_of_pending pending)
    · by_cases ran : g.outputIndex ∈ p.ran.map Prod.fst
      · obtain ⟨outputs, member⟩ : ∃ outputs, (g.outputIndex, outputs) ∈ p.ran := by
          simpa using ran
        obtain ⟨before, _, _, _, puts⟩ := turn _ outputs member
        rw [sound.present member, putsOut_output puts]
        rfl
      · exact sound.absent ran
    · rw [← length_stations f] at beyond
      exact sound.absent (sound.notMem_of_le beyond)

/-- **The pool of a run.** A run of a composite goes from its first point to one at which it ends
with its result and its events. At each of its points the nodes are partitioned into pending ones
and those that ran, the values set by hand are those of all nodes, and the produced values are the
outputs of the nodes that ran, each in its own slot. From any point to a later one, wires keep what
they deliver and feeds only become more. -/
theorem evaluateAt_pools (composite : f.body = .composite g) (depth : Nat)
    (arguments : List Value) :
    let c := f.circuit g
    let inputs := arguments.drop 1
    (∃ last ending, c.Leads inputs depth c.opening last ∧
      c.advance inputs depth last = .inl ending ∧
      f.evaluateAt depth arguments = Outcome.signalled ⟨ending.result.map Prod.fst,
        .runStarted c.functionId depth :: ending.events ++ [c.lastEvent depth ending.result]⟩) ∧
    ∀ p, c.Leads inputs depth c.opening p →
      f.PoolAt g inputs depth p ∧ ∀ q, c.Leads inputs depth p q → c.Grows p q := by
  refine ⟨?_, fun p leads => ⟨poolAt_of_leads leads, fun q further => ?_⟩⟩
  · obtain ⟨last, leads, ends⟩ := (f.circuit g).drive_leads (arguments.drop 1) depth 1
      (f.circuit g).initialPool (List.range (f.circuit g).stations.length) [] []
    exact ⟨last, _, leads, ends, evaluateAt_composite composite depth arguments⟩
  · have sound := Circuit.sound_of_leads (Circuit.sound_opening _) leads
    exact Circuit.grows_of_ran sound (Circuit.sound_of_leads sound further)
      (Circuit.ran_of_leads further)

/-- A run of the sample graph delivers the turned value, and its last point has the pool that it
should have. -/
theorem inverter_pools :
    let c := inverter.circuit inverterGraph
    ∃ last ending, c.Leads [.boolean true] 0 c.opening last ∧
      c.advance [.boolean true] 0 last = .inl ending ∧
      ending.result.map Prod.fst = .ok [.boolean false] ∧
      inverter.PoolAt inverterGraph [.boolean true] 0 last ∧ c.Grows c.opening last := by
  obtain ⟨⟨last, ending, leads, ends, outcome⟩, always⟩ :=
    evaluateAt_pools (f := inverter) (g := inverterGraph) rfl 0 [.signal, .boolean true]
  have evaluated : (inverter.evaluateAt 0 [.signal, .boolean true]).result =
      .ok [.signal, .boolean false] := by decide +kernel
  refine ⟨last, ending, leads, ends, ?_, (always last leads).1, (always _ .refl).2 last leads⟩
  rw [outcome] at evaluated
  dsimp only [Outcome.signalled] at evaluated
  generalize ending.result.map Prod.fst = result at evaluated
  cases result with
  | ok values =>
    cases evaluated
    rfl
  | error error => cases evaluated

end Function

end FlowGraph
