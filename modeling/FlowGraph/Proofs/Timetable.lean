/-
**The timetable of a run.**

Every turn of a run falls into a pass. The timetable of a run lists its turns in order, each by the
number of its pass and by its node, and the events of the run show it. A node that is still pending
had a turn in the pass before and could not run then, so whenever it does run later, something has
arrived for it in between.

* `Turn.timetable`, `Event.passOf?`: the timetable by turns and by events;
* `Circuit.Story.missed`: what is known of the last turn of a node that is still pending;
* `Circuit.Story.prompted`: **a node that runs after the first pass is prompted by a wire**, from a
  node behind it in the pass before or from a node in front of it in the same pass;
* `Function.evaluateAt_course`: every evaluation of a composite has a timetable, and its events tell
  it.
-/

import FlowGraph.Proofs.Failure

namespace FlowGraph

/-! ### Turns by pass -/

namespace Turn

variable {rows : List (List Turn)} {row : List Turn} {pass index : Nat}

/-- The turns of passes in order, each by the number of its pass and by its node. -/
def timetable (rows : List (List Turn)) : List (Nat × Nat) :=
  (rows.zipIdx 1).flatMap fun pass => pass.1.map fun turn => (pass.2, turn.index)

theorem timetable_concat (rows : List (List Turn)) (row : List Turn) :
    timetable (rows ++ [row]) =
      timetable rows ++ row.map fun turn => (rows.length + 1, turn.index) := by
  unfold timetable
  rw [List.zipIdx_append, List.flatMap_append, Nat.add_comm 1]
  simp

theorem timetable_turn (rows : List (List Turn)) (row : List Turn) (turn : Turn) :
    timetable (rows ++ [row ++ [turn]]) =
      timetable (rows ++ [row]) ++ [(rows.length + 1, turn.index)] := by
  rw [timetable_concat, timetable_concat, List.map_append, List.append_assoc]
  rfl

theorem timetable_idle (rows : List (List Turn)) : timetable (rows ++ [[]]) = timetable rows := by
  rw [timetable_concat, List.map_nil, List.append_nil]

/-- **A node has a turn in a pass** if it is in the row of that pass. -/
theorem mem_timetable :
    (pass + 1, index) ∈ timetable rows ↔
      ∃ row, rows[pass]? = some row ∧ index ∈ row.map Turn.index := by
  unfold timetable
  simp only [List.mem_flatMap, List.mem_map, Prod.exists, Prod.mk.injEq,
    List.mk_mem_zipIdx_iff_le_and_getElem?_sub]
  constructor
  · rintro ⟨row, _, ⟨_, found⟩, turn, member, rfl, same⟩
    exact ⟨row, found, turn, member, same⟩
  · rintro ⟨row, found, turn, member, same⟩
    exact ⟨row, pass + 1, ⟨Nat.succ_le_succ (Nat.zero_le pass), found⟩, turn, member, rfl, same⟩

theorem bounds_of_mem_timetable (member : (pass, index) ∈ timetable rows) :
    1 ≤ pass ∧ pass ≤ rows.length := by
  cases pass with
  | zero =>
    obtain ⟨⟨row, number⟩, numbered, inRow⟩ := List.mem_flatMap.mp member
    obtain ⟨turn, _, same⟩ := List.mem_map.mp inRow
    have positive := List.le_snd_of_mem_zipIdx numbered
    cases same
    exact absurd positive (Nat.not_succ_le_zero 0)
  | succ pass =>
    obtain ⟨row, found, _⟩ := mem_timetable.mp member
    exact ⟨Nat.succ_pos pass, (List.getElem?_eq_some_iff.mp found).1⟩

theorem mem_timetable_concat :
    (pass, index) ∈ timetable (rows ++ [row]) ↔
      (pass, index) ∈ timetable rows ∨ pass = rows.length + 1 ∧ index ∈ row.map Turn.index := by
  rw [timetable_concat, List.mem_append]
  refine or_congr Iff.rfl ?_
  constructor
  · intro member
    obtain ⟨turn, inRow, same⟩ := List.mem_map.mp member
    cases same
    exact ⟨rfl, List.mem_map_of_mem inRow⟩
  · rintro ⟨rfl, member⟩
    obtain ⟨turn, inRow, rfl⟩ := List.mem_map.mp member
    exact List.mem_map.mpr ⟨turn, inRow, rfl⟩

theorem map_snd_timetable (rows : List (List Turn)) :
    (timetable rows).map Prod.snd = rows.flatten.map Turn.index := by
  induction rows using List.reverseRecOn with
  | nil => rfl
  | append_singleton rows row ih =>
    rw [timetable_concat, List.map_append, ih, List.flatten_append, List.flatten_singleton,
      List.map_append, List.map_map]
    rfl

theorem mem_flatten_of_mem_timetable (member : (pass, index) ∈ timetable rows) :
    index ∈ rows.flatten.map Turn.index := by
  rw [← map_snd_timetable]
  exact List.mem_map.mpr ⟨_, member, rfl⟩

/-- A node has turns in one pass only if it has no two turns. -/
theorem pass_unique (once : (rows.flatten.map Turn.index).Nodup) {other : Nat}
    (one : (pass, index) ∈ timetable rows) (two : (other, index) ∈ timetable rows) :
    pass = other := by
  rw [← map_snd_timetable] at once
  exact congrArg Prod.fst (List.inj_on_of_nodup_map once one two rfl)

end Turn

/-! ### Turns in the events -/

namespace Event

/-- Whether the event starts the node at an index, in a run at some depth. -/
def starts (depth index : Nat) : Event → Bool
  | stepStarted _ found _ deep => found = index && deep = depth
  | _ => false

/-- The pass in which a run at some depth started the node at an index, by the events of the run. -/
def passOf? (depth index : Nat) : List Event → Option Nat
  | [] => none
  | event :: rest =>
    if event.starts depth index then some 1
    else (passOf? depth index rest).map fun pass => if event.isPassAt depth then pass + 1 else pass

variable {depth index : Nat} {events more : List Event}

theorem passOf?_append :
    passOf? depth index (events ++ more) = (passOf? depth index events).or
      ((passOf? depth index more).map (· + events.countP (isPassAt depth))) := by
  induction events with
  | nil => simp [passOf?]
  | cons event rest ih =>
    rw [List.cons_append, passOf?, passOf?]
    by_cases start : event.starts depth index = true
    · rw [if_pos start, if_pos start, Option.some_or]
    · rw [if_neg start, if_neg start, ih, List.countP_cons]
      cases passOf? depth index rest with
      | some pass => rfl
      | none =>
        rw [Option.none_or, Option.map_none, Option.none_or, Option.map_map]
        congr 1
        funext pass
        dsimp only [Function.comp_apply]
        split <;> omega

/-- The pass of a node is known exactly if some event starts the node. -/
theorem passOf?_eq_none_iff :
    passOf? depth index events = none ↔ ∀ event ∈ events, event.starts depth index = false := by
  induction events with
  | nil => simp [passOf?]
  | cons event rest ih =>
    rw [passOf?, List.forall_mem_cons, ← ih]
    cases event.starts depth index <;> simp

theorem starts_eq_false {event : Event} (deeper : depth < event.depth) :
    event.starts depth index = false := by
  cases event with
  | stepStarted id found nodeId deep =>
    have other : deep ≠ depth := Nat.ne_of_gt deeper
    simp [starts, other]
  | _ => rfl

end Event

namespace Turn

variable {depth index pass : Nat} {functionId : String} {rows : List (List Turn)}
  {row : List Turn}

theorem Deepens.passOf? {turn : Turn} (deepens : turn.Deepens depth) (index : Nat) :
    Event.passOf? depth index turn.events = if turn.index = index then some 1 else none := by
  obtain ⟨functionId, nodeId, events, told, deeper⟩ := deepens
  have quiet : Event.passOf? depth index events = none :=
    Event.passOf?_eq_none_iff.mpr fun event member => Event.starts_eq_false (deeper event member)
  rw [told, Event.passOf?, quiet]
  simp [Event.starts]

/-- A row of turns starts the nodes of its turns, all of them in the first pass. -/
theorem passOf?_tell (deepens : ∀ turn ∈ row, turn.Deepens depth) (index : Nat) :
    Event.passOf? depth index (tell row) =
      if index ∈ row.map Turn.index then some 1 else none := by
  induction row with
  | nil => rfl
  | cons turn rest ih =>
    have first := (deepens turn List.mem_cons_self).passOf? index
    have others := ih fun other member => deepens other (List.mem_cons_of_mem _ member)
    have ended : (tell [turn]).countP (Event.isPassAt depth) = 0 :=
      countP_isPassAt_tell fun other member =>
        deepens other (List.mem_singleton.mp member ▸ List.mem_cons_self)
    rw [tell, List.flatMap_singleton] at ended
    rw [tell, List.flatMap_cons, Event.passOf?_append, first, ended,
      show Event.passOf? depth index (rest.flatMap Turn.events) = _ from others, List.map_cons]
    by_cases here : turn.index = index
    · simp [here]
    · simp [here, Ne.symm here]

/-- The end of the last pass starts nothing. -/
theorem passOf?_tellPasses_concat (functionId : String) (depth index : Nat)
    (rows : List (List Turn)) (row : List Turn) :
    Event.passOf? depth index (tellPasses functionId depth (rows ++ [row])) =
      Event.passOf? depth index (tellPasses functionId depth rows ++ tell row) := by
  rw [tellPasses_concat, ← List.append_assoc, Event.passOf?_append]
  exact Option.or_none

/-- **The events of passes tell their timetable.** -/
theorem passOf?_tellPasses (deepens : ∀ turn ∈ rows.flatten, turn.Deepens depth)
    (once : (rows.flatten.map Turn.index).Nodup) :
    Event.passOf? depth index (tellPasses functionId depth rows) = some pass ↔
      (pass, index) ∈ timetable rows := by
  induction rows using List.reverseRecOn generalizing pass with
  | nil => simp [tellPasses, timetable, Event.passOf?]
  | append_singleton rows row ih =>
    rw [List.flatten_append, List.flatten_singleton] at deepens once
    have finished := fun turn member => deepens turn (List.mem_append_left _ member)
    have current := fun turn member => deepens turn (List.mem_append_right _ member)
    rw [List.map_append] at once
    obtain ⟨onceEarlier, _, apart⟩ := List.nodup_append.mp once
    have earlier : ∀ pass, Event.passOf? depth index (tellPasses functionId depth rows) =
        some pass ↔ (pass, index) ∈ timetable rows := fun _ => ih finished onceEarlier
    rw [passOf?_tellPasses_concat, Event.passOf?_append, countP_isPassAt_tellPasses finished,
      passOf?_tell current, mem_timetable_concat]
    by_cases here : index ∈ row.map Turn.index
    · have fresh : ∀ pass, (pass, index) ∉ timetable rows := fun pass member =>
        apart index (mem_flatten_of_mem_timetable member) index here rfl
      have none : Event.passOf? depth index (tellPasses functionId depth rows) = none :=
        Option.eq_none_iff_forall_not_mem.mpr fun pass told => fresh pass ((earlier pass).mp told)
      rw [none, if_pos here, Option.none_or, Option.map_some, Option.some.injEq]
      simp [fresh pass, here, Nat.add_comm 1, eq_comm]
    · rw [if_neg here, Option.map_none, Option.or_none, earlier]
      simp [here]

end Turn

/-! ### Turns that were missed -/

namespace Circuit

variable {c : Circuit} {inputs : List Value} {depth : Nat} {rows : List (List Turn)}
  {row : List Turn} {times : List (Nat × Nat)} {log : List (Nat × List Value)} {pass index : Nat}

/-- A node had its turn in a pass and could not run then: not after the nodes of an earlier log,
which holds all nodes that had their turns before. -/
def Missed (c : Circuit) (times : List (Nat × Nat)) (log : List (Nat × List Value))
    (pass index : Nat) : Prop :=
  ∃ earlier, earlier <+: log ∧
    (∀ station callee, ¬ c.CanRun (c.poolOf earlier) index station callee) ∧
    ∀ before other, (before, other) ∈ times → before < pass ∨ before = pass ∧ other < index →
      other ∈ earlier.map Prod.fst

/-- All pending nodes have missed their last turns: in this pass if they wait, and in the pass
before if their turn is still to come. -/
structure AllMissed (c : Circuit) (times : List (Nat × Nat)) (m : Moment) : Prop where
  waiting : ∀ index ∈ m.waiting, c.Missed times m.log m.pass index
  ahead : 1 < m.pass → ∀ index ∈ m.ahead, c.Missed times m.log (m.pass - 1) index

/-- A missed turn stays missed when nodes run after it. -/
theorem Missed.later (missed : c.Missed times log pass index) {now node : Nat}
    (after : pass < now ∨ pass = now ∧ index < node) (outputs : List Value) :
    c.Missed (times ++ [(now, node)]) (log ++ [(node, outputs)]) pass index := by
  obtain ⟨earlier, grows, unable, holds⟩ := missed
  refine ⟨earlier, grows.trans (List.prefix_append ..), unable, fun before other member less => ?_⟩
  rcases List.mem_append.mp member with old | new
  · exact holds before other old less
  · cases List.mem_singleton.mp new
    omega

namespace Story

variable {m : Moment}

/-- The timetable of a story has the nodes that ran, in the same order. -/
theorem timetable_indices (story : c.Story inputs depth rows row m) :
    (Turn.timetable (rows ++ [row])).map Prod.snd = m.log.map Prod.fst := by
  rw [Turn.map_snd_timetable, List.flatten_append, List.flatten_singleton, story.log_indices]

theorem ran_of_mem_timetable (story : c.Story inputs depth rows row m)
    (member : (pass, index) ∈ Turn.timetable (rows ++ [row])) : index ∈ m.log.map Prod.fst := by
  rw [← story.timetable_indices]
  exact List.mem_map.mpr ⟨_, member, rfl⟩

theorem exists_pass (story : c.Story inputs depth rows row m)
    (ran : index ∈ m.log.map Prod.fst) :
    ∃ pass, (pass, index) ∈ Turn.timetable (rows ++ [row]) := by
  rw [← story.timetable_indices] at ran
  obtain ⟨⟨pass, _⟩, member, rfl⟩ := List.mem_map.mp ran
  exact ⟨pass, member⟩

/-- What a turn leaves of turns that were missed before it. -/
theorem missed_turn {rest waiting : List Nat} {delivered? : Option (List Value)}
    (before : c.Story inputs depth rows row ⟨pass, index :: rest, waiting, log, delivered?⟩)
    (missed : c.AllMissed (Turn.timetable (rows ++ [row]))
      ⟨pass, index :: rest, waiting, log, delivered?⟩)
    (events : List Event) (outputs : List Value) (delivered' : Option (List Value)) :
    c.AllMissed (Turn.timetable (rows ++ [row ++ [⟨index, events⟩]]))
      ⟨pass, rest, waiting, log ++ [(index, outputs)], delivered'⟩ := by
  have count : pass = rows.length + 1 := before.pass_eq
  have front : ∀ other ∈ waiting, other < index := fun other member =>
    (List.pairwise_append.mp before.ascending.2.2).2.2 other member index List.mem_cons_self
  rw [Turn.timetable_turn, ← count]
  refine ⟨fun other member => ?_, fun later other member => ?_⟩
  · exact (missed.waiting other member).later (Or.inr ⟨rfl, front other member⟩) outputs
  · have earlier : pass - 1 < pass := by omega
    exact (missed.ahead later other (List.mem_cons_of_mem _ member)).later (Or.inl earlier) outputs

/-- **A pending node has missed its last turn.** -/
theorem missed (story : c.Story inputs depth rows row m) :
    c.AllMissed (Turn.timetable (rows ++ [row])) m := by
  induction story with
  | start => exact ⟨fun _ member => absurd member List.not_mem_nil,
      fun later => absurd later (Nat.lt_irrefl 1)⟩
  | @waits rows row pass index rest waiting log delivered? before unable ih =>
    refine ⟨fun other member => ?_, fun later other member =>
      ih.ahead later other (List.mem_cons_of_mem _ member)⟩
    rcases List.mem_append.mp member with old | new
    · exact ih.waiting other old
    · rw [List.mem_singleton.mp new]
      exact ⟨log, List.prefix_rfl, unable, fun _ _ ran _ => before.ran_of_mem_timetable ran⟩
  | produces before able produced ih => exact before.missed_turn ih _ _ _
  | delivers before able inner last ih => exact before.missed_turn ih _ _ _
  | passes before refused busy ih =>
    rw [Turn.timetable_idle]
    exact ⟨fun _ member => absurd member List.not_mem_nil, fun _ => ih.waiting⟩

end Story

/-! ### Turns that are prompted -/

/-- Nodes that put out nothing leave no value at any slot. -/
theorem produced?_ofLog_eq_none {place : Place}
    (silent : ∀ outputs, (place.node, outputs) ∈ log → outputs = []) :
    (Pool.ofLog log).produced? place = none := by
  induction log with
  | nil => rfl
  | cons entry rest ih =>
    obtain ⟨node, outputs⟩ := entry
    have later := ih fun others member => silent others (List.mem_cons_of_mem _ member)
    have unfolded : Pool.ofLog ((node, outputs) :: rest) =
        Pool.ofOutputs node outputs ++ Pool.ofLog rest := rfl
    rw [unfolded, Pool.produced?_append, Pool.produced?_ofOutputs, later, Option.or_none]
    split
    · next here =>
      rw [silent outputs (here ▸ List.mem_cons_self)]
      rfl
    · rfl

/-- Nodes that put out nothing for a node leave its feeds as they are. -/
theorem feeds_append {more : List (Nat × List Value)}
    (silent : ∀ link ∈ c.links, link.stop.node = index →
      ∀ outputs, (link.start.node, outputs) ∈ more → outputs = []) :
    c.feeds (c.poolOf (log ++ more)) index = c.feeds (c.poolOf log) index := by
  unfold feeds
  rw [manualFeeds_poolOf, manualFeeds_poolOf]
  congr 2
  refine List.filterMap_congr fun link member => ?_
  unfold wiredFeed?
  split
  · next stop =>
    rw [produced?_poolOf, produced?_poolOf, Pool.ofLog_append, Pool.produced?_append,
      produced?_ofLog_eq_none (silent link member stop), Option.or_none]
  · rfl

/-- **A node that can run after more nodes** than before is fed by one of these. -/
theorem exists_source_of_canRun {more : List (Nat × List Value)} {station : Station}
    {callee : Callee} (able : c.CanRun (c.poolOf (log ++ more)) index station callee)
    (unable : ¬ c.CanRun (c.poolOf log) index station callee) :
    ∃ link ∈ c.links, link.stop.node = index ∧
      ∃ outputs, (link.start.node, outputs) ∈ more ∧ outputs ≠ [] := by
  by_contra silent
  push Not at silent
  obtain ⟨located, calls, ready, allowed⟩ := able
  rw [feeds_append silent] at ready allowed
  exact unable ⟨located, calls, ready, allowed⟩

/-- **A node that runs after the first pass is prompted by a wire**: from a node behind it that ran
in the pass before, or from a node in front of it that ran in the same pass. -/
theorem Story.prompted {rest waiting : List Nat} {delivered? : Option (List Value)}
    {station : Station} {callee : Callee}
    (story : c.Story inputs depth rows row ⟨pass, index :: rest, waiting, log, delivered?⟩)
    (able : c.CanRun (c.poolOf log) index station callee) (later : 1 < pass) :
    ∃ link ∈ c.links, link.stop.node = index ∧
      (∃ outputs, (link.start.node, outputs) ∈ log ∧ outputs ≠ []) ∧
      ((pass - 1, link.start.node) ∈ Turn.timetable (rows ++ [row]) ∧ index < link.start.node ∨
        (pass, link.start.node) ∈ Turn.timetable (rows ++ [row]) ∧ link.start.node < index) := by
  obtain ⟨earlier, ⟨more, rfl⟩, unable, holds⟩ :=
    story.missed.ahead later index List.mem_cons_self
  obtain ⟨link, wired, stop, outputs, member, busy⟩ :=
    exists_source_of_canRun able (unable station callee)
  have ran : (link.start.node, outputs) ∈ earlier ++ more := List.mem_append_right _ member
  have source : link.start.node ∈ (earlier ++ more).map Prod.fst := List.mem_map_of_mem ran
  refine ⟨link, wired, stop, ⟨outputs, ran, busy⟩, ?_⟩
  obtain ⟨found, inTimes⟩ := story.exists_pass source
  have count : pass = rows.length + 1 := story.pass_eq
  have bound := (Turn.bounds_of_mem_timetable inTimes).2
  rw [List.length_append, List.length_singleton, ← count] at bound
  have other : link.start.node ≠ index := fun same =>
    story.comes.not_ran_of_ahead List.mem_cons_self (same ▸ source)
  -- The source ran after the turn that was missed, or else it would have been there already.
  have after : ¬ (found < pass - 1 ∨ found = pass - 1 ∧ link.start.node < index) := by
    intro before
    have once := (List.nodup_append.mp story.comes.nodup).1
    rw [List.map_append] at once
    exact (List.nodup_append.mp once).2.2 _ (holds found _ inTimes before) _
      (List.mem_map_of_mem member) rfl
  by_cases now : found = pass
  · subst now
    refine Or.inr ⟨inTimes, ?_⟩
    rcases Turn.mem_timetable_concat.mp inTimes with finished | ⟨_, current⟩
    · exact absurd (Turn.bounds_of_mem_timetable finished).2 (by omega)
    · exact (List.pairwise_append.mp story.ascending.2.1).2.2 _ current index List.mem_cons_self
  · have previous : found = pass - 1 := by omega
    exact Or.inl ⟨previous ▸ inTimes, by omega⟩

/-! ### Nodes that are started -/

/-- A run comes to the turn of a node that can run, in some pass and after the turns at the
beginning of a timetable. -/
inductive Starts (c : Circuit) (inputs : List Value) (depth : Nat) (times : List (Nat × Nat))
    (pass index : Nat) : Prop
  | at {rows : List (List Turn)} {row : List Turn} {rest waiting : List Nat}
      {log : List (Nat × List Value)} {delivered? : Option (List Value)} {station : Station}
      {callee : Callee}
      (story : c.Story inputs depth rows row ⟨pass, index :: rest, waiting, log, delivered?⟩)
      (able : c.CanRun (c.poolOf log) index station callee)
      (earlier : Turn.timetable (rows ++ [row]) <+: times) :
      Starts c inputs depth times pass index

theorem Starts.mono {more : List (Nat × Nat)} (starts : c.Starts inputs depth times pass index)
    (grows : times <+: more) : c.Starts inputs depth more pass index := by
  obtain ⟨story, able, earlier⟩ := starts
  exact .at story able (earlier.trans grows)

/-- The node whose turn it is starts in the current pass. -/
theorem Story.starts_turn {rest waiting : List Nat} {delivered? : Option (List Value)}
    {station : Station} {callee : Callee}
    (story : c.Story inputs depth rows row ⟨pass, index :: rest, waiting, log, delivered?⟩)
    (able : c.CanRun (c.poolOf log) index station callee) (events : List Event)
    (earlier : ∀ pass index, (pass, index) ∈ Turn.timetable (rows ++ [row]) →
      c.Starts inputs depth (Turn.timetable (rows ++ [row])) pass index) {now node : Nat}
    (member : (now, node) ∈ Turn.timetable (rows ++ [row ++ [⟨index, events⟩]])) :
    c.Starts inputs depth (Turn.timetable (rows ++ [row ++ [⟨index, events⟩]])) now node := by
  have count : pass = rows.length + 1 := story.pass_eq
  rw [Turn.timetable_turn, ← count] at member ⊢
  rcases List.mem_append.mp member with old | new
  · exact (earlier now node old).mono (List.prefix_append ..)
  · cases List.mem_singleton.mp new
    exact .at story able (List.prefix_append ..)

/-- **Every turn of a story was started** by a node that could run. -/
theorem Story.starts {m : Moment} (story : c.Story inputs depth rows row m) (pass index : Nat)
    (member : (pass, index) ∈ Turn.timetable (rows ++ [row])) :
    c.Starts inputs depth (Turn.timetable (rows ++ [row])) pass index := by
  induction story generalizing pass index with
  | start => exact absurd member List.not_mem_nil
  | waits before unable ih => exact ih pass index member
  | produces before able produced ih => exact before.starts_turn able _ ih member
  | delivers before able inner last ih => exact before.starts_turn able _ ih member
  | passes before refused busy ih =>
    rw [Turn.timetable_idle] at member ⊢
    exact ih pass index member

/-- What is delivered in a pass is delivered by the turn of the Output node in it. -/
theorem Story.output_of_delivered {m : Moment} (story : c.Story inputs depth rows row m)
    (delivered : m.delivered? ≠ none) : c.outputIndex ∈ row.map Turn.index := by
  induction story with
  | start => exact absurd rfl delivered
  | waits before unable ih => exact ih delivered
  | produces before able produced ih =>
    rw [List.map_append]
    exact List.mem_append_left _ (ih delivered)
  | delivers before able inner last ih =>
    rw [List.map_append, ← last]
    exact List.mem_append_right _ List.mem_cons_self
  | passes before refused busy ih => exact absurd rfl delivered

/-- A run that needs no delivery goes on after a pass only if the Output node delivered in it. -/
theorem Story.output_of_needless {m : Moment} (story : c.Story inputs depth rows row m)
    (needless : c.outputCount = 0) : ∀ earlier ∈ rows, c.outputIndex ∈ earlier.map Turn.index := by
  induction story with
  | start => exact fun _ member => absurd member List.not_mem_nil
  | waits before unable ih => exact ih
  | produces before able produced ih => exact ih
  | delivers before able inner last ih => exact ih
  | passes before refused busy ih =>
    intro earlier member
    rcases List.mem_append.mp member with old | new
    · exact ih earlier old
    · rw [List.mem_singleton.mp new]
      refine before.output_of_delivered fun none => ?_
      dsimp only at none
      rw [none, accept?, if_pos needless] at refused
      cases refused

/-- The first and the last event of a run start no node. -/
theorem passOf?_framed (ending : Except RunError (List Value × Nat)) (events : List Event) :
    Event.passOf? depth index
        (.runStarted c.functionId depth :: events ++ [c.lastEvent depth ending]) =
      Event.passOf? depth index events := by
  have last : Event.passOf? depth index [c.lastEvent depth ending] = none := by
    cases ending <;> rfl
  rw [Event.passOf?_append, last, Option.map_none, Option.or_none]
  exact Option.map_id'

theorem countP_isPassAt_framed (ending : Except RunError (List Value × Nat))
    (events : List Event) :
    (.runStarted c.functionId depth :: events ++ [c.lastEvent depth ending]).countP
      (Event.isPassAt depth) = events.countP (Event.isPassAt depth) := by
  have last : [c.lastEvent depth ending].countP (Event.isPassAt depth) = 0 := by
    cases ending <;> rfl
  rw [List.countP_append, last, Nat.add_zero]
  exact List.countP_cons_of_neg (by simp [Event.isPassAt])

end Circuit

/-! ### Evaluations and their timetables -/

/-- The number of passes that a run at some depth took, by its events and the error that it ended
in, if any. A run that breaks off has begun one pass more than it tells the end of. -/
def Event.passCount (depth : Nat) (events : List Event) (failure : Option RunError) : Nat :=
  events.countP (Event.isPassAt depth) + if (failure.bind RunError.node).isSome then 1 else 0

/-- The number of passes that a run at some depth took. -/
def Outcome.passes (depth : Nat) (outcome : Outcome) : Nat :=
  Event.passCount depth outcome.events (RunError.of? outcome.result)

namespace Function

variable {f : Function} {g : Graph Function} {inputs : List Value} {depth : Nat}
  {failure : Option RunError} {events : List Event} {rows : List (List Turn)} {row : List Turn}

/-- The course of a run that told some events and ended in some error, if any: its finished passes
and its last one. -/
structure Course (f : Function) (g : Graph Function) (inputs : List Value) (depth : Nat)
    (failure : Option RunError) (events : List Event) (rows : List (List Turn)) (row : List Turn) :
    Prop where
  orderly : Turn.Orderly (rows ++ [row])
  passes : Event.passCount depth events failure = rows.length + 1
  /-- The events tell the timetable. -/
  told : ∀ pass index, Event.passOf? depth index events = some pass ↔
    (pass, index) ∈ Turn.timetable (rows ++ [row])
  starts : ∀ pass index, (pass, index) ∈ Turn.timetable (rows ++ [row]) →
    (f.circuit g).Starts inputs depth (Turn.timetable (rows ++ [row])) pass index
  busy : ∀ earlier ∈ rows, earlier ≠ []
  needless : f.dataOutputs = [] → ∀ earlier ∈ rows, g.outputIndex ∈ earlier.map Turn.index
  delivered : f.dataOutputs ≠ [] → failure = none → g.outputIndex ∈ row.map Turn.index

theorem deepens_of_story {m : Moment} (story : (f.circuit g).Story inputs depth rows row m) :
    ∀ turn ∈ (rows ++ [row]).flatten, turn.Deepens depth := by
  intro turn member
  rw [List.flatten_append, List.flatten_singleton] at member
  exact deepens_of_took (story.took turn member)

theorem deepens_of_breaking {turn : Turn}
    (breaks : (f.circuit g).Breaks inputs depth rows row turn) :
    ∀ other ∈ (rows ++ [row ++ [turn]]).flatten, other.Deepens depth := by
  have last := deepens_of_breaks breaks
  obtain ⟨story, inner, inside, able, failed⟩ := breaks
  intro other member
  rw [List.flatten_append, List.flatten_singleton, ← List.append_assoc] at member
  rcases List.mem_append.mp member with old | new
  · exact deepens_of_took (story.took other old)
  · exact List.mem_singleton.mp new ▸ last

theorem needless_of_story {m : Moment} (story : (f.circuit g).Story inputs depth rows row m)
    (none : f.dataOutputs = []) : ∀ earlier ∈ rows, g.outputIndex ∈ earlier.map Turn.index := by
  rw [← outputIndex_circuit f g]
  exact story.output_of_needless (List.length_eq_zero_iff.mpr none)

/-- **A closed story has a course.** -/
theorem course_of_closes {ending : Except RunError (List Value × Nat)}
    (closes : (f.circuit g).Closes inputs depth ending events) :
    ∃ rows row, f.Course g inputs depth (RunError.of? ending) events rows row := by
  cases closes with
  | @accepted rows row pass waiting log delivered? values story accepted =>
    have deepens := deepens_of_story story
    have orderly := orderly_of_story story rfl
    refine ⟨rows, row, orderly, ?_, fun _ _ => Turn.passOf?_tellPasses deepens orderly.once,
      story.starts, story.busy, needless_of_story story, fun wanting _ => ?_⟩
    · rw [Event.passCount, Turn.countP_isPassAt_tellPasses deepens, List.length_append]
      rfl
    · rw [← outputIndex_circuit f g]
      refine story.output_of_delivered fun none => ?_
      dsimp only at none
      rw [none, Circuit.accept?] at accepted
      split at accepted
      · next zero => exact wanting (List.length_eq_zero_iff.mp zero)
      · cases accepted
  | @failed rows row turn breaks =>
    have deepens := deepens_of_breaking breaks
    have orderly := orderly_of_breaks breaks
    have finished : ∀ other ∈ rows.flatten, other.Deepens depth := fun other member =>
      deepens other (List.flatten_append ▸ List.mem_append_left _ member)
    have current : ∀ other ∈ row ++ [turn], other.Deepens depth := fun other member =>
      deepens other (List.mem_flatten_of_mem (List.mem_append_right _ List.mem_cons_self) member)
    refine ⟨rows, row ++ [turn], orderly, ?_, fun pass index => ?_, ?_, ?_, ?_,
      fun _ none => (by cases none)⟩
    · rw [Event.passCount, List.countP_append, Turn.countP_isPassAt_tellPasses finished,
        Turn.countP_isPassAt_tell current]
      rfl
    · rw [← Turn.passOf?_tellPasses_concat]
      exact Turn.passOf?_tellPasses deepens orderly.once
    all_goals obtain ⟨story, inner, inside, able, failed⟩ := breaks
    · exact fun _ _ => story.starts_turn able _ story.starts
    · exact story.busy
    · exact needless_of_story story
  | @stalled rows pass waiting log story wanting stuck =>
    have deepens := deepens_of_story story
    have orderly := orderly_of_story story rfl
    refine ⟨rows, [], orderly, ?_, fun _ _ => Turn.passOf?_tellPasses deepens orderly.once,
      story.starts, story.busy, needless_of_story story, fun _ none => (by cases none)⟩
    rw [Event.passCount, Turn.countP_isPassAt_tellPasses deepens, List.length_append]
    rfl

/-- **Every evaluation of a composite has a course**, which its events tell. -/
theorem evaluateAt_course (composite : f.body = .composite g) (depth : Nat)
    (arguments : List Value) :
    ∃ rows row, f.Course g (arguments.drop 1) depth
      (RunError.of? (f.evaluateAt depth arguments).result) (f.evaluateAt depth arguments).events
        rows row := by
  obtain ⟨ending, events, closes, run⟩ := (f.circuit g).run_closes (arguments.drop 1) depth
  obtain ⟨rows, row, course⟩ := course_of_closes closes
  rw [evaluateAt_composite composite, run, Outcome.signalled]
  dsimp only
  rw [RunError.of?_map, RunError.of?_map]
  refine ⟨rows, row, { course with passes := ?_, told := fun pass index => ?_ }⟩
  · rw [Event.passCount, Circuit.countP_isPassAt_framed]
    exact course.passes
  · rw [Circuit.passOf?_framed]
    exact course.told pass index

end Function

end FlowGraph
