/-
**The schedule of a run.**

In a graph whose slots have one feed at most, all of them declared, and whose nodes call functions
that need all their inputs, a node runs as soon as all nodes have run that its wires start at. A
pass takes the nodes in order, so a value is there in the same pass for the nodes behind the one
that puts it out and in the next pass for those in front. This alone fixes the pass of every node.

* `Graph.duePass`: the pass that the wires of a node let it run in;
* `Function.WellFed.source_ran`: a node that can run has all its sources behind it;
* `Function.Course.pass_eq`: **a node runs in the pass that it is due in**;
* `Function.ReversedChain`: chains of nodes that are listed from the last one to the first one, and
  `Function.ReversedChain.answers`: their runs succeed;
* `Function.evaluateAt_schedule`: **the schedule of a run, and how long it is.**
-/

import FlowGraph.Proofs.Availability
import FlowGraph.Proofs.Gating
import FlowGraph.Proofs.Passes

namespace FlowGraph

namespace Graph

/-- The pass that the wires of a node let it run in, by the passes of the nodes that they start at.
A wire from a node behind takes until the next pass. -/
def duePass (g : Graph Function) (passOf : Nat → Nat) (index : Nat) : Nat :=
  ((g.linksTo index).map fun link =>
    passOf link.start.node + if index < link.start.node then 1 else 0).foldr max 1

theorem duePass_le_iff (g : Graph Function) (passOf : Nat → Nat) (index bound : Nat) :
    g.duePass passOf index ≤ bound ↔ 1 ≤ bound ∧ ∀ link ∈ g.linksTo index,
      passOf link.start.node + (if index < link.start.node then 1 else 0) ≤ bound := by
  unfold duePass
  induction g.linksTo index with
  | nil => simp
  | cons link rest ih =>
    rw [List.map_cons, List.foldr_cons, max_le_iff, ih, List.forall_mem_cons]
    exact and_left_comm

theorem mem_linksTo {g : Graph Function} {index : Nat} {link : Link} :
    link ∈ g.linksTo index ↔ link ∈ g.links ∧ link.stop.node = index := by
  unfold linksTo
  rw [List.mem_filter, decide_eq_true_eq]

end Graph

namespace Function

variable {f : Function} {g : Graph Function} {inputs : List Value} {depth : Nat}
  {failure : Option RunError} {events : List Event} {rows : List (List Turn)} {row : List Turn}
  {pass index : Nat} {log : List (Nat × List Value)}

/-! ### Nodes that wait for all their sources -/

/-- The nodes of the user call functions that need all their inputs, no slot has two feeds, and no
slot is fed that its function does not have. -/
structure WellFed (f : Function) (g : Graph Function) : Prop where
  whole : ∀ node ∈ g.nodes, ∀ callee, find? g.roster node.function = some callee →
    callee.anyInput = false
  single : g.SingleFed
  declared : ∀ index ≠ 0, ∀ callee, f.calleeIn? g index = some callee →
    ∀ slot, 0 < g.feedCountAt ⟨index, slot⟩ → slot < callee.inputs.length

theorem WellFed.whole_callee (fed : f.WellFed g) {callee : Function}
    (calls : f.calleeIn? g index = some callee) : callee.anyInput = false := by
  rcases calleeIn?_cases calls with ⟨_, rfl⟩ | ⟨_, rfl⟩ | ⟨place, inside, rfl, known⟩
  · rfl
  · rfl
  · exact fed.whole _ (List.get_mem _ _) callee known

/-- What feeds a slot that a wire ends at, and that has no other feed, is that wire. -/
theorem source_of_feed (single : g.SingleFed) (inner : index ≠ 0) (runs : f.Runs g inputs log)
    {link : Link} (wired : link ∈ g.linksTo index) {value : Value}
    (present : (link.stop.slot, value) ∈ f.feedsAfter g log index) :
    link.start.node ∈ log.map Prod.fst := by
  obtain ⟨member, stop⟩ := Graph.mem_linksTo.mp wired
  have ends : link.stop = ⟨index, link.stop.slot⟩ := by rw [← stop]
  have few := single index inner link.stop.slot
  unfold Graph.feedCountAt at few
  rcases (runs.mem_feeds index link.stop.slot value).mp present with
    manual | ⟨other, inLinks, same, outputs, ran, _⟩
  · have counted : 0 < g.links.countP fun link' => link'.stop = ⟨index, link.stop.slot⟩ :=
      List.countP_pos_iff.mpr ⟨link, member, decide_eq_true ends⟩
    rw [manual, Option.isSome_some, if_pos rfl] at few
    omega
  · have equal : other = link :=
      Graph.eq_of_countP_le_one (le_trans (Nat.le_add_right _ _) few) inLinks member
        (decide_eq_true same) (decide_eq_true ends)
    rw [← equal]
    exact List.mem_map_of_mem ran

/-- **A node that can run has all its sources behind it.** -/
theorem WellFed.source_ran (fed : f.WellFed g) (inner : index ≠ 0) (runs : f.Runs g inputs log)
    {callee : Function} (able : f.CanRun g log index callee) {link : Link}
    (wired : link ∈ g.linksTo index) : link.start.node ∈ log.map Prod.fst := by
  obtain ⟨member, stop⟩ := Graph.mem_linksTo.mp wired
  have fedSlot : 0 < g.feedCountAt ⟨index, link.stop.slot⟩ := by
    refine Nat.lt_of_lt_of_le (List.countP_pos_iff.mpr ⟨link, member, ?_⟩) (Nat.le_add_right _ _)
    rw [← stop]
    exact decide_eq_true rfl
  have ready := able.ready
  rw [fed.whole_callee able.calls] at ready
  obtain ⟨value, present⟩ := ready _ (fed.declared index inner callee able.calls _ fedSlot)
  exact source_of_feed fed.single inner runs wired present

/-! ### The pass of a node -/

/-- The pass in which a node runs, with the passes of its sources. -/
theorem Course.source_pass (course : f.Course g inputs depth failure events rows row)
    (fed : f.WellFed g) (inner : index ≠ 0)
    (member : (pass, index) ∈ Turn.timetable (rows ++ [row])) {link : Link}
    (wired : link ∈ g.linksTo index) :
    ∃ before, (before, link.start.node) ∈ Turn.timetable (rows ++ [row]) ∧
      before + (if index < link.start.node then 1 else 0) ≤ pass := by
  obtain ⟨story, able, earlier⟩ := course.starts pass index member
  obtain ⟨callee, able, _⟩ := canRun_of_circuit able
  have ran := fed.source_ran inner (runs_of_comes story.comes) able wired
  obtain ⟨before, known⟩ := story.exists_pass ran
  refine ⟨before, earlier.subset known, ?_⟩
  have count := story.pass_eq
  dsimp only at count
  have bound := (Turn.bounds_of_mem_timetable known).2
  rw [List.length_append, List.length_singleton, ← count] at bound
  split
  · next behind =>
    -- The turns of the current pass so far are those of nodes in front.
    rcases Turn.mem_timetable_concat.mp known with finished | ⟨_, current⟩
    · have := (Turn.bounds_of_mem_timetable finished).2
      omega
    · have front := (List.pairwise_append.mp story.ascending.2.1).2.2 _ current index
        List.mem_cons_self
      omega
  · exact bound

/-- **A node runs in the pass that it is due in.** -/
theorem Course.pass_eq (course : f.Course g inputs depth failure events rows row)
    (fed : f.WellFed g) (inner : index ≠ 0)
    (member : (pass, index) ∈ Turn.timetable (rows ++ [row])) {passOf : Nat → Nat}
    (known : ∀ {pass index}, (pass, index) ∈ Turn.timetable (rows ++ [row]) →
      passOf index = pass) :
    pass = g.duePass passOf index := by
  refine le_antisymm ?_ ((g.duePass_le_iff passOf index pass).mpr ⟨?_, fun link wired => ?_⟩)
  · obtain ⟨positive, due⟩ := (g.duePass_le_iff passOf index _).mp (le_refl _)
    by_cases later : 1 < pass
    · obtain ⟨link, inLinks, stop, _, _, prompted⟩ := course.prompted member later
      have bound := due link (Graph.mem_linksTo.mpr ⟨inLinks, stop⟩)
      rcases prompted with ⟨before, behind⟩ | ⟨now, front⟩
      · rw [if_pos behind, known before] at bound
        omega
      · rw [known now] at bound
        omega
    · exact (Nat.le_of_not_lt later).trans positive
  · exact (Turn.bounds_of_mem_timetable member).1
  · obtain ⟨before, inTimes, bound⟩ := course.source_pass fed inner member wired
    rw [known inTimes]
    exact bound

/-- The passes of nodes follow from the order of the nodes and the wires. -/
structure Scheduled (g : Graph Function) (passOf? : Nat → Option Nat) : Prop where
  input : passOf? 0 = some 1
  sources : ∀ index ≠ 0, ∀ pass, passOf? index = some pass →
    ∀ link ∈ g.linksTo index, (passOf? link.start.node).isSome
  due : ∀ index ≠ 0, ∀ pass, passOf? index = some pass →
    pass = g.duePass (fun node => (passOf? node).getD 0) index

/-- **A run of a well-fed composite is on schedule.** -/
theorem Course.scheduled (course : f.Course g inputs depth failure events rows row)
    (fed : f.WellFed g) : Scheduled g fun index => Event.passOf? depth index events := by
  refine ⟨(course.told 1 0).mpr course.input, fun index inner pass told link wired => ?_,
    fun index inner pass told => ?_⟩
  · obtain ⟨before, inTimes, _⟩ := course.source_pass fed inner ((course.told _ _).mp told) wired
    exact Option.isSome_iff_exists.mpr ⟨before, (course.told _ _).mpr inTimes⟩
  · refine course.pass_eq fed inner ((course.told _ _).mp told) fun member => ?_
    rw [(course.told _ _).mpr member]
    rfl

/-- A run that delivers does so in its last pass. -/
theorem Course.last_pass (course : f.Course g inputs depth failure events rows row)
    (wanting : f.dataOutputs ≠ []) (succeeds : failure = none) :
    Event.passOf? depth g.outputIndex events = some (Event.passCount depth events failure) := by
  rw [course.passes, course.told]
  exact Turn.mem_timetable_concat.mpr (Or.inr ⟨rfl, course.delivered wanting succeeds⟩)

/-! ### Reversed chains -/

/-- The nodes of a reversed chain by their place in it: the Input node, the nodes of the user from
the last one to the first one, and the Output node. -/
def chainAt (count : Nat) : Nat → Nat
  | 0 => 0
  | place + 1 => if place < count then count - place else count + 1

/-- The wires of a reversed chain, from the first data slot of each node to that of the next. -/
def chainLinks (count : Nat) : List Link :=
  (List.range (count + 1)).map fun place =>
    ⟨⟨chainAt count place, 1⟩, ⟨chainAt count (place + 1), 1⟩⟩

/-- A composite that takes its first input through a chain of nodes, which are listed from the last
one to the first one. Each of them calls a function of one data input that always answers. -/
structure ReversedChain (f : Function) (g : Graph Function) : Prop where
  nonempty : g.nodes ≠ []
  links : g.links.Perm (chainLinks g.nodes.length)
  values : ∀ node ∈ g.nodes, node.values = .initial
  outputValues : g.outputValues = .initial
  callees : ∀ node ∈ g.nodes, ∃ callee, find? g.roster node.function = some callee ∧
    callee.anyInput = false ∧ callee.inputs.length = 2 ∧
      ∀ value, ∃ result more,
        (callee.evaluate [.signal, value]).result = .ok (.signal :: result :: more)
  output : f.dataOutputs.length = 1

theorem chainAt_succ (count place : Nat) :
    chainAt count (place + 1) = if place < count then count - place else count + 1 := rfl

theorem chainAt_succ_ne_zero (count place : Nat) : chainAt count (place + 1) ≠ 0 := by
  rw [chainAt_succ]
  split <;> omega

theorem chainAt_succ_inj {count place other : Nat} (inside : place ≤ count)
    (within : other ≤ count) (same : chainAt count (place + 1) = chainAt count (other + 1)) :
    place = other := by
  rw [chainAt_succ, chainAt_succ] at same
  split at same <;> split at same <;> omega

theorem chainAt_le {count place : Nat} (inside : place ≤ count) : chainAt count place ≤ count := by
  cases place with
  | zero => exact Nat.zero_le count
  | succ place =>
    rw [chainAt_succ, if_pos (Nat.lt_of_succ_le inside)]
    exact Nat.sub_le count place

theorem chainAt_last (g : Graph Function) :
    chainAt g.nodes.length (g.nodes.length + 1) = g.outputIndex :=
  if_neg (Nat.lt_irrefl _)

namespace ReversedChain

/-! #### The feeds of a reversed chain -/

theorem mem_links (chain : f.ReversedChain g) {link : Link} :
    link ∈ g.links ↔ ∃ place ≤ g.nodes.length,
      link = ⟨⟨chainAt g.nodes.length place, 1⟩, ⟨chainAt g.nodes.length (place + 1), 1⟩⟩ := by
  rw [chain.links.mem_iff, chainLinks, List.mem_map]
  simp only [List.mem_range, Nat.lt_succ_iff, eq_comm]

theorem mem_linksTo (chain : f.ReversedChain g) {place : Nat} (inside : place ≤ g.nodes.length)
    {link : Link} :
    link ∈ g.linksTo (chainAt g.nodes.length (place + 1)) ↔
      link = ⟨⟨chainAt g.nodes.length place, 1⟩, ⟨chainAt g.nodes.length (place + 1), 1⟩⟩ := by
  rw [Graph.mem_linksTo, chain.mem_links]
  constructor
  · rintro ⟨⟨other, within, rfl⟩, stop⟩
    rw [chainAt_succ_inj within inside stop]
  · rintro rfl
    exact ⟨⟨place, inside, rfl⟩, rfl⟩

theorem valuesAt_eq (chain : f.ReversedChain g) (inner : index ≠ 0)
    (inside : index < g.nodeCount) : g.valuesAt index = .initial := by
  unfold Graph.valuesAt
  rcases g.index_cases index with first | ⟨place, within, rfl⟩ | rfl | beyond
  · exact absurd first inner
  · rw [Graph.allNodes_succ g within, List.getElem?_eq_getElem within]
    exact chain.values _ (List.getElem_mem within)
  · rw [Graph.allNodes_output]
    exact chain.outputValues
  · exact absurd inside (Nat.not_lt_of_le beyond)

theorem get?_valuesAt (chain : f.ReversedChain g) (inner : index ≠ 0) {slot : Nat} {value : Value}
    (set : (g.valuesAt index).get? slot = some value) : slot = 0 := by
  by_cases inside : index < g.nodeCount
  · rw [chain.valuesAt_eq inner inside, Slots.get?_initial] at set
    split at set
    · next first => exact first
    · cases set
  · have outside : g.allNodes[index]? = none := by
      rw [List.getElem?_eq_none_iff, Graph.length_allNodes]
      exact Nat.le_of_not_lt inside
    unfold Graph.valuesAt at set
    rw [outside] at set
    cases set

/-- The wires of a reversed chain end at different nodes. -/
theorem countP_links_le (chain : f.ReversedChain g) (place : Place) :
    (g.links.countP fun link => link.stop = place) ≤ 1 := by
  have apart : ((chainLinks g.nodes.length).map Link.stop).Nodup := by
    unfold chainLinks
    rw [List.map_map]
    refine List.Nodup.map_on (fun one first other second same => ?_) List.nodup_range
    exact chainAt_succ_inj (Nat.le_of_lt_succ (List.mem_range.mp first))
      (Nat.le_of_lt_succ (List.mem_range.mp second)) (congrArg Place.node same)
  have few := List.nodup_iff_count_le_one.mp apart place
  rw [List.count_eq_countP, List.countP_map] at few
  rw [chain.links.countP_eq]
  exact few

theorem single (chain : f.ReversedChain g) : g.SingleFed := by
  intro index inner slot
  have few := chain.countP_links_le ⟨index, slot⟩
  unfold Graph.feedCountAt
  by_cases set : ((g.valuesAt index).get? slot).isSome
  · obtain ⟨value, found⟩ := Option.isSome_iff_exists.mp set
    -- The value is in slot zero, where no wire ends.
    have first := chain.get?_valuesAt inner found
    have none : (g.links.countP fun link => link.stop = ⟨index, slot⟩) = 0 := by
      refine List.countP_eq_zero.mpr fun link member stop => ?_
      obtain ⟨place, _, rfl⟩ := chain.mem_links.mp member
      have ends := congrArg Place.slot (of_decide_eq_true stop)
      exact absurd (ends.trans first) Nat.one_ne_zero
    rw [none, if_pos set]
  · rw [if_neg set]
    exact few

theorem slot_lt_two (chain : f.ReversedChain g) (inner : index ≠ 0) {slot : Nat}
    (fed : 0 < g.feedCountAt ⟨index, slot⟩) : slot < 2 := by
  unfold Graph.feedCountAt at fed
  by_cases set : ((g.valuesAt index).get? slot).isSome
  · obtain ⟨value, found⟩ := Option.isSome_iff_exists.mp set
    rw [chain.get?_valuesAt inner found]
    decide
  · rw [if_neg set, Nat.add_zero, List.countP_pos_iff] at fed
    obtain ⟨link, member, stop⟩ := fed
    obtain ⟨place, _, rfl⟩ := chain.mem_links.mp member
    have ends : 1 = slot := congrArg Place.slot (of_decide_eq_true stop)
    omega

theorem callee_eq (chain : f.ReversedChain g) {callee : Function} (inner : index ≠ 0)
    (calls : f.calleeIn? g index = some callee) :
    callee.anyInput = false ∧ callee.inputs.length = 2 := by
  rcases calleeIn?_cases calls with ⟨first, _⟩ | ⟨_, rfl⟩ | ⟨place, inside, rfl, known⟩
  · exact absurd first inner
  · exact ⟨rfl, congrArg (· + 1) chain.output⟩
  · obtain ⟨other, found, whole, count, _⟩ := chain.callees _ (List.get_mem g.nodes ⟨place, inside⟩)
    cases known.symm.trans found
    exact ⟨whole, count⟩

/-- **A reversed chain is well fed.** -/
theorem wellFed (chain : f.ReversedChain g) : f.WellFed g := by
  refine ⟨fun node member callee known => ?_, chain.single,
    fun index inner callee calls slot fed => ?_⟩
  · obtain ⟨other, found, whole, _⟩ := chain.callees node member
    cases known.symm.trans found
    exact whole
  · rw [(chain.callee_eq inner calls).2]
    exact chain.slot_lt_two inner fed

/-! #### Runs of reversed chains succeed -/

/-- A node whose two slots are fed has the two feeds in order. -/
theorem feeds_eq (chain : f.ReversedChain g) (inner : index ≠ 0)
    (present : ∀ slot < 2, ∃ value, (slot, value) ∈ f.feedsAfter g log index) :
    ∃ first second, f.feedsAfter g log index = [(0, first), (1, second)] := by
  have slots := feedsAfter_slots (chain.single index inner)
    (fun slot fed => chain.slot_lt_two inner fed) present
  match f.feedsAfter g log index, slots with
  | [(slot, first), (other, second)], slots =>
    cases slots
    exact ⟨first, second, rfl⟩

theorem arguments (chain : f.ReversedChain g) (inner : index ≠ 0) {callee : Function}
    (able : f.CanRun g log index callee) :
    ∃ value, (f.feedsAfter g log index).map Prod.snd = [.signal, value] := by
  obtain ⟨whole, count⟩ := chain.callee_eq inner able.calls
  have ready := able.ready
  rw [whole, count] at ready
  obtain ⟨first, second, feeds⟩ := chain.feeds_eq inner ready
  obtain ⟨slot, rest, shape⟩ := able.allowed.resolve_left inner
  rw [feeds] at shape
  cases shape
  rw [feeds]
  exact ⟨second, rfl⟩

/-- A node of the user that can run answers. -/
theorem evaluates (chain : f.ReversedChain g) (inner : index ≠ 0) (inside : index ≠ g.outputIndex)
    {callee : Function} (able : f.CanRun g log index callee) :
    ∃ result more, (callee.evaluate ((f.feedsAfter g log index).map Prod.snd)).result =
      .ok (.signal :: result :: more) := by
  obtain ⟨node, member, _, known⟩ := calleeIn?_inner inner inside able.calls
  obtain ⟨other, found, _, _, answers⟩ := chain.callees node member
  cases known.symm.trans found
  obtain ⟨value, arguments⟩ := chain.arguments inner able
  rw [arguments]
  exact answers value

/-- Whatever ran in a reversed chain, the Output node apart, put out a value. -/
theorem answered (chain : f.ReversedChain g) (given : inputs ≠ []) (runs : f.Runs g inputs log)
    {outputs : List Value} (member : (index, outputs) ∈ log) (inside : index ≠ g.outputIndex) :
    ∃ result more, outputs = .signal :: result :: more := by
  rcases runs.ran member with ⟨earlier, _, produced⟩ | ⟨last, _⟩
  · cases produced with
    | input =>
      obtain ⟨first, rest, rfl⟩ := List.exists_cons_of_ne_nil given
      exact ⟨first, rest, rfl⟩
    | node able inner _ evaluated =>
      obtain ⟨result, more, answers⟩ := chain.evaluates inner inside able
      rw [evaluated] at answers
      cases answers
      exact ⟨result, more, rfl⟩
  · exact absurd last inside

theorem calls (chain : f.ReversedChain g) (inner : index ≠ 0) (inside : index < g.nodeCount) :
    ∃ callee, f.calleeIn? g index = some callee := by
  rcases g.index_cases index with first | ⟨place, within, rfl⟩ | rfl | beyond
  · exact absurd first inner
  · obtain ⟨callee, known, _⟩ := chain.callees _ (List.get_mem g.nodes ⟨place, within⟩)
    exact ⟨callee, (calleeIn?_node f within).trans known⟩
  · exact ⟨_, calleeIn?_output f g⟩
  · exact absurd inside (Nat.not_lt_of_le beyond)

/-- **A node can run once the one before it in the chain has run.** -/
theorem canRun_next (chain : f.ReversedChain g) (given : inputs ≠ []) (runs : f.Runs g inputs log)
    {place : Nat} (inside : place ≤ g.nodes.length)
    (ran : chainAt g.nodes.length place ∈ log.map Prod.fst) :
    ∃ callee, f.CanRun g log (chainAt g.nodes.length (place + 1)) callee := by
  have inner := chainAt_succ_ne_zero g.nodes.length place
  have within : chainAt g.nodes.length (place + 1) < g.nodeCount :=
    (Graph.link_inside (chain.mem_links.mpr ⟨place, inside, rfl⟩)).2
  obtain ⟨⟨source, outputs⟩, member, rfl⟩ := List.mem_map.mp ran
  have before := chainAt_le inside
  obtain ⟨result, more, rfl⟩ := chain.answered given runs member
    (show chainAt g.nodes.length place ≠ g.outputIndex by unfold Graph.outputIndex; omega)
  have gate : (0, .signal) ∈ f.feedsAfter g log (chainAt g.nodes.length (place + 1)) := by
    refine (runs.mem_feeds _ 0 .signal).mpr (Or.inl ?_)
    rw [chain.valuesAt_eq inner within]
    rfl
  have data : (1, result) ∈ f.feedsAfter g log (chainAt g.nodes.length (place + 1)) :=
    (runs.mem_feeds _ 1 result).mpr
      (Or.inr ⟨_, chain.mem_links.mpr ⟨place, inside, rfl⟩, rfl, _, member, rfl⟩)
  have present : ∀ slot < 2, ∃ value,
      (slot, value) ∈ f.feedsAfter g log (chainAt g.nodes.length (place + 1)) := by
    intro slot less
    match slot, less with
    | 0, _ => exact ⟨_, gate⟩
    | 1, _ => exact ⟨_, data⟩
  obtain ⟨callee, calls⟩ := chain.calls inner within
  obtain ⟨whole, count⟩ := chain.callee_eq inner calls
  obtain ⟨first, second, feeds⟩ := chain.feeds_eq inner present
  refine ⟨callee, calls, ?_, Or.inr ⟨0, [(1, second)], ?_⟩⟩
  · rw [whole, count]
    exact present
  · have signal : first = .signal := feedsAfter_unique (chain.single _ inner)
      (by rw [feeds]; exact List.mem_cons_self) gate
    rw [feeds, signal]

/-- **A reversed chain can stall only after all nodes have run.** -/
theorem ran_of_stuck (chain : f.ReversedChain g) (given : inputs ≠ [])
    (runs : f.Runs g inputs log) (stuck : f.Stuck g log) {place : Nat}
    (inside : place ≤ g.nodes.length + 1) : chainAt g.nodes.length place ∈ log.map Prod.fst := by
  induction place with
  | zero =>
    by_contra notRan
    exact stuck 0 (Nat.succ_pos _) notRan _ (canRun_input f g log)
  | succ place ih =>
    have within : place ≤ g.nodes.length := Nat.le_of_succ_le_succ inside
    obtain ⟨callee, able⟩ := chain.canRun_next given runs within (ih (Nat.le_of_lt inside))
    by_contra notRan
    have present := (Graph.link_inside (chain.mem_links.mpr ⟨place, within, rfl⟩)).2
    exact stuck _ present notRan callee able

/-- **Every run of a reversed chain on some input succeeds.** -/
theorem run_ok (chain : f.ReversedChain g) (composite : f.body = .composite g)
    (given : inputs ≠ []) : ∃ values, (f.run inputs).result = .ok values := by
  have ends := run_ends composite inputs
  generalize (f.run inputs).result = result at ends
  cases ends with
  | delivered runs able complete => exact ⟨_, rfl⟩
  | needless wanting => exact ⟨[], rfl⟩
  | failed runs inner inside able failed =>
    obtain ⟨result, more, evaluated⟩ := chain.evaluates inner inside able
    rw [evaluated] at failed
    cases failed
  | stalled runs wanting stuck refused =>
    have ran := chain.ran_of_stuck given runs stuck (le_refl (g.nodes.length + 1))
    rw [chainAt_last] at ran
    obtain ⟨earlier, callee, able, short⟩ := refused ran
    obtain ⟨value, arguments⟩ := chain.arguments g.outputIndex_ne_zero able
    have count : (f.delivery g earlier).length = 1 := by
      unfold delivery
      rw [List.map_drop, arguments]
      rfl
    exact absurd (count.trans chain.output.symm) short

theorem evaluateAt_ok (chain : f.ReversedChain g) (composite : f.body = .composite g) (depth : Nat)
    {arguments : List Value} (given : arguments.drop 1 ≠ []) :
    ∃ outputs, (f.evaluateAt depth arguments).result = .ok outputs := by
  obtain ⟨values, result⟩ := chain.run_ok composite given
  have evaluated := evaluate_composite composite arguments
  rw [result] at evaluated
  exact ⟨_, (evaluateAt_depth f depth 0 arguments).trans evaluated⟩

/-! #### The schedule of a reversed chain -/

variable {passOf? : Nat → Option Nat}

/-- Each node is due in the pass of the one before it, or in the next pass if that one is behind. -/
theorem pass_next (chain : f.ReversedChain g) (scheduled : Scheduled g passOf?) {place before : Nat}
    (inside : place ≤ g.nodes.length)
    (known : passOf? (chainAt g.nodes.length place) = some before)
    (started : (passOf? (chainAt g.nodes.length (place + 1))).isSome) :
    passOf? (chainAt g.nodes.length (place + 1)) = some (max 1 (before +
      if chainAt g.nodes.length (place + 1) < chainAt g.nodes.length place then 1 else 0)) := by
  obtain ⟨pass, found⟩ := Option.isSome_iff_exists.mp started
  have due := scheduled.due _ (chainAt_succ_ne_zero _ _) pass found
  rw [found, due]
  congr 1
  refine eq_of_forall_ge_iff fun bound => ?_
  rw [Graph.duePass_le_iff, max_le_iff]
  simp only [chain.mem_linksTo inside, forall_eq, known, Option.getD_some]

/-- If the Output node runs, then so do all the nodes of the chain. -/
theorem started (chain : f.ReversedChain g) (scheduled : Scheduled g passOf?)
    (ended : (passOf? g.outputIndex).isSome) {place : Nat} (inside : place ≤ g.nodes.length + 1) :
    (passOf? (chainAt g.nodes.length place)).isSome := by
  -- The induction goes from the end of the chain to its beginning.
  induction inside using Nat.decreasingInduction with
  | self =>
    rw [chainAt_last]
    exact ended
  | of_succ place less ih =>
    have within : place ≤ g.nodes.length := Nat.le_of_lt_succ less
    obtain ⟨pass, found⟩ := Option.isSome_iff_exists.mp ih
    exact scheduled.sources _ (chainAt_succ_ne_zero _ _) pass found _
      ((chain.mem_linksTo within).mpr rfl)

theorem pass_at (chain : f.ReversedChain g) (scheduled : Scheduled g passOf?)
    (ended : (passOf? g.outputIndex).isSome) {place : Nat} (inside : place ≤ g.nodes.length) :
    passOf? (chainAt g.nodes.length place) = some (max 1 place) := by
  induction place with
  | zero => exact scheduled.input
  | succ place ih =>
    have within : place ≤ g.nodes.length := Nat.le_of_succ_le inside
    rw [chain.pass_next scheduled within (ih within)
      (chain.started scheduled ended (Nat.le_succ_of_le inside))]
    congr 1
    cases place with
    | zero => rfl
    | succ place =>
      have behind : chainAt g.nodes.length (place + 2) < chainAt g.nodes.length (place + 1) := by
        rw [chainAt_succ, chainAt_succ, if_pos (Nat.lt_of_succ_le inside),
          if_pos (Nat.lt_of_succ_le within)]
        omega
      rw [if_pos behind]
      omega

/-- **The Output node of a reversed chain runs in the pass that is numbered as the nodes are.** -/
theorem pass_output (chain : f.ReversedChain g) (scheduled : Scheduled g passOf?)
    (ended : (passOf? g.outputIndex).isSome) :
    passOf? g.outputIndex = some g.nodes.length := by
  have some := List.length_pos_iff.mpr chain.nonempty
  rw [← chainAt_last] at ended ⊢
  rw [chain.pass_next scheduled (le_refl _)
    (chain.pass_at scheduled (chainAt_last g ▸ ended) (le_refl _)) ended]
  congr 1
  have before := chainAt_le (le_refl g.nodes.length)
  rw [chainAt_last, if_neg (by unfold Graph.outputIndex; omega)]
  omega

end ReversedChain

/-! ### The schedule of every run -/

/-- **The schedule of a run.** In a well-fed composite every node that runs does so in the pass that
its wires let it run in, after all nodes that these start at, and a run that delivers is over with
the pass of the Output node. A reversed chain takes as many passes as it has nodes. -/
theorem evaluateAt_schedule (composite : f.body = .composite g) (depth : Nat)
    (arguments : List Value) :
    let outcome := f.evaluateAt depth arguments
    let passOf? := fun index => Event.passOf? depth index outcome.events
    (f.WellFed g → Scheduled g passOf? ∧
      (f.dataOutputs ≠ [] → ∀ outputs, outcome.result = .ok outputs →
        passOf? g.outputIndex = some (outcome.passes depth))) ∧
    (f.ReversedChain g → arguments.drop 1 ≠ [] → ∃ outputs, outcome.result = .ok outputs ∧
      outcome.passes depth = g.nodes.length) := by
  obtain ⟨rows, row, course⟩ := evaluateAt_course composite depth arguments
  have last : f.dataOutputs ≠ [] → ∀ outputs, (f.evaluateAt depth arguments).result = .ok outputs →
      Event.passOf? depth g.outputIndex (f.evaluateAt depth arguments).events =
        some ((f.evaluateAt depth arguments).passes depth) :=
    fun wanting outputs succeeds => course.last_pass wanting (by rw [succeeds]; rfl)
  refine ⟨fun fed => ⟨course.scheduled fed, last⟩, fun chain given => ?_⟩
  obtain ⟨outputs, succeeds⟩ := chain.evaluateAt_ok composite depth given
  have wanting : f.dataOutputs ≠ [] := fun none => by
    have one := chain.output
    rw [none] at one
    cases one
  have ended := last wanting outputs succeeds
  have count := chain.pass_output (course.scheduled chain.wellFed)
    (Option.isSome_iff_exists.mpr ⟨_, ended⟩)
  exact ⟨outputs, succeeds, Option.some_injective _ (ended.symm.trans count)⟩

theorem reversedChain_backwards : backwards.ReversedChain backwardsGraph := by
  refine ⟨List.cons_ne_nil _ _, ?_, by decide +kernel, rfl, fun node member => ?_, rfl⟩
  · have same : backwardsGraph.links = chainLinks 2 := by decide +kernel
    rw [same]
    exact List.Perm.refl _
  · refine ⟨negation, ?_, rfl, rfl, fun value => ?_⟩
    · fin_cases member <;> rfl
    · have answers := evaluate_native (f := negation) rfl [.signal, value]
      exact ⟨_, [], answers⟩

theorem backwards_schedule : backwards.body = .composite backwardsGraph ∧
    backwards.WellFed backwardsGraph ∧ backwards.ReversedChain backwardsGraph ∧
    Scheduled backwardsGraph (fun index => Event.passOf? 0 index
      (backwards.evaluateAt 0 [.signal, .boolean true]).events) ∧
    ∃ outputs, (backwards.evaluateAt 0 [.signal, .boolean true]).result = .ok outputs ∧
      (backwards.evaluateAt 0 [.signal, .boolean true]).passes 0 = 2 := by
  have chain := reversedChain_backwards
  obtain ⟨scheduled, takes⟩ := evaluateAt_schedule (f := backwards) rfl 0 [.signal, .boolean true]
  exact ⟨rfl, chain.wellFed, chain, (scheduled chain.wellFed).1, takes chain (List.cons_ne_nil _ _)⟩

end Function

end FlowGraph
