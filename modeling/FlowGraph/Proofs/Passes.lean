/-
**How many passes a run takes.**

A run has no limit on its passes, and yet it takes few. A node that runs after the first pass is
prompted by a wire, and whatever prompts it is a node of the user: the Input node ran in the first
pass, and the Output node puts out nothing. So every pass in which something runs holds a turn of a
node of the user, and so does the pass before it. No node has two turns, so there are no more such
passes than nodes.

* `Function.Course.prompted`: what prompts a node that runs after the first pass;
* `Function.Course.user_before`, `Function.Course.user_now`: the turns of nodes of the user that
  come with it;
* `Function.Course.length_le_nodes`: passes in which something runs are no more than nodes;
* `Function.evaluateAt_passes_le`: **the bounds on the passes of a run**;
* `Function.Course.pass_eq_one`: if all wires lead to nodes behind those that they start at, then
  nothing prompts a node after the first pass;
* `Function.evaluateAt_forward`: **a graph in the order of its wires needs one pass.**
-/

import Mathlib.Data.Finset.Card
import FlowGraph.Function.Fresh
import FlowGraph.Proofs.CleanReport
import FlowGraph.Proofs.Timetable

namespace FlowGraph

namespace Function

variable {f : Function} {g : Graph Function} {inputs : List Value} {depth : Nat}
  {failure : Option RunError} {events : List Event} {rows : List (List Turn)} {row : List Turn}
  {pass index : Nat}

/-! ### What prompts a turn -/

/-- A node that put something out comes before the Output node. -/
theorem Runs.index_lt_output {log : List (Nat × List Value)} (runs : f.Runs g inputs log)
    {outputs : List Value} (member : (index, outputs) ∈ log) (busy : outputs ≠ []) :
    index < g.outputIndex := by
  rcases runs.ran member with ⟨earlier, _, produced⟩ | ⟨_, silent⟩
  · cases produced with
    | input => exact Nat.succ_pos _
    | node able inner inside evaluated =>
      rcases calleeIn?_cases able.calls with ⟨first, _⟩ | ⟨last, _⟩ | ⟨place, within, rfl, _⟩
      · exact absurd first inner
      · exact absurd last inside
      · exact Nat.succ_lt_succ within
  · exact absurd silent busy

/-- The Input node has its turn in the first pass. -/
theorem Course.input (course : f.Course g inputs depth failure events rows row) :
    (1, 0) ∈ Turn.timetable (rows ++ [row]) := by
  obtain ⟨told, rest, others, opened⟩ := course.orderly.opens
  rw [opened]
  exact List.mem_cons_self

theorem Course.pass_unique (course : f.Course g inputs depth failure events rows row) {other : Nat}
    (one : (pass, index) ∈ Turn.timetable (rows ++ [row]))
    (two : (other, index) ∈ Turn.timetable (rows ++ [row])) : pass = other :=
  Turn.pass_unique course.orderly.once one two

/-- **A node that runs after the first pass is prompted by a node of the user**, behind it and in
the pass before or in front of it and in the same pass. -/
theorem Course.prompted (course : f.Course g inputs depth failure events rows row)
    (member : (pass, index) ∈ Turn.timetable (rows ++ [row])) (later : 1 < pass) :
    ∃ link ∈ g.links, link.stop.node = index ∧ link.start.node ≠ 0 ∧
      link.start.node < g.outputIndex ∧
      ((pass - 1, link.start.node) ∈ Turn.timetable (rows ++ [row]) ∧ index < link.start.node ∨
        (pass, link.start.node) ∈ Turn.timetable (rows ++ [row]) ∧ link.start.node < index) := by
  obtain ⟨story, able, earlier⟩ := course.starts pass index member
  obtain ⟨link, wired, stop, ⟨outputs, ran, busy⟩, place⟩ := story.prompted able later
  have before : link.start.node < g.outputIndex :=
    (runs_of_comes story.comes).index_lt_output ran busy
  refine ⟨link, wired, stop, fun first => ?_, before,
    place.imp (And.imp_left fun known => earlier.subset known)
      (And.imp_left fun known => earlier.subset known)⟩
  rw [first] at place
  rcases place with ⟨_, behind⟩ | ⟨known, _⟩
  · exact absurd behind (Nat.not_lt_zero index)
  · exact absurd (course.pass_unique (earlier.subset known) course.input) (Nat.ne_of_gt later)

/-! ### Turns of nodes of the user -/

/-- A node of the user has a turn in a pass. -/
def UserTurn (g : Graph Function) (rows : List (List Turn)) (pass : Nat) : Prop :=
  ∃ place < g.nodes.length, (pass, place + 1) ∈ Turn.timetable rows

theorem UserTurn.of_mem (member : (pass, index) ∈ Turn.timetable rows) (inner : index ≠ 0)
    (before : index < g.outputIndex) : UserTurn g rows pass := by
  refine ⟨index - 1, ?_, ?_⟩
  · unfold Graph.outputIndex at before
    omega
  · rw [Nat.sub_add_cancel (Nat.pos_of_ne_zero inner)]
    exact member

/-- **A pass in which something runs follows one in which a node of the user did.** -/
theorem Course.user_before (course : f.Course g inputs depth failure events rows row)
    (member : (pass, index) ∈ Turn.timetable (rows ++ [row])) (later : 1 < pass) :
    UserTurn g (rows ++ [row]) (pass - 1) := by
  -- What prompts the node in the same pass is a node in front of it, so that this comes to an end.
  induction index using Nat.strong_induction_on with
  | h index ih =>
    obtain ⟨link, _, _, inner, before, ⟨known, _⟩ | ⟨known, front⟩⟩ := course.prompted member later
    · exact .of_mem known inner before
    · exact ih _ front known

/-- **A pass after the first in which something runs is one in which a node of the user does.** -/
theorem Course.user_now (course : f.Course g inputs depth failure events rows row)
    (member : (pass, index) ∈ Turn.timetable (rows ++ [row])) (later : 1 < pass) :
    UserTurn g (rows ++ [row]) pass := by
  by_cases before : index < g.outputIndex
  · refine .of_mem member (fun first => ?_) before
    rw [first] at member
    exact absurd (course.pass_unique member course.input) (Nat.ne_of_gt later)
  · -- Nothing is behind the Output node.
    obtain ⟨link, _, _, inner, inside, ⟨_, behind⟩ | ⟨known, _⟩⟩ := course.prompted member later
    · exact absurd (behind.trans inside) before
    · exact .of_mem known inner inside

/-! ### Counting passes -/

/-- Passes that hold turns of different nodes of the user are no more than these nodes. -/
theorem length_le_of_userTurns {count : Nat} (once : (rows.flatten.map Turn.index).Nodup)
    (turns : ∀ earlier < count, UserTurn g rows (earlier + 1)) : count ≤ g.nodes.length := by
  choose! place inside member using turns
  have injective : Set.InjOn place (Finset.range count) := by
    intro one first other second same
    have known := member one (Finset.mem_range.mp first)
    rw [same] at known
    exact Nat.succ_injective
      (Turn.pass_unique once known (member other (Finset.mem_range.mp second)))
  have fits : Set.MapsTo place (Finset.range count) (Finset.range g.nodes.length) := by
    intro one first
    exact Finset.mem_coe.mpr (Finset.mem_range.mpr (inside one (Finset.mem_range.mp first)))
  simpa using Finset.card_le_card_of_injOn place fits injective

/-- **Passes in which something runs are no more than nodes of the user**, if there are several. -/
theorem Course.length_le_nodes (course : f.Course g inputs depth failure events rows row)
    {count : Nat} (several : 1 < count)
    (filled : ∀ pass, 1 < pass → pass ≤ count →
      ∃ index, (pass, index) ∈ Turn.timetable (rows ++ [row])) : count ≤ g.nodes.length := by
  refine length_le_of_userTurns course.orderly.once fun earlier less => ?_
  by_cases first : earlier = 0
  · obtain ⟨index, member⟩ := filled 2 Nat.one_lt_two several
    rw [first]
    exact course.user_before member Nat.one_lt_two
  · have later : 1 < earlier + 1 := by omega
    obtain ⟨index, member⟩ := filled (earlier + 1) later less
    exact course.user_now member later

/-- Something runs in every finished pass. -/
theorem Course.filled (course : f.Course g inputs depth failure events rows row)
    (positive : 1 ≤ pass) (finished : pass ≤ rows.length) :
    ∃ index, (pass, index) ∈ Turn.timetable (rows ++ [row]) := by
  obtain ⟨place, rfl⟩ := Nat.exists_eq_add_of_le' positive
  have found : rows[place]? = some (rows.get ⟨place, finished⟩) := List.getElem?_eq_getElem finished
  obtain ⟨turn, inRow⟩ := List.exists_mem_of_ne_nil _ (course.busy _ (List.get_mem _ _))
  refine ⟨turn.index, Turn.mem_timetable.mpr ⟨_, ?_, List.mem_map_of_mem inRow⟩⟩
  rw [List.getElem?_append_left finished, found]

theorem Course.finished_le (course : f.Course g inputs depth failure events rows row) :
    rows.length ≤ max 1 g.nodes.length := by
  by_cases several : 1 < rows.length
  · exact le_max_of_le_right (course.length_le_nodes several fun pass later finished =>
      course.filled (Nat.le_of_lt later) finished)
  · exact le_max_of_le_left (Nat.le_of_not_lt several)

/-- A run that delivers does so in its last pass, so that something runs in all of its passes. -/
theorem Course.all_le (course : f.Course g inputs depth failure events rows row)
    (wanting : f.dataOutputs ≠ []) (succeeds : failure = none) :
    rows.length + 1 ≤ max 1 g.nodes.length := by
  by_cases several : 1 < rows.length + 1
  · refine le_max_of_le_right (course.length_le_nodes several fun pass later within => ?_)
    by_cases finished : pass ≤ rows.length
    · exact course.filled (Nat.le_of_lt later) finished
    · have last : pass = rows.length + 1 := by omega
      exact ⟨g.outputIndex, Turn.mem_timetable_concat.mpr
        (Or.inr ⟨last, course.delivered wanting succeeds⟩)⟩
  · exact le_max_of_le_left (Nat.le_of_not_lt several)

/-- A run that needs no delivery goes on only after the one pass in which the Output node ran. -/
theorem Course.finished_le_one (course : f.Course g inputs depth failure events rows row)
    (needless : f.dataOutputs = []) : rows.length ≤ 1 := by
  by_contra several
  have turn : ∀ place < rows.length,
      (place + 1, g.outputIndex) ∈ Turn.timetable (rows ++ [row]) := by
    intro place less
    refine Turn.mem_timetable.mpr ⟨rows.get ⟨place, less⟩, ?_,
      course.needless needless _ (List.get_mem _ _)⟩
    rw [List.getElem?_append_left less]
    exact List.getElem?_eq_getElem less
  have same := course.pass_unique (turn 0 (by omega)) (turn 1 (by omega))
  exact absurd same (by decide)

/-- **The bounds on the passes of a run.** A run takes at most one pass more than there are nodes of
the user, and no more than these if it delivers. It takes at most two passes if there is nothing to
deliver. If it completes, then it tells this number of passes. -/
theorem evaluateAt_passes_le (composite : f.body = .composite g) (depth : Nat)
    (arguments : List Value) :
    let outcome := f.evaluateAt depth arguments
    outcome.passes depth ≤ max 1 g.nodes.length + 1 ∧
      (f.dataOutputs ≠ [] → ∀ outputs, outcome.result = .ok outputs →
        outcome.passes depth ≤ max 1 g.nodes.length) ∧
      (f.dataOutputs = [] → outcome.passes depth ≤ 2) ∧
      ∀ passes, .runCompleted f.id passes depth ∈ outcome.events →
        passes = outcome.passes depth := by
  obtain ⟨rows, row, course⟩ := evaluateAt_course composite depth arguments
  have count : (f.evaluateAt depth arguments).passes depth = rows.length + 1 := course.passes
  refine ⟨?_, fun wanting outputs succeeds => ?_, fun needless => ?_, fun passes told => ?_⟩
  · rw [count]
    exact Nat.succ_le_succ course.finished_le
  · rw [count]
    exact course.all_le wanting (by rw [succeeds]; rfl)
  · rw [count]
    exact Nat.succ_le_succ (course.finished_le_one needless)
  · obtain ⟨succeeds, same⟩ :=
      ((tells_evaluateAt composite depth arguments).runCompleted_iff passes).mp told
    rw [Outcome.passes, Event.passCount, succeeds, same]
    rfl

/-! ### A run that takes as many passes as it can -/

/-- A graph that negates twice, with the second negation in front of the first one. -/
def backwardsGraph : Graph Function :=
  { Graph.new [⟨"Logic", [negation]⟩] with
    nodes := [.new ⟨.ofNat 2⟩ "not" ⟨0, 0⟩, .new ⟨.ofNat 3⟩ "not" ⟨0, 0⟩]
    wires := [⟨⟨.ofNat 4⟩, ⟨.input, 1⟩, ⟨⟨.ofNat 3⟩, 1⟩⟩,
      ⟨⟨.ofNat 5⟩, ⟨⟨.ofNat 3⟩, 1⟩, ⟨⟨.ofNat 2⟩, 1⟩⟩,
      ⟨⟨.ofNat 6⟩, ⟨⟨.ofNat 2⟩, 1⟩, ⟨.output, 1⟩⟩] }

/-- A composite that negates twice. -/
def backwards : Function :=
  composite "backwards" "Backwards" [flag] [flag] backwardsGraph

theorem backwards_passes_le : backwards.body = .composite backwardsGraph ∧
    (backwards.evaluateAt 0 [.signal, .boolean true]).passes 0 = 2 ∧
    (backwards.evaluateAt 0 [.signal, .boolean true]).passes 0 ≤
      max 1 backwardsGraph.nodes.length := by
  have succeeds : (backwards.evaluateAt 0 [.signal, .boolean true]).result =
      .ok [.signal, .boolean true] := by
    decide +kernel
  refine ⟨rfl, by decide +kernel, ?_⟩
  exact (evaluateAt_passes_le rfl 0 _).2.1 (List.cons_ne_nil _ _) _ succeeds

end Function

/-! ### Graphs in the order of their wires -/

/-- Every wire leads to a node behind the one that it starts at. -/
def Graph.Forward (g : Graph Function) : Prop :=
  ∀ link ∈ g.links, link.start.node < link.stop.node

instance Graph.decidableForward (g : Graph Function) : Decidable g.Forward :=
  inferInstanceAs (Decidable (∀ link ∈ g.links, _))

namespace Function

variable {f : Function} {g : Graph Function} {inputs : List Value} {depth : Nat}
  {failure : Option RunError} {events : List Event} {rows : List (List Turn)} {row : List Turn}
  {pass index : Nat}

/-- **No node runs after the first pass** if all wires lead to nodes behind. -/
theorem Course.pass_eq_one (course : f.Course g inputs depth failure events rows row)
    (forward : g.Forward) (member : (pass, index) ∈ Turn.timetable (rows ++ [row])) :
    pass = 1 := by
  by_contra other
  have later : 1 < pass :=
    Nat.lt_of_le_of_ne (Turn.bounds_of_mem_timetable member).1 (Ne.symm other)
  -- What prompts the node is in front of it, and so it is prompted in the same pass.
  induction index using Nat.strong_induction_on with
  | h index ih =>
    obtain ⟨link, wired, stop, _, _, ⟨_, behind⟩ | ⟨known, front⟩⟩ := course.prompted member later
    · have ahead := forward link wired
      omega
    · exact ih _ front known

theorem Course.finished_le_one_of_forward
    (course : f.Course g inputs depth failure events rows row) (forward : g.Forward) :
    rows.length ≤ 1 := by
  by_cases none : rows.length = 0
  · exact none ▸ Nat.zero_le 1
  · obtain ⟨index, member⟩ := course.filled (Nat.pos_of_ne_zero none) (Nat.le_refl _)
    exact Nat.le_of_eq (course.pass_eq_one forward member)

/-- A run that delivers does so in its last pass, which is then the first one. -/
theorem Course.finished_eq_zero_of_forward
    (course : f.Course g inputs depth failure events rows row) (forward : g.Forward)
    (wanting : f.dataOutputs ≠ []) (succeeds : failure = none) : rows.length = 0 := by
  have last : (rows.length + 1, g.outputIndex) ∈ Turn.timetable (rows ++ [row]) :=
    Turn.mem_timetable_concat.mpr (Or.inr ⟨rfl, course.delivered wanting succeeds⟩)
  exact Nat.succ_injective (course.pass_eq_one forward last)

/-- A run that stalls has told a pass in which the Input node ran, and the one after it. -/
theorem Tells.two_le_passes (tells : f.Tells depth (some ⟨none⟩) events) :
    2 ≤ events.countP (Event.isPassAt depth) := by
  cases tells with
  | @stalled _ _ _ rows composite orderly busy turns =>
    have deepens : ∀ turn ∈ (rows ++ [[]]).flatten, turn.Deepens depth := by
      intro turn member
      rw [List.flatten_append, List.flatten_singleton, List.append_nil] at member
      exact (turns turn member).turn_deepens
    obtain ⟨told, rest, others, opened⟩ := orderly.opens
    have some : 1 ≤ rows.length := by
      rw [opened]
      exact Nat.succ_pos _
    have count : (Turn.tellPasses f.id depth (rows ++ [[]])).countP (Event.isPassAt depth) =
        rows.length + 1 := by
      rw [Turn.countP_isPassAt_tellPasses deepens, List.length_append]
      rfl
    rw [List.countP_append, List.countP_cons, count]
    omega

/-- **A graph in the order of its wires needs one pass.** If all wires lead to nodes behind those
that they start at, then no node runs after the first pass, whatever the nodes call and however
often their slots are fed. So a run that delivers takes one pass, and one that stalls is given up
after the second. -/
theorem evaluateAt_forward (composite : f.body = .composite g) (forward : g.Forward) (depth : Nat)
    (arguments : List Value) :
    let outcome := f.evaluateAt depth arguments
    (∀ index pass, Event.passOf? depth index outcome.events = some pass → pass = 1) ∧
      (f.dataOutputs ≠ [] → ∀ outputs, outcome.result = .ok outputs →
        outcome.passes depth = 1) ∧
      (outcome.result = .error ⟨none⟩ → outcome.passes depth = 2) := by
  obtain ⟨rows, row, course⟩ := evaluateAt_course composite depth arguments
  have count : (f.evaluateAt depth arguments).passes depth = rows.length + 1 := course.passes
  refine ⟨fun index pass told => ?_, fun wanting outputs succeeds => ?_, fun stalls => ?_⟩
  · exact course.pass_eq_one forward ((course.told pass index).mp told)
  · rw [count, course.finished_eq_zero_of_forward forward wanting (by rw [succeeds]; rfl)]
  · have few := course.finished_le_one_of_forward forward
    have tells := tells_evaluateAt composite depth arguments
    have told : (f.evaluateAt depth arguments).passes depth =
        (f.evaluateAt depth arguments).events.countP (Event.isPassAt depth) := by
      rw [Outcome.passes, Event.passCount, stalls]
      rfl
    rw [stalls] at tells
    have several := tells.two_le_passes
    omega

/-- A graph whose first node merges its two inputs, where the second one never comes and two wires
end at the first one. The second node negates what is merged and calls a composite for it. -/
def funnelGraph : Graph Function :=
  { Graph.new [⟨"Own", [((merge .boolean).run .counting).1, inverter]⟩] with
    nodes := [.new ⟨.ofNat 2⟩ "merge-boolean" ⟨0, 0⟩, .new ⟨.ofNat 3⟩ "inverter" ⟨0, 0⟩]
    wires := [⟨⟨.ofNat 4⟩, ⟨.input, 1⟩, ⟨⟨.ofNat 2⟩, 1⟩⟩,
      ⟨⟨.ofNat 5⟩, ⟨.input, 1⟩, ⟨⟨.ofNat 2⟩, 1⟩⟩,
      ⟨⟨.ofNat 6⟩, ⟨⟨.ofNat 2⟩, 1⟩, ⟨⟨.ofNat 3⟩, 1⟩⟩,
      ⟨⟨.ofNat 7⟩, ⟨⟨.ofNat 3⟩, 1⟩, ⟨.output, 1⟩⟩] }

/-- A composite with such a graph. -/
def funnel : Function :=
  composite "funnel" "Funnel" [flag] [flag] funnelGraph

theorem funnel_forward : funnel.body = .composite funnelGraph ∧ funnelGraph.Forward ∧
    (funnel.evaluateAt 0 [.signal, .boolean true]).result = .ok [.signal, .boolean false] ∧
    (funnel.evaluateAt 0 [.signal, .boolean true]).passes 0 = 1 ∧
    (funnel.evaluateAt 0 [.signal]).result = .error ⟨none⟩ ∧
    (funnel.evaluateAt 0 [.signal]).passes 0 = 2 := by
  have forward : funnelGraph.Forward := by decide +kernel
  have succeeds : (funnel.evaluateAt 0 [.signal, .boolean true]).result =
      .ok [.signal, .boolean false] := by
    decide +kernel
  have stalls : (funnel.evaluateAt 0 [.signal]).result = .error ⟨none⟩ := by decide +kernel
  refine ⟨rfl, forward, succeeds, ?_, stalls, ?_⟩
  · exact (evaluateAt_forward (f := funnel) rfl forward 0 _).2.1 (List.cons_ne_nil _ _) _ succeeds
  · exact (evaluateAt_forward (f := funnel) rfl forward 0 _).2.2 stalls

end Function

end FlowGraph
