/-
**The grammar of events.**

The events of a run follow a grammar. A run starts, tells its passes one after the other, and ends
by completing or by failing. A pass is a row of turns, in ascending order of the nodes, and the note
that the pass is over. A turn is the note that a node starts, followed by the whole run of its
callee one level deeper if the node is one of the user and calls a composite.

* `Function.Tells`, `Function.TellsTurn`: the grammar of runs and of turns;
* `Function.Tells.depth_le`: what a run tells is at its own depth or deeper;
* `Function.Tells.runCompleted_iff`: a run that completes tells how many passes it told;
* `Function.evaluateAt_tells`: **every evaluation of a composite follows the grammar.**
-/

import FlowGraph.Proofs.Composite

namespace FlowGraph

/-- The error in which a computation ended, if it failed. -/
def RunError.of? {α : Type} : Except RunError α → Option RunError
  | .ok _ => none
  | .error error => some error

@[simp] theorem RunError.of?_map {α β : Type} (convert : α → β) (result : Except RunError α) :
    RunError.of? (result.map convert) = RunError.of? result := by
  cases result <;> rfl

/-- Whether the event is the end of a pass at some depth. -/
def Event.isPassAt (depth : Nat) : Event → Bool
  | passCompleted _ _ _ found => found = depth
  | _ => false

/-- The rows of turns that the passes of a run can consist of: no node has two turns, those of a
pass are in ascending order, and the first turn is that of the Input node. -/
structure Turn.Orderly (rows : List (List Turn)) : Prop where
  ascending : ∀ row ∈ rows, (row.map Turn.index).Pairwise (· < ·)
  once : (rows.flatten.map Turn.index).Nodup
  opens : ∃ events row others, rows = (⟨0, events⟩ :: row) :: others

namespace Function

/-! ### The grammar -/

mutual

/-- The events of a run at some depth, and the error that the run ends in, if any. -/
inductive Tells : Function → Nat → Option RunError → List Event → Prop
  /-- The run completes after its last pass. -/
  | completed {f : Function} {g : Graph Function} {depth : Nat} {rows : List (List Turn)}
      {last : List Turn} (composite : f.body = .composite g)
      (orderly : Turn.Orderly (rows ++ [last])) (busy : ∀ row ∈ rows, row ≠ [])
      (turns : ∀ turn ∈ rows.flatten ++ last, TellsTurn f g depth none turn) :
      Tells f depth none
        (.runStarted f.id depth :: Turn.tellPasses f.id depth (rows ++ [last]) ++
          [.runCompleted f.id (rows.length + 1) depth])
  /-- The run fails after a pass without a turn. -/
  | stalled {f : Function} {g : Graph Function} {depth : Nat} {rows : List (List Turn)}
      (composite : f.body = .composite g) (orderly : Turn.Orderly rows)
      (busy : ∀ row ∈ rows, row ≠ [])
      (turns : ∀ turn ∈ rows.flatten, TellsTurn f g depth none turn) :
      Tells f depth (some ⟨none⟩)
        (.runStarted f.id depth :: Turn.tellPasses f.id depth (rows ++ [[]]) ++
          [.runFailed f.id (RunError.message ⟨none⟩) depth])
  /-- The run fails after the turn of a node whose own run failed. -/
  | broken {f : Function} {g : Graph Function} {depth : Nat} {rows : List (List Turn)}
      {last : List Turn} {turn : Turn} {error : RunError} (composite : f.body = .composite g)
      (orderly : Turn.Orderly (rows ++ [last ++ [turn]])) (busy : ∀ row ∈ rows, row ≠ [])
      (turns : ∀ turn ∈ rows.flatten ++ last, TellsTurn f g depth none turn)
      (fails : TellsTurn f g depth (some error) turn) :
      Tells f depth (some ⟨some turn.index⟩)
        (.runStarted f.id depth ::
            (Turn.tellPasses f.id depth rows ++ Turn.tell (last ++ [turn])) ++
          [.runFailed f.id (RunError.message ⟨some turn.index⟩) depth])

/-- The events of the turn of a node, and the error that the run of its callee ends in, if any. -/
inductive TellsTurn : Function → Graph Function → Nat → Option RunError → Turn → Prop
  /-- A virtual node, or a node that calls a native function. -/
  | plain {f : Function} {g : Graph Function} {depth index : Nat} {callee : Function} {id : NodeId}
      (calls : f.calleeIn? g index = some callee) (named : g.nodeIdAt? index = some id)
      (native : index = 0 ∨ index = g.outputIndex ∨ callee.isComposite = false) :
      TellsTurn f g depth none ⟨index, [.stepStarted callee.id index id depth]⟩
  /-- A node of the user that calls a composite. -/
  | nested {f : Function} {g : Graph Function} {depth index : Nat} {callee : Function}
      {id : NodeId} {failure : Option RunError} {events : List Event}
      (calls : f.calleeIn? g index = some callee) (named : g.nodeIdAt? index = some id)
      (inner : index ≠ 0) (inside : index ≠ g.outputIndex) (composite : callee.isComposite = true)
      (run : Tells callee (depth + 1) failure events) :
      TellsTurn f g depth failure ⟨index, .stepStarted callee.id index id depth :: events⟩

end

end Function

/-! ### Turns whose callees tell deeper events -/

/-- The turn notes the start of its node; all else that it tells is deeper. -/
def Turn.Deepens (depth : Nat) (turn : Turn) : Prop :=
  ∃ functionId nodeId events,
    turn.events = .stepStarted functionId turn.index nodeId depth :: events ∧
      ∀ event ∈ events, depth < event.depth

namespace Turn

variable {depth : Nat} {functionId : String} {rows : List (List Turn)} {row : List Turn}

/-- What a turn tells at its own depth is that its node starts. -/
theorem Deepens.mem {turn : Turn} (deepens : turn.Deepens depth) {event : Event}
    (member : event ∈ turn.events) :
    depth < event.depth ∨ ∃ id index nodeId, event = .stepStarted id index nodeId depth := by
  obtain ⟨id, nodeId, events, told, deeper⟩ := deepens
  rw [told] at member
  rcases List.mem_cons.mp member with first | later
  · exact Or.inr ⟨id, turn.index, nodeId, first⟩
  · exact Or.inl (deeper event later)

theorem mem_tell {event : Event} : event ∈ tell row ↔ ∃ turn ∈ row, event ∈ turn.events :=
  List.mem_flatMap

/-- Passes tell what their turns tell, and which passes are over. -/
theorem mem_tellPasses {event : Event} (member : event ∈ tellPasses functionId depth rows) :
    (∃ turn ∈ rows.flatten, event ∈ turn.events) ∨
      ∃ pass progressed, event = .passCompleted functionId pass progressed depth := by
  obtain ⟨⟨row, pass⟩, inRows, inPass⟩ := List.mem_flatMap.mp member
  rcases List.mem_append.mp inPass with inRow | ended
  · obtain ⟨turn, inRow, inTurn⟩ := mem_tell.mp inRow
    have present : row ∈ rows := List.fst_mem_of_mem_zipIdx inRows
    exact Or.inl ⟨turn, List.mem_flatten.mpr ⟨row, present, inRow⟩, inTurn⟩
  · exact Or.inr ⟨pass, _, List.mem_singleton.mp ended⟩

theorem countP_isPassAt_tell (deepens : ∀ turn ∈ row, turn.Deepens depth) :
    (tell row).countP (Event.isPassAt depth) = 0 := by
  refine List.countP_eq_zero.mpr fun event member isPass => ?_
  obtain ⟨turn, inRow, inTurn⟩ := mem_tell.mp member
  rcases (deepens turn inRow).mem inTurn with deeper | ⟨id, index, nodeId, rfl⟩
  · cases event with
    | passCompleted id pass progressed found =>
      exact absurd (of_decide_eq_true isPass) (Nat.ne_of_gt deeper)
    | _ => cases isPass
  · cases isPass

/-- **Passes tell the end of each of them once.** -/
theorem countP_isPassAt_tellPasses (deepens : ∀ turn ∈ rows.flatten, turn.Deepens depth) :
    (tellPasses functionId depth rows).countP (Event.isPassAt depth) = rows.length := by
  induction rows using List.reverseRecOn with
  | nil => rfl
  | append_singleton rows row ih =>
    rw [List.flatten_append, List.flatten_singleton] at deepens
    have old := ih fun turn member => deepens turn (List.mem_append_left _ member)
    have new := countP_isPassAt_tell fun turn member =>
      deepens turn (List.mem_append_right _ member)
    rw [tellPasses_concat, List.countP_append, List.countP_append, old, new, List.length_append]
    simp [Event.isPassAt]

end Turn

namespace Function

variable {f : Function} {g : Graph Function} {depth : Nat} {failure : Option RunError}
  {events : List Event}

/-- A turn deepens if what its callee tells is deep enough. -/
theorem TellsTurn.deepens {turn : Turn} (tells : TellsTurn f g depth failure turn)
    (callees : ∀ callee ∈ Folder.flatten g.roster, ∀ failure events,
      callee.Tells (depth + 1) failure events → ∀ event ∈ events, depth + 1 ≤ event.depth) :
    turn.Deepens depth := by
  cases tells with
  | @plain _ _ _ _ callee id calls named native =>
    exact ⟨callee.id, id, [], rfl, fun _ member => absurd member List.not_mem_nil⟩
  | @nested _ _ _ _ callee id _ events calls named inner inside composite run =>
    obtain ⟨node, _, _, known⟩ := calleeIn?_inner inner inside calls
    exact ⟨callee.id, id, events, rfl,
      callees callee (List.mem_of_find?_eq_some known) _ _ run⟩

/-- **What a run tells is at its own depth or deeper.** -/
theorem Tells.depth_le (tells : f.Tells depth failure events) :
    ∀ event ∈ events, depth ≤ event.depth := by
  induction f using Function.nesting_induction generalizing depth failure events with
  | step f ih =>
    have deepens : ∀ {g : Graph Function} {failure : Option RunError} {turn : Turn},
        f.body = .composite g → TellsTurn f g depth failure turn → turn.Deepens depth :=
      fun composite tells => tells.deepens fun callee member failure events run =>
        ih _ composite callee member run
    have turn : ∀ {turn : Turn}, turn.Deepens depth →
        ∀ event ∈ turn.events, depth ≤ event.depth := by
      intro turn deepens event member
      rcases deepens.mem member with deeper | ⟨_, _, _, rfl⟩
      · exact Nat.le_of_lt deeper
      · exact Nat.le_refl depth
    have passes : ∀ {rows : List (List Turn)}, (∀ turn ∈ rows.flatten, turn.Deepens depth) →
        ∀ event ∈ Turn.tellPasses f.id depth rows, depth ≤ event.depth := by
      intro rows deepens event member
      rcases Turn.mem_tellPasses member with ⟨told, inRows, inTurn⟩ | ⟨_, _, rfl⟩
      · exact turn (deepens told inRows) event inTurn
      · exact Nat.le_refl depth
    -- Whatever stands in between, the first and the last event are at the run's own depth.
    have framed : ∀ {inner : List Event} {last : Event}, last.depth = depth →
        (∀ event ∈ inner, depth ≤ event.depth) →
          ∀ event ∈ .runStarted f.id depth :: inner ++ [last], depth ≤ event.depth := by
      intro inner last own deep event member
      rcases List.mem_append.mp member with front | back
      · rcases List.mem_cons.mp front with rfl | inside
        · exact Nat.le_refl depth
        · exact deep event inside
      · rw [List.mem_singleton.mp back, own]
    cases tells with
    | completed composite orderly busy turns =>
      refine framed rfl (passes fun turn member => deepens composite (turns turn ?_))
      rw [List.flatten_append, List.flatten_singleton] at member
      exact member
    | stalled composite orderly busy turns =>
      refine framed rfl (passes fun turn member => deepens composite (turns turn ?_))
      rw [List.flatten_append, List.flatten_singleton, List.append_nil] at member
      exact member
    | broken composite orderly busy turns fails =>
      refine framed rfl fun event member => ?_
      rcases List.mem_append.mp member with earlier | current
      · exact passes (fun turn member => deepens composite
          (turns turn (List.mem_append_left _ member))) event earlier
      · obtain ⟨told, inRow, inTurn⟩ := Turn.mem_tell.mp current
        refine turn ?_ event inTurn
        rcases List.mem_append.mp inRow with before | last
        · exact deepens composite (turns told (List.mem_append_right _ before))
        · rw [List.mem_singleton.mp last]
          exact deepens composite fails

theorem TellsTurn.turn_deepens {turn : Turn} (tells : TellsTurn f g depth failure turn) :
    turn.Deepens depth :=
  tells.deepens fun _ _ _ _ run => run.depth_le

/-- **A run tells that it completes exactly if it does not fail**, and then tells the number of its
passes. -/
theorem Tells.runCompleted_iff (tells : f.Tells depth failure events) (passes : Nat) :
    .runCompleted f.id passes depth ∈ events ↔
      failure = none ∧ passes = events.countP (Event.isPassAt depth) := by
  have silent : ∀ {turn : Turn}, turn.Deepens depth →
      .runCompleted f.id passes depth ∉ turn.events := by
    intro turn deepens member
    rcases deepens.mem member with deeper | ⟨_, _, _, same⟩
    · exact absurd deeper (Nat.lt_irrefl depth)
    · cases same
  have absent : ∀ {rows : List (List Turn)}, (∀ turn ∈ rows.flatten, turn.Deepens depth) →
      .runCompleted f.id passes depth ∉ Turn.tellPasses f.id depth rows := by
    intro rows deepens member
    rcases Turn.mem_tellPasses member with ⟨turn, inRows, inTurn⟩ | ⟨_, _, same⟩
    · exact silent (deepens turn inRows) inTurn
    · cases same
  cases tells with
  | @completed _ _ _ rows last composite orderly busy turns =>
    have deepens : ∀ turn ∈ (rows ++ [last]).flatten, turn.Deepens depth := by
      intro turn member
      rw [List.flatten_append, List.flatten_singleton] at member
      exact (turns turn member).turn_deepens
    have count : (Turn.tellPasses f.id depth (rows ++ [last])).countP (Event.isPassAt depth) =
        rows.length + 1 := by
      rw [Turn.countP_isPassAt_tellPasses deepens, List.length_append]
      rfl
    simp [absent deepens, count, Event.isPassAt]
  | @stalled _ _ _ rows composite orderly busy turns =>
    have deepens : ∀ turn ∈ (rows ++ [[]]).flatten, turn.Deepens depth := by
      intro turn member
      rw [List.flatten_append, List.flatten_singleton, List.append_nil] at member
      exact (turns turn member).turn_deepens
    simp [absent deepens]
  | @broken _ _ _ rows last turn error composite orderly busy turns fails =>
    have deepens : ∀ turn ∈ rows.flatten, turn.Deepens depth := fun turn member =>
      (turns turn (List.mem_append_left _ member)).turn_deepens
    have current : .runCompleted f.id passes depth ∉ Turn.tell (last ++ [turn]) := by
      intro member
      obtain ⟨told, inRow, inTurn⟩ := Turn.mem_tell.mp member
      rcases List.mem_append.mp inRow with before | final
      · exact silent (turns told (List.mem_append_right _ before)).turn_deepens inTurn
      · rw [List.mem_singleton.mp final] at inTurn
        exact silent fails.turn_deepens inTurn
    simp [absent deepens, current]

/-! ### Evaluations follow the grammar -/

/-- A node of the circuit by the function that it calls and by its identifier. -/
theorem calls_of_canRun {pool : Pool} {index : Nat} {station : Station} {bound : Callee}
    (able : (f.circuit g).CanRun pool index station bound) :
    ∃ callee, f.calleeIn? g index = some callee ∧ bound.id = callee.id ∧
      g.nodeIdAt? index = some station.nodeId ∧
        (index ≠ 0 → index ≠ g.outputIndex → bound.evaluate = callee.evaluateAt) := by
  have located := able.located
  rw [stations_eq] at located
  unfold calleeIn? Graph.nodeIdAt?
  split at located
  · next first =>
    cases located
    cases able.calls
    exact ⟨f.inputBoundary, if_pos first, rfl, if_pos first, fun inner => absurd first inner⟩
  · next inner =>
    rw [if_neg inner, if_neg inner]
    split at located
    · next last =>
      cases located
      cases able.calls
      exact ⟨f.outputBoundary, if_pos last, rfl, if_pos last, fun _ inside => absurd last inside⟩
    · next inside =>
      rw [if_neg inside, if_neg inside]
      obtain ⟨node, found, rfl⟩ := Option.map_eq_some_iff.mp located
      have calls := able.calls
      rw [callee?_ofNode] at calls
      obtain ⟨callee, known, rfl⟩ := Option.map_eq_some_iff.mp calls
      rw [found]
      exact ⟨callee, known, by rw [callee_eq], rfl, fun _ _ => rfl⟩

/-- The turns of a story open with that of the Input node. -/
theorem opens_of_story {inputs : List Value} {rows : List (List Turn)} {row : List Turn}
    {m : Moment} (story : (f.circuit g).Story inputs depth rows row m)
    (later : m.ahead ≠ List.range (f.circuit g).stations.length) :
    ∃ events rest others, rows ++ [row] = (⟨0, events⟩ :: rest) :: others := by
  have able : ∀ pool, ∃ station callee, (f.circuit g).CanRun pool 0 station callee := fun pool =>
    ⟨_, _, rfl, rfl, rfl, rfl⟩
  rcases story.opens able with ⟨_, _, ahead⟩ | ⟨events, rest, opened⟩
  · exact absurd ahead later
  · cases rows with
    | nil => exact ⟨events, rest, [], by rw [← opened]; rfl⟩
    | cons first others =>
      cases first with
      | nil => exact absurd rfl (story.busy [] List.mem_cons_self)
      | cons turn turns =>
        cases List.head_eq_of_cons_eq opened
        exact ⟨events, turns, others ++ [row], rfl⟩

/-- The nodes ahead at the end of a pass are not those ahead at the start of the run. -/
theorem nil_ne_range (f : Function) (g : Graph Function) :
    [] ≠ List.range (f.circuit g).stations.length := by
  intro none
  have count := congrArg List.length none
  rw [List.length_range, length_stations] at count
  cases count

/-- The rows of a story that comes to the end of a pass. -/
theorem orderly_of_story {inputs : List Value} {rows : List (List Turn)} {row : List Turn}
    {m : Moment} (story : (f.circuit g).Story inputs depth rows row m) (done : m.ahead = []) :
    Turn.Orderly (rows ++ [row]) := by
  obtain ⟨finished, current, _⟩ := story.ascending
  refine ⟨fun other member => ?_, ?_, opens_of_story story (done ▸ nil_ne_range f g)⟩
  · rcases List.mem_append.mp member with old | new
    · exact finished other old
    · rw [List.mem_singleton.mp new]
      rw [done, List.append_nil] at current
      exact current
  · rw [List.flatten_append, List.flatten_singleton]
    exact story.once

/-- The rows of a story that breaks off. -/
theorem orderly_of_breaks {inputs : List Value} {rows : List (List Turn)} {row : List Turn}
    {turn : Turn} (breaks : (f.circuit g).Breaks inputs depth rows row turn) :
    Turn.Orderly (rows ++ [row ++ [turn]]) := by
  obtain ⟨current, once⟩ := breaks.orderly
  obtain ⟨story, inner, inside, able, failed⟩ := breaks
  refine ⟨fun other member => ?_, ?_, ?_⟩
  · rcases List.mem_append.mp member with old | new
    · exact story.ascending.1 other old
    · rw [List.mem_singleton.mp new]
      exact current
  · rw [List.flatten_append, List.flatten_singleton]
    exact once
  · -- The Input node never fails, so the story has told its turn before it breaks off.
    have later : ∀ {index : Nat} {rest : List Nat}, index ≠ 0 →
        index :: rest ≠ List.range (f.circuit g).stations.length := by
      intro index rest inner same
      have head := congrArg List.head? same
      rw [List.head?_range] at head
      split at head
      · cases head
      · exact inner (Option.some_injective _ head)
    obtain ⟨events, rest, others, opened⟩ := opens_of_story story (later inner)
    cases rows with
    | nil =>
      cases opened
      exact ⟨events, _, [], rfl⟩
    | cons first more =>
      cases List.head_eq_of_cons_eq opened
      exact ⟨events, rest, _, rfl⟩

section Evaluations

variable (callees : ∀ callee ∈ Folder.flatten g.roster, ∀ h, callee.body = .composite h →
    ∀ depth inputs, callee.Tells depth (RunError.of? (callee.evaluateAt depth inputs).result)
      (callee.evaluateAt depth inputs).events)

include callees

/-- **A turn follows the grammar** if the runs of composite callees do. -/
theorem tellsTurn_told (depth : Nat) {pool : Pool} {index : Nat} {station : Station}
    {bound : Callee} (able : (f.circuit g).CanRun pool index station bound) :
    (index = 0 ∨ index = g.outputIndex →
      TellsTurn f g depth none ⟨index, (f.circuit g).told depth pool index station bound⟩) ∧
    (index ≠ 0 → index ≠ g.outputIndex →
      TellsTurn f g depth (RunError.of? (bound.evaluate (depth + 1)
          (((f.circuit g).feeds pool index).map Prod.snd)).result)
        ⟨index, (f.circuit g).told depth pool index station bound⟩) := by
  obtain ⟨callee, calls, id, named, evaluate⟩ := calls_of_canRun able
  unfold Circuit.told
  rw [outputIndex_circuit, id]
  constructor
  · intro virtual
    rw [if_pos virtual]
    exact .plain calls named (virtual.imp_right Or.inl)
  · intro inner inside
    rw [if_neg (not_or.mpr ⟨inner, inside⟩), evaluate inner inside]
    obtain ⟨node, _, _, known⟩ := calleeIn?_inner inner inside calls
    cases body : callee.body with
    | native mapping =>
      rw [evaluateAt_native body]
      refine .plain calls named (Or.inr (Or.inr ?_))
      rw [isComposite, graph?, body]
      rfl
    | composite h =>
      exact .nested calls named inner inside (isComposite_of_body body)
        (callees callee (List.mem_of_find?_eq_some known) h body _ _)

theorem tellsTurn_of_took {turn : Turn} (took : (f.circuit g).Took depth turn) :
    TellsTurn f g depth none turn := by
  obtain @⟨pool, index, station, bound, able, succeeds⟩ := took
  obtain ⟨virtual, user⟩ := tellsTurn_told callees depth able
  by_cases first : index = 0
  · exact virtual (Or.inl first)
  · by_cases last : index = g.outputIndex
    · exact virtual (Or.inr last)
    · obtain ⟨outputs, evaluated⟩ := succeeds first (by rw [outputIndex_circuit]; exact last)
      have told := user first last
      rw [evaluated] at told
      exact told

theorem tellsTurn_of_breaks {inputs : List Value} {rows : List (List Turn)} {row : List Turn}
    {turn : Turn} (breaks : (f.circuit g).Breaks inputs depth rows row turn) :
    ∃ error, TellsTurn f g depth (some error) turn := by
  obtain ⟨story, inner, inside, able, failed⟩ := breaks
  rw [outputIndex_circuit] at inside
  have told := (tellsTurn_told callees depth able).2 inner inside
  rw [failed] at told
  exact ⟨_, told⟩

/-- **A closed story follows the grammar.** -/
theorem tells_of_closes (composite : f.body = .composite g) {inputs : List Value}
    {ending : Except RunError (List Value × Nat)}
    (closes : (f.circuit g).Closes inputs depth ending events) :
    f.Tells depth (RunError.of? ending)
      (.runStarted f.id depth :: events ++ [(f.circuit g).lastEvent depth ending]) := by
  cases closes with
  | accepted story accepted =>
    have count := story.pass_eq
    dsimp only at count
    rw [count]
    exact .completed composite (orderly_of_story story rfl) story.busy
      fun turn member => tellsTurn_of_took callees (story.took turn member)
  | @failed rows row turn breaks =>
    obtain ⟨error, fails⟩ := tellsTurn_of_breaks callees breaks
    have orderly := orderly_of_breaks breaks
    obtain ⟨story, _⟩ := breaks
    exact .broken composite orderly story.busy
      (fun turn member => tellsTurn_of_took callees (story.took turn member)) fails
  | @stalled rows pass waiting log story wanting stuck =>
    have orderly : Turn.Orderly rows := by
      obtain ⟨ascending, once, events, rest, others, opened⟩ := orderly_of_story story rfl
      rw [List.flatten_append, List.flatten_singleton, List.append_nil] at once
      refine ⟨fun row member => ascending row (List.mem_append_left _ member), once, ?_⟩
      cases rows with
      | nil => cases opened
      | cons first more =>
        cases List.head_eq_of_cons_eq opened
        exact ⟨events, rest, more, rfl⟩
    refine .stalled composite orderly story.busy fun turn member =>
      tellsTurn_of_took callees (story.took turn ?_)
    rw [List.append_nil]
    exact member

end Evaluations

theorem tells_evaluateAt (composite : f.body = .composite g) (depth : Nat) (inputs : List Value) :
    f.Tells depth (RunError.of? (f.evaluateAt depth inputs).result)
      (f.evaluateAt depth inputs).events := by
  induction f using Function.nesting_induction generalizing g depth inputs with
  | step f ih =>
    obtain ⟨ending, events, closes, run⟩ := (f.circuit g).run_closes (inputs.drop 1) depth
    rw [evaluateAt_composite composite, run, Outcome.signalled]
    dsimp only
    rw [RunError.of?_map, RunError.of?_map]
    exact tells_of_closes (fun callee member h body depth inputs =>
      ih g composite callee member body depth inputs) composite closes

/-- **Every evaluation of a composite follows the grammar.** It tells that it completes exactly if
it gives a result, and then tells the number of its passes. -/
theorem evaluateAt_tells (composite : f.body = .composite g) (depth : Nat) (inputs : List Value) :
    f.Tells depth (RunError.of? (f.evaluateAt depth inputs).result)
        (f.evaluateAt depth inputs).events ∧
      ∀ passes, .runCompleted f.id passes depth ∈ (f.evaluateAt depth inputs).events ↔
        RunError.of? (f.evaluateAt depth inputs).result = none ∧
          passes = (f.evaluateAt depth inputs).events.countP (Event.isPassAt depth) := by
  have tells := tells_evaluateAt composite depth inputs
  exact ⟨tells, tells.runCompleted_iff⟩

/-! ### A run that breaks off -/

/-- A composite that stalls, since nobody feeds its output. -/
def unfed : Function :=
  composite "unfed" "Unfed" [] [⟨.ofNat 1, "Flag", .boolean⟩] (.new [])

/-- A graph with one node, which calls the stalling composite. -/
def callerGraph : Graph Function :=
  { Graph.new [⟨"Own", [unfed]⟩] with nodes := [.new ⟨.ofNat 2⟩ "unfed" ⟨0, 0⟩] }

/-- A composite that calls a stalling one. -/
def caller : Function :=
  composite "caller" "Caller" [] [] callerGraph

theorem caller_tells : caller.body = .composite callerGraph ∧
    caller.Tells 0 (some ⟨some 1⟩) (caller.evaluateAt 0 [.signal]).events := by
  have failure : RunError.of? (caller.evaluateAt 0 [.signal]).result = some ⟨some 1⟩ := by
    decide +kernel
  exact ⟨rfl, failure ▸ (evaluateAt_tells rfl 0 [.signal]).1⟩

end Function

end FlowGraph
