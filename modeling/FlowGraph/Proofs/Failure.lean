/-
**Who is to blame for a failed run.**

A run fails in two ways. It breaks off at a node whose callee fails, and then names that node; or it
stalls, and then names none. The nodes that a run started are read off its events, and what they put
out follows from the order in which they ran.

* `Function.Runs.unique`: the values of a run are determined by the order of its nodes;
* `Function.run_finishes`: how a run ends and which nodes it started;
* `Function.Tells.nested_failure_iff`: the events of a run show whether a callee failed;
* `Function.run_blames`: **a failed run names the node whose callee failed, and no other.**
-/

import FlowGraph.Proofs.Trace

namespace FlowGraph

namespace Function

variable {f : Function} {g : Graph Function} {inputs : List Value}
  {log : List (Nat × List Value)} {index : Nat}

/-! ### A run is determined by the order of its nodes -/

theorem Produces.unique {outputs others : List Value} (one : f.Produces g inputs log index outputs)
    (other : f.Produces g inputs log index others) : outputs = others := by
  cases one with
  | input =>
    cases other with
    | input => rfl
    | node able inner => exact absurd rfl inner
  | node able inner inside evaluated =>
    cases other with
    | input => exact absurd rfl inner
    | node able' _ _ evaluated' =>
      cases Option.some_injective _ (able.calls.symm.trans able'.calls)
      rw [evaluated] at evaluated'
      exact Except.ok.inj evaluated'

/-- The last node of a log put its outputs out after all others, or is the Output node and could
run then. -/
theorem Runs.last_cases {outputs : List Value}
    (runs : f.Runs g inputs (log ++ [(index, outputs)])) :
    f.Produces g inputs log index outputs ∨
      (index = g.outputIndex ∧ outputs = []) ∧ ∃ callee, f.CanRun g log index callee := by
  generalize whole : log ++ [(index, outputs)] = all at runs
  cases runs with
  | start => simp at whole
  | produces before fresh produced =>
    obtain ⟨rfl, same⟩ := List.append_inj whole (by simpa using congrArg List.length whole)
    cases same
    exact Or.inl produced
  | delivers before fresh able =>
    obtain ⟨rfl, same⟩ := List.append_inj whole (by simpa using congrArg List.length whole)
    cases same
    exact Or.inr ⟨⟨rfl, rfl⟩, _, able⟩

theorem Runs.last {outputs : List Value} (runs : f.Runs g inputs (log ++ [(index, outputs)])) :
    f.Produces g inputs log index outputs ∨ (index = g.outputIndex ∧ outputs = []) :=
  runs.last_cases.imp_right And.left

/-- The Output node puts nothing into the pool. -/
theorem Produces.index_ne {outputs : List Value}
    (produced : f.Produces g inputs log index outputs) : index ≠ g.outputIndex := by
  cases produced with
  | input => exact g.outputIndex_ne_zero.symm
  | node _ _ inside => exact inside

/-- **The nodes that ran and their order determine what was put out.** -/
theorem Runs.unique {other : List (Nat × List Value)} (one : f.Runs g inputs log)
    (two : f.Runs g inputs other) (same : log.map Prod.fst = other.map Prod.fst) : log = other := by
  induction log using List.reverseRecOn generalizing other with
  | nil => exact (List.map_eq_nil_iff.mp same.symm).symm
  | append_singleton log entry ih =>
    rw [List.map_append] at same
    obtain ⟨before, rest, rfl, front, back⟩ := List.append_eq_map_iff.mp same
    obtain ⟨last, rfl, index⟩ := List.map_eq_singleton_iff.mp back
    cases ih (one.earlier_log (List.prefix_append ..)) (two.earlier_log (List.prefix_append ..))
      front.symm
    obtain ⟨index, outputs⟩ := entry
    obtain ⟨_, others⟩ := last
    cases index
    rcases one.last with produced | ⟨output, rfl⟩
    · rcases two.last with produced' | ⟨output, _⟩
      · rw [produced.unique produced']
      · exact absurd output produced.index_ne
    · rcases two.last with produced' | ⟨_, rfl⟩
      · exact absurd output produced'.index_ne
      · rfl

/-! ### How a run ends and which nodes it started -/

/-- How a run of a composite ends, together with the nodes that it started. -/
inductive Finishes (f : Function) (g : Graph Function) (inputs : List Value) :
    Except RunError (List Value) → List Nat → Prop
  | succeeds {log : List (Nat × List Value)} (runs : f.Runs g inputs log) (values : List Value) :
      Finishes f g inputs (.ok values) (log.map Prod.fst)
  | fails {log : List (Nat × List Value)} {index : Nat} {callee : Function} {error : RunError}
      (runs : f.Runs g inputs log) (inner : index ≠ 0) (inside : index ≠ g.outputIndex)
      (able : f.CanRun g log index callee)
      (failed : (callee.evaluate ((f.feedsAfter g log index).map Prod.snd)).result =
        .error error) :
      Finishes f g inputs (.error ⟨some index⟩) (log.map Prod.fst ++ [index])
  | stalls {log : List (Nat × List Value)} (runs : f.Runs g inputs log)
      (wanting : f.dataOutputs ≠ []) (stuck : f.Stuck g log) :
      Finishes f g inputs (.error ⟨none⟩) (log.map Prod.fst)

end Function

/-! ### Started nodes in the events -/

theorem Event.steps_append (events more : List Event) :
    Event.steps (events ++ more) = Event.steps events ++ Event.steps more :=
  List.filterMap_append

theorem Event.step?_eq_none {event : Event} (deeper : 0 < event.depth) : event.step? = none := by
  cases event with
  | stepStarted id index nodeId depth =>
    cases depth with
    | zero => exact absurd deeper (Nat.lt_irrefl 0)
    | succ depth => rfl
  | _ => rfl

namespace Turn

theorem Deepens.steps {turn : Turn} (deepens : turn.Deepens 0) :
    Event.steps turn.events = [turn.index] := by
  obtain ⟨functionId, nodeId, events, told, deeper⟩ := deepens
  have quiet : events.filterMap Event.step? = [] :=
    List.filterMap_eq_nil_iff.mpr fun event member => Event.step?_eq_none (deeper event member)
  rw [told, Event.steps, List.filterMap_cons, quiet]
  rfl

/-- A row of turns of the outermost run starts the nodes of its turns. -/
theorem steps_tell {row : List Turn} (deepens : ∀ turn ∈ row, turn.Deepens 0) :
    Event.steps (tell row) = row.map Turn.index := by
  induction row with
  | nil => rfl
  | cons turn rest ih =>
    have first := (deepens turn List.mem_cons_self).steps
    have others := ih fun other member => deepens other (List.mem_cons_of_mem _ member)
    rw [tell, List.flatMap_cons, Event.steps_append, first]
    exact congrArg (turn.index :: ·) others

/-- Passes of the outermost run start the nodes of their turns. -/
theorem steps_tellPasses {functionId : String} {rows : List (List Turn)}
    (deepens : ∀ turn ∈ rows.flatten, turn.Deepens 0) :
    Event.steps (tellPasses functionId 0 rows) = rows.flatten.map Turn.index := by
  induction rows using List.reverseRecOn with
  | nil => rfl
  | append_singleton rows row ih =>
    rw [List.flatten_append, List.flatten_singleton] at deepens ⊢
    have old := ih fun turn member => deepens turn (List.mem_append_left _ member)
    have new := steps_tell fun turn member => deepens turn (List.mem_append_right _ member)
    rw [tellPasses_concat, Event.steps_append, Event.steps_append, old, new, List.map_append]
    exact congrArg _ (List.append_nil _)

end Turn

namespace Function

section Finishing

variable {f : Function} {g : Graph Function} {inputs : List Value}

theorem deepens_of_took {turn : Turn} {depth : Nat} (took : (f.circuit g).Took depth turn) :
    turn.Deepens depth :=
  (tellsTurn_of_took (fun _ _ _ body => tells_evaluateAt body) took).turn_deepens

theorem deepens_of_breaks {rows : List (List Turn)} {row : List Turn} {turn : Turn} {depth : Nat}
    (breaks : (f.circuit g).Breaks inputs depth rows row turn) : turn.Deepens depth := by
  obtain ⟨_, tells⟩ := tellsTurn_of_breaks (fun _ _ _ body => tells_evaluateAt body) breaks
  exact tells.turn_deepens

/-- The nodes started in a story of the outermost run are those that ran. -/
theorem steps_of_story {rows : List (List Turn)} {row : List Turn} {m : Moment}
    (story : (f.circuit g).Story inputs 0 rows row m) :
    Event.steps (Turn.tellPasses f.id 0 rows) ++ Event.steps (Turn.tell row) =
      m.log.map Prod.fst := by
  have finished : ∀ turn ∈ rows.flatten, turn.Deepens 0 := fun turn member =>
    deepens_of_took (story.took turn (List.mem_append_left _ member))
  have current : ∀ turn ∈ row, turn.Deepens 0 := fun turn member =>
    deepens_of_took (story.took turn (List.mem_append_right _ member))
  rw [Turn.steps_tellPasses finished, Turn.steps_tell current, story.log_indices, List.map_append]

/-- The end of a pass starts no node. -/
theorem steps_tellPasses_concat (functionId : String) (rows : List (List Turn)) (row : List Turn) :
    Event.steps (Turn.tellPasses functionId 0 (rows ++ [row])) =
      Event.steps (Turn.tellPasses functionId 0 rows) ++ Event.steps (Turn.tell row) := by
  rw [Turn.tellPasses_concat, Event.steps_append, Event.steps_append]
  exact congrArg _ (List.append_nil _)

theorem finishes_of_closes {ending : Except RunError (List Value × Nat)} {events : List Event}
    (closes : (f.circuit g).Closes inputs 0 ending events) :
    f.Finishes g inputs (ending.map Prod.fst) (Event.steps events) := by
  cases closes with
  | accepted story accepted =>
    have steps := steps_of_story story
    rw [← steps_tellPasses_concat] at steps
    show f.Finishes g inputs (.ok _) (Event.steps (Turn.tellPasses f.id 0 _))
    rw [steps]
    exact .succeeds (runs_of_comes story.comes) _
  | failed breaks =>
    have last := (deepens_of_breaks breaks).steps
    obtain ⟨story, inner, inside, able, failed⟩ := breaks
    have steps := steps_of_story story
    show f.Finishes g inputs (.error _) (Event.steps (Turn.tellPasses f.id 0 _ ++ _))
    rw [Event.steps_append, Turn.tell_append, Event.steps_append, ← List.append_assoc, steps,
      Turn.tell, List.flatMap_singleton, last]
    rw [outputIndex_circuit] at inside
    obtain ⟨callee, able, bound⟩ := canRun_of_circuit able
    rw [bound.evaluate inner inside] at failed
    exact .fails (runs_of_comes story.comes) inner inside able
      ((evaluateAt_depth callee 0 _ _).trans failed)
  | stalled story wanting stuck =>
    have steps := steps_of_story story
    rw [← steps_tellPasses_concat] at steps
    show f.Finishes g inputs (.error _) (Event.steps (Turn.tellPasses f.id 0 _))
    rw [steps]
    exact .stalls (runs_of_comes story.comes)
      (fun none => wanting (List.length_eq_zero_iff.mpr none)) (stuck_of_comes story.comes stuck)

/-- The first and the last event of a run start no node. -/
theorem steps_run (composite : f.body = .composite g)
    {ending : Except RunError (List Value × Nat)} {events : List Event}
    (run : (f.circuit g).run 0 inputs = ⟨ending.map Prod.fst,
      .runStarted f.id 0 :: events ++ [(f.circuit g).lastEvent 0 ending]⟩) :
    Event.steps (f.run inputs).events = Event.steps events := by
  rw [events_run composite, run]
  show Event.steps ([Event.runStarted f.id 0] ++ events ++ [_]) = _
  rw [Event.steps_append, Event.steps_append]
  cases ending <;> exact List.append_nil _

/-- **How a run of a composite ends, and which nodes it started.** -/
theorem run_finishes (composite : f.body = .composite g) (inputs : List Value) :
    f.Finishes g inputs (f.run inputs).result (Event.steps (f.run inputs).events) := by
  obtain ⟨ending, events, closes, run⟩ := (f.circuit g).run_closes inputs 0
  rw [run_composite composite, steps_run composite run, run]
  exact finishes_of_closes closes

end Finishing

/-! ### Failures of callees in the events -/

section Failures

variable {f : Function} {g : Graph Function} {depth : Nat} {failure : Option RunError}
  {events : List Event}

/-- A turn without a failure tells none if the runs of callees without a failure tell none. -/
theorem TellsTurn.calm_of {turn : Turn} {id message : String} {deep : Nat}
    (tells : TellsTurn f g depth none turn)
    (callees : ∀ callee ∈ Folder.flatten g.roster, ∀ events,
      callee.Tells (depth + 1) none events → .runFailed id message deep ∉ events) :
    .runFailed id message deep ∉ turn.events := by
  intro member
  cases tells with
  | plain calls named native => cases List.mem_singleton.mp member
  | nested calls named inner inside composite run =>
    obtain ⟨node, _, _, known⟩ := calleeIn?_inner inner inside calls
    rcases List.mem_cons.mp member with same | nested
    · cases same
    · exact callees _ (List.mem_of_find?_eq_some known) _ run nested

/-- **No failure is told in a run that completes.** -/
theorem Tells.calm (tells : f.Tells depth none events) (id message : String) (deep : Nat) :
    .runFailed id message deep ∉ events := by
  induction f using Function.nesting_induction generalizing depth events with
  | step f ih =>
    cases tells with
    | @completed _ g _ rows last composite orderly busy turns =>
      intro member
      rcases List.mem_append.mp member with front | final
      · rcases List.mem_cons.mp front with same | told
        · cases same
        · rcases Turn.mem_tellPasses told with ⟨turn, inRows, inTurn⟩ | ⟨_, _, same⟩
          · rw [List.flatten_append, List.flatten_singleton] at inRows
            exact (turns turn inRows).calm_of
              (fun callee member _ run => ih g composite callee member run) inTurn
          · cases same
      · cases List.mem_singleton.mp final

theorem TellsTurn.calm {turn : Turn} (tells : TellsTurn f g depth none turn)
    (id message : String) (deep : Nat) : .runFailed id message deep ∉ turn.events :=
  tells.calm_of fun _ _ _ run => run.calm id message deep

/-- A run that fails tells so. -/
theorem Tells.runFailed_mem {error : RunError} (tells : f.Tells depth (some error) events) :
    .runFailed f.id error.message depth ∈ events := by
  cases tells with
  | stalled composite orderly busy turns => exact List.mem_append_right _ List.mem_cons_self
  | broken composite orderly busy turns fails => exact List.mem_append_right _ List.mem_cons_self

/-- **The failure of a callee shows in the events** exactly if the run names a node. -/
theorem Tells.nested_failure_iff (tells : f.Tells depth failure events) :
    (∃ id message deep, depth < deep ∧ .runFailed id message deep ∈ events) ↔
      ∃ index, failure = some ⟨some index⟩ := by
  cases tells with
  | completed composite orderly busy turns =>
    have quiet := (Tells.completed composite orderly busy turns).calm
    constructor
    · rintro ⟨id, message, deep, _, member⟩
      exact absurd member (quiet id message deep)
    · rintro ⟨_, same⟩
      cases same
  | @stalled _ _ _ rows composite orderly busy turns =>
    constructor
    · rintro ⟨id, message, deep, deeper, member⟩
      rcases List.mem_append.mp member with front | final
      · rcases List.mem_cons.mp front with same | told
        · cases same
        · rcases Turn.mem_tellPasses told with ⟨turn, inRows, inTurn⟩ | ⟨_, _, same⟩
          · rw [List.flatten_append, List.flatten_singleton, List.append_nil] at inRows
            exact absurd inTurn ((turns turn inRows).calm id message deep)
          · cases same
      · cases List.mem_singleton.mp final
        exact absurd deeper (Nat.lt_irrefl _)
    · rintro ⟨_, same⟩
      cases same
  | @broken _ _ _ rows last turn error composite orderly busy turns fails =>
    refine ⟨fun _ => ⟨turn.index, rfl⟩, fun _ => ?_⟩
    cases fails with
    | @nested _ _ _ index callee nodeId _ nested calls named inner inside isComposite run =>
      refine ⟨callee.id, error.message, depth + 1, Nat.lt_succ_self depth, ?_⟩
      refine List.mem_append_left _ (List.mem_cons_of_mem _ (List.mem_append_right _ ?_))
      rw [Turn.mem_tell]
      exact ⟨_, List.mem_append_right _ List.mem_cons_self,
        List.mem_cons_of_mem _ run.runFailed_mem⟩

end Failures

/-! ### Blame -/

/-- In the run of a composite a node of the user is started after the nodes of a log, and the
evaluation of its callee on the values collected for it fails. -/
structure NestedFailure (f : Function) (g : Graph Function) (inputs : List Value)
    (log : List (Nat × List Value)) (index : Nat) (callee : Function) (error : RunError) :
    Prop where
  runs : f.Runs g inputs log
  started : log.map Prod.fst ++ [index] <+: Event.steps (f.run inputs).events
  inner : index ≠ 0
  inside : index ≠ g.outputIndex
  calls : f.calleeIn? g index = some callee
  failed : (callee.evaluate ((f.feedsAfter g log index).map Prod.snd)).result = .error error

/-- Why a node cannot run after the nodes of a log: its function is unknown, a required input is
missing, or the first value collected for it is not the signal. -/
inductive Blocked (f : Function) (g : Graph Function) (log : List (Nat × List Value))
    (index : Nat) : Prop
  | unknown (unresolved : f.calleeIn? g index = none)
  | lacksInput {callee : Function} {slot : Nat} (calls : f.calleeIn? g index = some callee)
      (all : callee.anyInput = false) (declared : slot < callee.inputs.length)
      (missing : ∀ value, (slot, value) ∉ f.feedsAfter g log index)
  | lacksData {callee : Function} (calls : f.calleeIn? g index = some callee)
      (any : callee.anyInput = true) (few : (f.feedsAfter g log index).length ≤ 1)
  | gated (inner : index ≠ 0)
      (notSignal : (f.feedsAfter g log index).head?.map Prod.snd ≠ some .signal)

section Blame

variable {f : Function} {g : Graph Function} {inputs : List Value}
  {log : List (Nat × List Value)} {index : Nat}

theorem blocked_of_not_canRun (unable : ∀ callee, ¬ f.CanRun g log index callee) :
    f.Blocked g log index := by
  cases calls : f.calleeIn? g index with
  | none => exact .unknown calls
  | some callee =>
    by_cases allowed : index = 0 ∨ ∃ slot rest, f.feedsAfter g log index = (slot, .signal) :: rest
    · have unready : ¬ if callee.anyInput then 1 < (f.feedsAfter g log index).length
          else ∀ slot < callee.inputs.length, ∃ value, (slot, value) ∈ f.feedsAfter g log index :=
        fun ready => unable callee ⟨calls, ready, allowed⟩
      cases any : callee.anyInput with
      | true =>
        rw [any, if_pos rfl] at unready
        exact .lacksData calls any (Nat.le_of_not_lt unready)
      | false =>
        rw [any, if_neg Bool.false_ne_true] at unready
        push Not at unready
        obtain ⟨slot, declared, missing⟩ := unready
        exact .lacksInput calls any declared missing
    · obtain ⟨inner, notSignal⟩ := not_or.mp allowed
      refine .gated inner fun same => notSignal ?_
      cases feeds : f.feedsAfter g log index with
      | nil =>
        rw [feeds] at same
        cases same
      | cons feed rest =>
        rw [feeds] at same
        obtain ⟨slot, value⟩ := feed
        cases same
        exact ⟨slot, rest, rfl⟩

/-- A node whose callee fails is not among the nodes that ran. -/
theorem NestedFailure.not_ran {callee : Function} {error : RunError}
    (failure : f.NestedFailure g inputs log index callee error)
    {other : List (Nat × List Value)} (runs : f.Runs g inputs other) :
    ¬ log.map Prod.fst ++ [index] <+: other.map Prod.fst := by
  rintro ⟨later, same⟩
  obtain ⟨front, _, rfl, inFront, _⟩ := List.append_eq_map_iff.mp same
  obtain ⟨before, last, rfl, earlier, here⟩ := List.append_eq_map_iff.mp inFront.symm
  obtain ⟨⟨_, outputs⟩, rfl, rfl⟩ := List.map_eq_singleton_iff.mp here
  have ran := runs.earlier_log (List.prefix_append ..)
  cases (ran.earlier_log (List.prefix_append ..)).unique failure.runs earlier
  -- The node put its outputs out after exactly the log at which its callee fails.
  rcases ran.last with produced | ⟨output, _⟩
  · cases produced with
    | input => exact failure.inner rfl
    | node able _ _ evaluated =>
      cases Option.some_injective _ (able.calls.symm.trans failure.calls)
      rw [failure.failed] at evaluated
      cases evaluated
  · exact failure.inside output

/-- **The failure of a callee makes the run fail there**, whatever the callee's error names. -/
theorem NestedFailure.result {callee : Function} {error : RunError}
    (composite : f.body = .composite g)
    (failure : f.NestedFailure g inputs log index callee error) :
    (f.run inputs).result = .error ⟨some index⟩ := by
  have started := failure.started
  have finishes := run_finishes composite inputs
  generalize (f.run inputs).result = result at finishes
  generalize Event.steps (f.run inputs).events = steps at finishes started
  cases finishes with
  | succeeds runs values => exact absurd started (failure.not_ran runs)
  | stalls runs wanting stuck => exact absurd started (failure.not_ran runs)
  | fails runs inner inside able failed =>
    rcases List.prefix_concat_iff.mp started with same | earlier
    · cases List.append_inj_right' same rfl
      rfl
    · exact absurd earlier (failure.not_ran runs)

theorem index_bounds {callee : Function} (inner : index ≠ 0) (inside : index ≠ g.outputIndex)
    (calls : f.calleeIn? g index = some callee) : 1 ≤ index ∧ index ≤ g.nodes.length := by
  rcases calleeIn?_cases calls with ⟨first, _⟩ | ⟨last, _⟩ | ⟨place, within, rfl, _⟩
  · exact absurd first inner
  · exact absurd last inside
  · exact ⟨Nat.succ_pos place, within⟩

theorem isComposite_of_error {callee : Function} {arguments : List Value} {error : RunError}
    (failed : (callee.evaluate arguments).result = .error error) : callee.isComposite = true := by
  cases body : callee.body with
  | native mapping =>
    rw [evaluate_native body] at failed
    cases failed
  | composite h => exact isComposite_of_body body

theorem blame_of_index (composite : f.body = .composite g)
    (result : (f.run inputs).result = .error ⟨some index⟩) :
    1 ≤ index ∧ index ≤ g.nodes.length ∧ ∃ log callee error,
      f.NestedFailure g inputs log index callee error ∧ callee.isComposite = true ∧
        Event.steps (f.run inputs).events = log.map Prod.fst ++ [index] := by
  have finishes := run_finishes composite inputs
  rw [result] at finishes
  generalize steps : Event.steps (f.run inputs).events = started at finishes
  cases finishes with
  | @fails log _ callee error runs inner inside able failed =>
    obtain ⟨first, last⟩ := index_bounds inner inside able.calls
    refine ⟨first, last, log, callee, error, ?_, isComposite_of_error failed, rfl⟩
    exact ⟨runs, steps ▸ List.prefix_rfl, inner, inside, able.calls, failed⟩

theorem stall_of_none (composite : f.body = .composite g)
    (result : (f.run inputs).result = .error ⟨none⟩) :
    f.dataOutputs ≠ [] ∧ ∃ log, f.Runs g inputs log ∧
      Event.steps (f.run inputs).events = log.map Prod.fst ∧
        ∀ index < g.nodeCount, index ∉ log.map Prod.fst → f.Blocked g log index := by
  have finishes := run_finishes composite inputs
  rw [result] at finishes
  generalize Event.steps (f.run inputs).events = started at finishes
  cases finishes with
  | @stalls log runs wanting stuck =>
    exact ⟨wanting, log, runs, rfl, fun index inside notRan =>
      blocked_of_not_canRun (stuck index inside notRan)⟩

/-- The failure of a callee, at any depth, shows in the events of a run that names a node. -/
theorem runFailed_mem_iff (composite : f.body = .composite g) (inputs : List Value) :
    (∃ id message depth, 0 < depth ∧ .runFailed id message depth ∈ (f.run inputs).events) ↔
      ∃ index, (f.run inputs).result = .error ⟨some index⟩ := by
  have tells := (tells_evaluateAt composite 0 (.signal :: inputs)).nested_failure_iff
  have result : ∀ error, RunError.of? (f.evaluateAt 0 (.signal :: inputs)).result = some error ↔
      (f.run inputs).result = .error error := by
    intro error
    show _ ↔ (f.evaluateAt 0 (.signal :: inputs)).result.map _ = _
    cases (f.evaluateAt 0 (.signal :: inputs)).result <;> simp [RunError.of?, Except.map]
  refine tells.trans (exists_congr fun index => ?_)
  exact result ⟨some index⟩

/-- **A failed run names the node whose callee failed.** It names a node exactly if a callee failed,
and then that node, which is the last one started; it names none only if it declares outputs and no
node that has not run can run. -/
theorem run_blames (composite : f.body = .composite g) (inputs : List Value) :
    (∀ index, (f.run inputs).result = .error ⟨some index⟩ →
      1 ≤ index ∧ index ≤ g.nodes.length ∧ ∃ log callee error,
        f.NestedFailure g inputs log index callee error ∧ callee.isComposite = true ∧
          Event.steps (f.run inputs).events = log.map Prod.fst ++ [index]) ∧
    ((f.run inputs).result = .error ⟨none⟩ →
      (∀ log index callee error, ¬ f.NestedFailure g inputs log index callee error) ∧
        f.dataOutputs ≠ [] ∧ ∃ log, f.Runs g inputs log ∧
          Event.steps (f.run inputs).events = log.map Prod.fst ∧
            ∀ index < g.nodeCount, index ∉ log.map Prod.fst → f.Blocked g log index) ∧
    (∀ log index callee error, f.NestedFailure g inputs log index callee error →
      (f.run inputs).result = .error ⟨some index⟩) ∧
    ((∃ id message depth, 0 < depth ∧ .runFailed id message depth ∈ (f.run inputs).events) ↔
      ∃ index, (f.run inputs).result = .error ⟨some index⟩) ∧
    (f.dataOutputs = [] → (f.run inputs).result ≠ .error ⟨none⟩) := by
  refine ⟨fun index => blame_of_index composite, fun result => ⟨?_, stall_of_none composite result⟩,
    fun log index callee error => NestedFailure.result composite,
    runFailed_mem_iff composite inputs,
    fun needless result => (stall_of_none composite result).1 needless⟩
  intro log index callee error failure
  have blamed := failure.result composite
  rw [result] at blamed
  cases blamed

theorem caller_blames : (caller.run []).result = .error ⟨some 1⟩ ∧ ∃ log callee error,
    caller.NestedFailure callerGraph [] log 1 callee error ∧ callee.isComposite = true := by
  have result : (caller.run []).result = .error ⟨some 1⟩ := by decide +kernel
  obtain ⟨_, _, log, callee, error, failure, isComposite, _⟩ := (run_blames rfl []).1 1 result
  exact ⟨result, log, callee, error, failure, isComposite⟩

end Blame

end Function

end FlowGraph
