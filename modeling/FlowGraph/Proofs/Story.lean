/-
**The story of a run.**

A run tells its events pass by pass, and within a pass turn by turn. `Circuit.Story` follows a run
together with the turns that it told: the finished passes, the turns of the current pass, and the
moment that the run has come to. `Circuit.Closes` says how a story can end and what was told then.

* `Circuit.step_told`: what the turn of a node tells;
* `Circuit.sweep_story`: one pass;
* `Circuit.drive_closes`: **every run closes its story**, with the result and the events that
  `Closes` gives;
* `Circuit.run_ends`: hence every run ends as `Ends` says;
* `Circuit.Story.log_indices`, `Circuit.Story.ascending`, `Circuit.Story.opens`: which nodes had
  their turns, and in which order.
-/

import FlowGraph.Proofs.Moments

namespace FlowGraph

/-- A turn in which a node ran, with all that was told in it. -/
structure Turn where
  index : Nat
  events : List Event

namespace Turn

/-- The events of a row of turns. -/
def tell (row : List Turn) : List Event :=
  row.flatMap Turn.events

/-- The events of passes, which are counted from one. -/
def tellPasses (functionId : String) (depth : Nat) (rows : List (List Turn)) : List Event :=
  (rows.zipIdx 1).flatMap fun pass =>
    tell pass.1 ++ [.passCompleted functionId pass.2 (!pass.1.isEmpty) depth]

theorem tell_append (row more : List Turn) : tell (row ++ more) = tell row ++ tell more :=
  List.flatMap_append

theorem tellPasses_concat (functionId : String) (depth : Nat) (rows : List (List Turn))
    (row : List Turn) :
    tellPasses functionId depth (rows ++ [row]) = tellPasses functionId depth rows ++
      (tell row ++ [.passCompleted functionId (rows.length + 1) (!row.isEmpty) depth]) := by
  unfold tellPasses
  rw [List.zipIdx_append, List.flatMap_append, Nat.add_comm 1]
  simp

end Turn

namespace Circuit

/-! ### What a turn tells -/

/-- What the turn of a node tells: that the node starts, and then, for a node of the user, what the
evaluation of its callee tells. -/
def told (c : Circuit) (depth : Nat) (pool : Pool) (index : Nat) (station : Station)
    (callee : Callee) : List Event :=
  .stepStarted callee.id index station.nodeId depth ::
    if index = 0 ∨ index = c.outputIndex then []
    else (callee.evaluate (depth + 1) ((c.feeds pool index).map Prod.snd)).events

section Turns

variable {c : Circuit} {inputs : List Value} {depth : Nat} {reached : Reached} {index : Nat}
  {events : List Event}

/-- **A node that has its turn tells so**, whether its turn succeeds or fails. -/
theorem step_told
    (turn : (∃ after, c.step inputs depth reached index = .runs after events) ∨
      c.step inputs depth reached index = .fails events) :
    ∃ station callee, c.CanRun reached.pool index station callee ∧
      events = c.told depth reached.pool index station callee := by
  by_cases able : ∃ station callee, c.CanRun reached.pool index station callee
  · obtain ⟨station, callee, able⟩ := able
    refine ⟨station, callee, able, ?_⟩
    rw [step_of_canRun able] at turn
    unfold told
    split at turn
    · next first =>
      rw [if_pos (Or.inl first)]
      rcases turn with ⟨after, turn⟩ | turn <;> cases turn
      rfl
    · next inner =>
      split at turn
      · next last =>
        rw [if_pos (Or.inr last)]
        rcases turn with ⟨after, turn⟩ | turn <;> cases turn
        rfl
      · next inside =>
        rw [if_neg (not_or.mpr ⟨inner, inside⟩)]
        dsimp only at turn
        split at turn <;> rcases turn with ⟨after, turn⟩ | turn <;> cases turn <;> rfl
  · rw [step_of_not_canRun fun station callee able' => able ⟨station, callee, able'⟩] at turn
    rcases turn with ⟨after, turn⟩ | turn <;> cases turn

/-- At most one function lets a node run. -/
theorem CanRun.unique {pool : Pool} {station other : Station} {callee bound : Callee}
    (able : c.CanRun pool index station callee) (also : c.CanRun pool index other bound) :
    station = other ∧ callee = bound := by
  have same : station = other :=
    Option.some_injective _ (able.located.symm.trans also.located)
  rw [← same] at also
  exact ⟨same, Option.some_injective _ (able.calls.symm.trans also.calls)⟩

end Turns

/-! ### Stories -/

/-- The run has told these passes and these turns of the current pass, and is at this moment. -/
inductive Story (c : Circuit) (inputs : List Value) (depth : Nat) :
    List (List Turn) → List Turn → Moment → Prop
  | start : Story c inputs depth [] [] ⟨1, List.range c.stations.length, [], [], none⟩
  | waits {rows : List (List Turn)} {row : List Turn} {pass index : Nat} {rest waiting : List Nat}
      {log : List (Nat × List Value)} {delivered? : Option (List Value)}
      (before : Story c inputs depth rows row ⟨pass, index :: rest, waiting, log, delivered?⟩)
      (unable : ∀ station callee, ¬ c.CanRun (c.poolOf log) index station callee) :
      Story c inputs depth rows row ⟨pass, rest, waiting ++ [index], log, delivered?⟩
  | produces {rows : List (List Turn)} {row : List Turn} {pass index : Nat}
      {rest waiting : List Nat} {log : List (Nat × List Value)} {delivered? : Option (List Value)}
      {station : Station} {callee : Callee} {outputs : List Value}
      (before : Story c inputs depth rows row ⟨pass, index :: rest, waiting, log, delivered?⟩)
      (able : c.CanRun (c.poolOf log) index station callee)
      (produced : c.Produces inputs depth (c.poolOf log) index outputs) :
      Story c inputs depth rows
        (row ++ [⟨index, c.told depth (c.poolOf log) index station callee⟩])
        ⟨pass, rest, waiting, log ++ [(index, outputs)], delivered?⟩
  | delivers {rows : List (List Turn)} {row : List Turn} {pass index : Nat}
      {rest waiting : List Nat} {log : List (Nat × List Value)} {delivered? : Option (List Value)}
      {station : Station} {callee : Callee}
      (before : Story c inputs depth rows row ⟨pass, index :: rest, waiting, log, delivered?⟩)
      (able : c.CanRun (c.poolOf log) index station callee)
      (inner : index ≠ 0) (last : index = c.outputIndex) :
      Story c inputs depth rows
        (row ++ [⟨index, c.told depth (c.poolOf log) index station callee⟩])
        ⟨pass, rest, waiting, log ++ [(index, [])], some (c.delivery (c.poolOf log))⟩
  | passes {rows : List (List Turn)} {row : List Turn} {pass : Nat} {waiting : List Nat}
      {log : List (Nat × List Value)} {delivered? : Option (List Value)}
      (before : Story c inputs depth rows row ⟨pass, [], waiting, log, delivered?⟩)
      (refused : c.accept? delivered? = none) (busy : row ≠ []) :
      Story c inputs depth (rows ++ [row]) [] ⟨pass + 1, waiting, [], log, none⟩

/-- A node that could run told this turn, and its own evaluation succeeded if there was one. -/
inductive Took (c : Circuit) (depth : Nat) : Turn → Prop
  | by {pool : Pool} {index : Nat} {station : Station} {callee : Callee}
      (able : c.CanRun pool index station callee)
      (succeeds : index ≠ 0 → index ≠ c.outputIndex → ∃ outputs,
        (callee.evaluate (depth + 1) ((c.feeds pool index).map Prod.snd)).result = .ok outputs) :
      Took c depth ⟨index, c.told depth pool index station callee⟩

/-- The story comes to the turn of a node whose own evaluation fails, and this is what it tells. -/
inductive Breaks (c : Circuit) (inputs : List Value) (depth : Nat) :
    List (List Turn) → List Turn → Turn → Prop
  | at {rows : List (List Turn)} {row : List Turn} {pass index : Nat} {rest waiting : List Nat}
      {log : List (Nat × List Value)} {delivered? : Option (List Value)} {station : Station}
      {callee : Callee} {error : RunError}
      (last : Story c inputs depth rows row ⟨pass, index :: rest, waiting, log, delivered?⟩)
      (inner : index ≠ 0) (inside : index ≠ c.outputIndex)
      (able : c.CanRun (c.poolOf log) index station callee)
      (failed : (callee.evaluate (depth + 1) ((c.feeds (c.poolOf log) index).map Prod.snd)).result =
        .error error) :
      Breaks c inputs depth rows row ⟨index, c.told depth (c.poolOf log) index station callee⟩

/-- How a story can end, and what has been told then. -/
inductive Closes (c : Circuit) (inputs : List Value) (depth : Nat) :
    Except RunError (List Value × Nat) → List Event → Prop
  | accepted {rows : List (List Turn)} {row : List Turn} {pass : Nat} {waiting : List Nat}
      {log : List (Nat × List Value)} {delivered? : Option (List Value)} {values : List Value}
      (last : c.Story inputs depth rows row ⟨pass, [], waiting, log, delivered?⟩)
      (accepted : c.accept? delivered? = some values) :
      Closes c inputs depth (.ok (values, pass))
        (Turn.tellPasses c.functionId depth (rows ++ [row]))
  | failed {rows : List (List Turn)} {row : List Turn} {turn : Turn}
      (breaks : c.Breaks inputs depth rows row turn) :
      Closes c inputs depth (.error ⟨some turn.index⟩)
        (Turn.tellPasses c.functionId depth rows ++ Turn.tell (row ++ [turn]))
  | stalled {rows : List (List Turn)} {pass : Nat} {waiting : List Nat}
      {log : List (Nat × List Value)}
      (last : c.Story inputs depth rows [] ⟨pass, [], waiting, log, none⟩)
      (wanting : c.outputCount ≠ 0)
      (stuck : ∀ index ∈ waiting, ∀ station callee,
        ¬ c.CanRun (c.poolOf log) index station callee) :
      Closes c inputs depth (.error ⟨none⟩)
        (Turn.tellPasses c.functionId depth (rows ++ [[]]))

/-! ### Runs tell their stories -/

section Telling

variable {c : Circuit} {inputs : List Value} {depth : Nat} {rows : List (List Turn)}
  {row : List Turn}

/-- **A pass**, from any moment of a story: it tells one turn for each node that is no longer
pending, and comes to the end of the pass or to a turn that fails. -/
theorem sweep_story {pass : Nat} {pending waiting : List Nat} {log : List (Nat × List Value)}
    {delivered? : Option (List Value)}
    (now : c.Story inputs depth rows row ⟨pass, pending, waiting, log, delivered?⟩) :
    let swept := c.sweep inputs depth ⟨c.poolOf log, delivered?⟩ pending
    (swept.failed? = none → ∃ more later, swept.events = Turn.tell more ∧
      more.length + swept.pending.length = pending.length ∧ swept.reached.pool = c.poolOf later ∧
      c.Story inputs depth rows (row ++ more)
        ⟨pass, [], waiting ++ swept.pending, later, swept.reached.delivered?⟩) ∧
    ∀ index, swept.failed? = some index → ∃ more turn, turn.index = index ∧
      swept.events = Turn.tell (more ++ [turn]) ∧
        c.Breaks inputs depth rows (row ++ more) turn := by
  induction pending generalizing waiting log delivered? row with
  | nil =>
    refine ⟨fun _ => ⟨[], log, rfl, rfl, rfl, ?_⟩,
      fun index failed => absurd failed.symm (Option.some_ne_none index)⟩
    rw [show (c.sweep inputs depth ⟨c.poolOf log, delivered?⟩ []).pending = [] from rfl,
      List.append_nil, List.append_nil]
    exact now
  | cons index rest ih =>
    dsimp only
    cases step : c.step inputs depth ⟨c.poolOf log, delivered?⟩ index with
    | waits =>
      obtain ⟨goesOn, fails⟩ := ih (now.waits (step_waits step))
      rw [sweep_waits step]
      refine ⟨fun unfailed => ?_, fails⟩
      obtain ⟨more, later, told, count, pool, story⟩ := goesOn unfailed
      rw [List.append_assoc] at story
      exact ⟨more, later, told, congrArg (· + 1) count, pool, story⟩
    | runs after events =>
      obtain ⟨station, callee, able, rfl⟩ := step_told (Or.inl ⟨_, step⟩)
      rw [sweep_runs step]
      -- Whatever the node does in its turn, the story goes on with that turn told.
      have next : ∃ log' delivered', after = ⟨c.poolOf log', delivered'⟩ ∧
          c.Story inputs depth rows
            (row ++ [⟨index, c.told depth (c.poolOf log) index station callee⟩])
            ⟨pass, rest, waiting, log', delivered'⟩ := by
        rcases step_runs step with ⟨outputs, produced, rfl⟩ | ⟨inner, last, _, rfl⟩
        · exact ⟨_, _, poolOf_extend .., now.produces able produced⟩
        · refine ⟨_, _, ?_, now.delivers able inner last⟩
          rw [poolOf_output]
      obtain ⟨log', delivered', rfl, story⟩ := next
      obtain ⟨goesOn, fails⟩ := ih story
      refine ⟨fun unfailed => ?_, fun failing failed => ?_⟩
      · obtain ⟨more, later, told, count, pool, story⟩ := goesOn unfailed
        rw [List.append_assoc] at story
        refine ⟨_ :: more, later, congrArg (_ ++ ·) told, ?_, pool, story⟩
        rw [List.length_cons, List.length_cons, ← count, Nat.succ_add]
      · obtain ⟨more, turn, same, told, breaks⟩ := fails failing failed
        rw [List.append_assoc] at breaks
        exact ⟨_ :: more, turn, same, congrArg (_ ++ ·) told, breaks⟩
    | fails events =>
      obtain ⟨inner, inside, station, callee, error, able, failed⟩ := step_fails step
      obtain ⟨_, _, able', rfl⟩ := step_told (Or.inr step)
      obtain ⟨rfl, rfl⟩ := able.unique able'
      rw [sweep_fails step]
      refine ⟨fun unfailed => absurd unfailed (Option.some_ne_none index), fun failing same => ?_⟩
      cases same
      refine ⟨[], ⟨index, c.told depth (c.poolOf log) index station callee⟩, rfl, ?_, ?_⟩
      · exact (List.append_nil _).symm
      · rw [List.append_nil]
        exact .at now inner inside able failed

/-- **The passes of a run**, from the start of any of them, close its story. -/
theorem drive_closes {pass : Nat} {pending : List Nat} {log : List (Nat × List Value)}
    (now : c.Story inputs depth rows [] ⟨pass, pending, [], log, none⟩)
    (count : pass = rows.length + 1) :
    c.Closes inputs depth (c.drive inputs depth pass (c.poolOf log) pending).result
      (Turn.tellPasses c.functionId depth rows ++
        (c.drive inputs depth pass (c.poolOf log) pending).events) := by
  -- Every pass but the last leaves fewer nodes pending.
  induction size : pending.length using Nat.strong_induction_on
    generalizing rows pass pending log with
  | _ bound ih =>
    obtain ⟨goesOn, fails⟩ := sweep_story now
    rw [drive]
    dsimp only
    cases failed : (c.sweep inputs depth ⟨c.poolOf log, none⟩ pending).failed? with
    | some index =>
      obtain ⟨more, turn, rfl, told, breaks⟩ := fails index failed
      dsimp only
      rw [told]
      exact .failed breaks
    | none =>
      obtain ⟨more, later, told, turns, pool, story⟩ := goesOn failed
      rw [List.nil_append, List.nil_append] at story
      have progressed : decide ((c.sweep inputs depth ⟨c.poolOf log, none⟩ pending).pending.length <
          pending.length) = !more.isEmpty := by
        cases more with
        | nil => simpa using Nat.le_of_eq (turns.symm.trans (Nat.zero_add _))
        | cons turn rest => simpa using (show _ < _ by rw [← turns, List.length_cons]; omega)
      have events : Turn.tellPasses c.functionId depth rows ++
          ((c.sweep inputs depth ⟨c.poolOf log, none⟩ pending).events ++
            [.passCompleted c.functionId pass (decide ((c.sweep inputs depth
              ⟨c.poolOf log, none⟩ pending).pending.length < pending.length)) depth]) =
          Turn.tellPasses c.functionId depth (rows ++ [more]) := by
        rw [told, progressed, Turn.tellPasses_concat, count]
      dsimp only
      cases accepted : c.accept?
          (c.sweep inputs depth ⟨c.poolOf log, none⟩ pending).reached.delivered? with
      | some values =>
        dsimp only
        rw [events]
        exact .accepted story accepted
      | none =>
        dsimp only
        split
        · next fewer =>
          have busy : more ≠ [] := by
            rintro rfl
            exact absurd (turns.symm.trans (Nat.zero_add _)) (Nat.ne_of_gt fewer)
          have further := ih _ (size ▸ fewer) (story.passes accepted busy) (by simp [count]) rfl
          rw [pool]
          dsimp only
          rw [← List.append_assoc, events]
          exact further
        · next idle =>
          obtain ⟨same, stuck⟩ := sweep_stalled failed (Nat.le_of_not_lt idle)
          have all : (c.sweep inputs depth ⟨c.poolOf log, none⟩ pending).pending = pending :=
            (sweep_sublist c inputs depth _ pending).eq_of_length_le (Nat.le_of_not_lt idle)
          have quiet : more = [] := List.length_eq_zero_iff.mp (by omega)
          rw [same] at pool story accepted
          rw [all, quiet] at story
          rw [events, quiet]
          refine .stalled story (fun none => ?_) fun index member => ?_
          · rw [accept?, if_pos none] at accepted
            cases accepted
          · rw [← show c.poolOf log = c.poolOf later from pool]
            exact stuck index member

/-- **Every run closes its story.** -/
theorem run_closes (c : Circuit) (inputs : List Value) (depth : Nat) :
    ∃ ending events, c.Closes inputs depth ending events ∧
      c.run depth inputs = ⟨ending.map Prod.fst,
        .runStarted c.functionId depth :: events ++ [c.lastEvent depth ending]⟩ := by
  refine ⟨_, _, drive_closes .start rfl, ?_⟩
  rw [poolOf_nil]
  rfl

end Telling

/-! ### What holds throughout a story -/

section Invariants

variable {c : Circuit} {inputs : List Value} {depth : Nat} {rows : List (List Turn)}
  {row : List Turn} {m : Moment}

namespace Story

/-- A story comes to moments of the run only. -/
theorem comes (story : c.Story inputs depth rows row m) : c.Comes inputs depth m := by
  induction story with
  | start => exact .start
  | waits before unable ih => exact ih.waits unable
  | produces before able produced ih => exact ih.produces produced
  | delivers before able inner last ih => exact ih.delivers inner last able
  | passes before refused busy ih => exact ih.passes refused

/-- The finished passes are all passes before the current one. -/
theorem pass_eq (story : c.Story inputs depth rows row m) : m.pass = rows.length + 1 := by
  induction story with
  | start => rfl
  | waits before unable ih => exact ih
  | produces before able produced ih => exact ih
  | delivers before able inner last ih => exact ih
  | passes before refused busy ih =>
    rw [List.length_append]
    exact congrArg (· + 1) ih

/-- **The nodes that ran are those that had their turns**, in the same order. -/
theorem log_indices (story : c.Story inputs depth rows row m) :
    m.log.map Prod.fst = (rows.flatten ++ row).map Turn.index := by
  induction story with
  | start => rfl
  | waits before unable ih => exact ih
  | produces before able produced ih =>
    rw [List.map_append, ← List.append_assoc, List.map_append, ← ih]
    rfl
  | delivers before able inner last ih =>
    rw [List.map_append, ← List.append_assoc, List.map_append, ← ih]
    rfl
  | passes before refused busy ih =>
    rw [List.flatten_append, List.flatten_singleton, List.append_nil]
    exact ih

/-- Every finished pass ran a node. -/
theorem busy (story : c.Story inputs depth rows row m) : ∀ earlier ∈ rows, earlier ≠ [] := by
  induction story with
  | start => exact fun _ member => absurd member List.not_mem_nil
  | waits before unable ih => exact ih
  | produces before able produced ih => exact ih
  | delivers before able inner last ih => exact ih
  | passes before refused busy ih =>
    intro earlier member
    rcases List.mem_append.mp member with old | new
    · exact ih earlier old
    · rw [List.mem_singleton.mp new]
      exact busy

/-- No node has two turns. -/
theorem once (story : c.Story inputs depth rows row m) :
    ((rows.flatten ++ row).map Turn.index).Nodup := by
  rw [← story.log_indices]
  exact (List.nodup_append.mp story.comes.nodup).1

/-- **Turns are taken in ascending order** of the nodes, in every pass. -/
theorem ascending (story : c.Story inputs depth rows row m) :
    (∀ earlier ∈ rows, (earlier.map Turn.index).Pairwise (· < ·)) ∧
      (row.map Turn.index ++ m.ahead).Pairwise (· < ·) ∧
        (m.waiting ++ m.ahead).Pairwise (· < ·) := by
  induction story with
  | start => exact ⟨fun _ member => absurd member List.not_mem_nil, List.pairwise_lt_range,
      List.pairwise_lt_range⟩
  | waits before unable ih =>
    obtain ⟨finished, current, pending⟩ := ih
    refine ⟨finished, current.sublist ?_, ?_⟩
    · exact (List.Sublist.refl _).append (List.sublist_cons_self _ _)
    · rw [List.append_assoc]
      exact pending
  | produces before able produced ih =>
    obtain ⟨finished, current, pending⟩ := ih
    refine ⟨finished, ?_, pending.sublist ?_⟩
    · rw [List.map_append, List.append_assoc]
      exact current
    · exact (List.Sublist.refl _).append (List.sublist_cons_self _ _)
  | delivers before able inner last ih =>
    obtain ⟨finished, current, pending⟩ := ih
    refine ⟨finished, ?_, pending.sublist ?_⟩
    · rw [List.map_append, List.append_assoc]
      exact current
    · exact (List.Sublist.refl _).append (List.sublist_cons_self _ _)
  | passes before refused busy ih =>
    obtain ⟨finished, current, pending⟩ := ih
    rw [List.append_nil] at current pending
    refine ⟨fun earlier member => ?_, pending, pending⟩
    rcases List.mem_append.mp member with old | new
    · exact finished earlier old
    · rw [List.mem_singleton.mp new]
      exact current

/-- **A run that the Input node can open** is opened by it. -/
theorem opens (able : ∀ pool, ∃ station callee, c.CanRun pool 0 station callee)
    (story : c.Story inputs depth rows row m) :
    (rows = [] ∧ row = [] ∧ m.ahead = List.range c.stations.length) ∨
      ∃ events rest, rows.flatten ++ row = ⟨0, events⟩ :: rest := by
  -- At the start the Input node is the first one ahead.
  have first : ∀ {index : Nat} {rest : List Nat},
      index :: rest = List.range c.stations.length → index = 0 := by
    intro index rest ahead
    have head := congrArg List.head? ahead
    rw [List.head?_range] at head
    split at head
    · cases head
    · exact Option.some_injective _ head
  induction story with
  | start => exact Or.inl ⟨rfl, rfl, rfl⟩
  | @waits _ _ _ _ _ _ log _ before unable ih =>
    rcases ih with ⟨_, _, ahead⟩ | opened
    · obtain ⟨station, callee, able⟩ := able (c.poolOf log)
      cases first ahead
      exact absurd able (unable station callee)
    · exact Or.inr opened
  | produces before able produced ih =>
    rcases ih with ⟨rfl, rfl, ahead⟩ | ⟨events, rest, opened⟩
    · cases first ahead
      exact Or.inr ⟨_, [], rfl⟩
    · exact Or.inr ⟨events, _, by rw [← List.append_assoc, opened]; rfl⟩
  | delivers before able inner last ih =>
    rcases ih with ⟨_, _, ahead⟩ | ⟨events, rest, opened⟩
    · exact absurd (first ahead) inner
    · exact Or.inr ⟨events, _, by rw [← List.append_assoc, opened]; rfl⟩
  | passes before refused busy ih =>
    rcases ih with ⟨_, quiet, _⟩ | ⟨events, rest, opened⟩
    · exact absurd quiet busy
    · exact Or.inr ⟨events, rest, by
        rw [List.flatten_append, List.flatten_singleton, List.append_nil, opened]⟩

/-- **Every turn of a story** is told by a node that could run and whose evaluation succeeded. -/
theorem took (story : c.Story inputs depth rows row m) :
    ∀ turn ∈ rows.flatten ++ row, c.Took depth turn := by
  induction story with
  | start => exact fun _ member => absurd member List.not_mem_nil
  | waits before unable ih => exact ih
  | produces before able produced ih =>
    intro turn member
    rw [← List.append_assoc] at member
    rcases List.mem_append.mp member with old | new
    · exact ih turn old
    · rw [List.mem_singleton.mp new]
      refine .by able fun inner inside => ?_
      cases produced with
      | input able' => exact absurd rfl inner
      | node able' _ _ evaluated =>
        obtain ⟨rfl, rfl⟩ := able.unique able'
        exact ⟨_, evaluated⟩
  | delivers before able inner last ih =>
    intro turn member
    rw [← List.append_assoc] at member
    rcases List.mem_append.mp member with old | new
    · exact ih turn old
    · rw [List.mem_singleton.mp new]
      exact .by able fun _ inside => absurd last inside
  | passes before refused busy ih =>
    rw [List.flatten_append, List.flatten_singleton, List.append_nil]
    exact ih

end Story

/-- A node whose turn fails did not run before, and comes behind all turns of its pass. -/
theorem Breaks.orderly {turn : Turn} (breaks : c.Breaks inputs depth rows row turn) :
    ((row ++ [turn]).map Turn.index).Pairwise (· < ·) ∧
      ((rows.flatten ++ (row ++ [turn])).map Turn.index).Nodup := by
  obtain ⟨story, inner, inside, able, failed⟩ := breaks
  constructor
  · rw [List.map_append]
    refine story.ascending.2.1.sublist ((List.Sublist.refl _).append ?_)
    exact List.singleton_sublist.mpr List.mem_cons_self
  · have fresh := story.comes.not_ran_of_ahead List.mem_cons_self
    rw [story.log_indices] at fresh
    rw [← List.append_assoc, List.map_append]
    exact List.concat_eq_append ▸ story.once.concat fresh

/-- What is left of a closed story without the events. -/
theorem Closes.ends {ending : Except RunError (List Value × Nat)} {events : List Event}
    (closes : c.Closes inputs depth ending events) : c.Ends inputs depth ending := by
  cases closes with
  | accepted last accepted => exact .accepted last.comes accepted
  | failed breaks =>
    obtain ⟨last, inner, inside, able, failed⟩ := breaks
    exact .failed last.comes inner inside able failed
  | stalled last wanting stuck => exact .stalled last.comes wanting stuck

/-- **Every run ends as `Ends` says.** -/
theorem run_ends (c : Circuit) (inputs : List Value) (depth : Nat) :
    ∃ ending, c.Ends inputs depth ending ∧ (c.run depth inputs).result = ending.map Prod.fst := by
  obtain ⟨ending, events, closes, run⟩ := c.run_closes inputs depth
  exact ⟨ending, closes.ends, by rw [run]⟩

end Invariants

end Circuit

end FlowGraph
