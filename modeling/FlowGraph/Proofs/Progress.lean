/-
**Good composites never stall.**

A composite is good if its report is clean, every input that a node needs is fed, its wires form no
cycle, and the functions that its nodes call put out as many values as they declare, those that are
composites being good in turn. Then every node gets to run: a node that has not run, but whose wires
all start at nodes that have, has everything that it needs.

* `Graph.acyclic_induction`: induction along the wires;
* `Function.GoodLevel.signal_of_slot_zero`: whatever arrives at a first slot is the signal;
* `Function.GoodLevel.ran_of_stuck`: a run can stall only after all nodes have run;
* `Function.Good.run_succeeds`: **every run of a good composite gives one value for each output.**
-/

import FlowGraph.Proofs.CleanReport

namespace FlowGraph

/-! ### Induction along the wires -/

namespace Graph

variable {F : Type} {g : Graph F}

/-- A wire leads from one node to another. -/
def Leads (g : Graph F) (source target : Nat) : Prop :=
  ∃ link ∈ g.links, link.start.node = source ∧ link.stop.node = target

/-- The wires of a graph form no cycle. -/
def Acyclic (g : Graph F) : Prop :=
  ∀ index, ¬ Relation.TransGen g.Leads index index

/-- Wires that all lead forwards form no cycle. -/
theorem acyclic_of_forward (forward : ∀ link ∈ g.links, link.start.node < link.stop.node) :
    g.Acyclic := by
  have less : ∀ {source target}, Relation.TransGen g.Leads source target → source < target := by
    intro source target path
    induction path with
    | single lead =>
      obtain ⟨link, member, rfl, rfl⟩ := lead
      exact forward link member
    | tail _ lead ih =>
      obtain ⟨link, member, rfl, rfl⟩ := lead
      exact ih.trans (forward link member)
  exact fun index cycle => Nat.lt_irrefl index (less cycle)

/-- **Induction along the wires** of a graph without cycles. -/
theorem acyclic_induction (acyclic : g.Acyclic) {motive : Nat → Prop}
    (step : ∀ index < g.nodeCount,
      (∀ link ∈ g.links, link.stop.node = index → motive link.start.node) → motive index) :
    ∀ index < g.nodeCount, motive index := by
  let before : Fin g.nodeCount → Fin g.nodeCount → Prop := fun i j =>
    Relation.TransGen g.Leads i.val j.val
  have : IsTrans (Fin g.nodeCount) before := ⟨fun _ _ _ first second => first.trans second⟩
  have : Std.Irrefl before := ⟨fun i => acyclic i.val⟩
  have wellFounded : WellFounded before := Finite.wellFounded_of_trans_of_irrefl before
  intro index inside
  have every : ∀ i : Fin g.nodeCount, motive i.val := by
    intro i
    induction i using wellFounded.induction with
    | _ i ih =>
      refine step i.val i.isLt fun link member stop => ?_
      have start := (link_inside member).1
      exact ih ⟨link.start.node, start⟩ (.single ⟨link, member, rfl, stop⟩)
  exact every ⟨index, inside⟩

end Graph

namespace Function

/-! ### Good composites -/

/-- What makes a composite good, the composites that it calls apart. -/
structure GoodLevel (f : Function) (g : Graph Function) : Prop where
  distinct : g.DistinctIds
  report : f.validate none = []
  /-- Every input that a node other than the Input node declares has a wire or a value. -/
  fed : ∀ index ≠ 0, ∀ callee, f.calleeIn? g index = some callee →
    ∀ slot < callee.inputs.length, 0 < g.feedCountAt ⟨index, slot⟩
  signals : ∀ index value, (g.valuesAt index).get? 0 = some value → value = .signal
  data : ∀ p ∈ f.reachableParameters, p.isControlFlow = false
  unreserved : ∀ h ∈ Folder.flatten g.roster, h.id ≠ inputFunctionId ∧ h.id ≠ outputFunctionId
  whole : f.anyInput = false
  acyclic : g.Acyclic
  natives : ∀ node ∈ g.nodes, ∀ callee, find? g.roster node.function = some callee →
    ∀ mapping, callee.body = .native mapping →
      (∀ arguments, (mapping arguments).length = callee.dataOutputs.length) ∧
        (callee.anyInput = true → callee.dataInputs ≠ [])

/-- Good composites. -/
inductive Good : Function → Prop
  | intro {f : Function} {g : Graph Function} (composite : f.body = .composite g)
      (level : f.GoodLevel g)
      (callees : ∀ node ∈ g.nodes, ∀ callee, find? g.roster node.function = some callee →
        callee.isComposite = true → Good callee) :
      Good f

theorem Good.whole {f : Function} (good : f.Good) : f.anyInput = false := by
  cases good with
  | intro composite level callees => exact level.whole

/-- Evaluation on one value for each input gives the signal and one value for each data output. -/
def Answers (f : Function) : Prop :=
  ∀ arguments : List Value, arguments.length = f.dataInputs.length + 1 →
    ∃ values, (f.evaluate arguments).result = .ok (.signal :: values) ∧
      values.length = f.dataOutputs.length

variable {f : Function} {g : Graph Function} {inputs : List Value}
  {log : List (Nat × List Value)}

namespace GoodLevel

/-! ### Slots of the functions that nodes call -/

theorem isControlFlow_eq_false {h : Function} {p : Parameter} (composite : f.body = .composite g)
    (level : f.GoodLevel g) (reachable : h = f ∨ h ∈ Folder.flatten g.roster)
    (member : p ∈ h.dataInputs ++ h.dataOutputs) : p.isControlFlow = false := by
  refine level.data p (List.mem_flatMap.mpr ⟨h, ?_, member⟩)
  unfold callable graph?
  rw [composite]
  exact List.mem_cons.mpr reachable

theorem inputs_eq (level : f.GoodLevel g) {index : Nat} {callee : Function} (inner : index ≠ 0)
    (calls : f.calleeIn? g index = some callee) :
    callee.inputs = .controlFlow :: callee.dataInputs := by
  rcases calleeIn?_cases calls with ⟨first, _⟩ | ⟨_, rfl⟩ | ⟨place, inside, rfl, known⟩
  · exact absurd first inner
  · rfl
  · exact if_neg (level.unreserved callee (List.mem_of_find?_eq_some known)).1

theorem outputs_eq (level : f.GoodLevel g) {index : Nat} {callee : Function}
    (inside : index ≠ g.outputIndex) (calls : f.calleeIn? g index = some callee) :
    callee.outputs = .controlFlow :: callee.dataOutputs := by
  rcases calleeIn?_cases calls with ⟨_, rfl⟩ | ⟨last, _⟩ | ⟨place, within, rfl, known⟩
  · rfl
  · exact absurd last inside
  · exact if_neg (level.unreserved callee (List.mem_of_find?_eq_some known)).2

/-- A wire that ends at a first slot starts at one. -/
theorem start_of_stop_zero (composite : f.body = .composite g) (level : f.GoodLevel g)
    (clean : f.Clean g) {link : Link} (member : link ∈ g.links) (first : link.stop.slot = 0) :
    link.start.slot = 0 := by
  obtain ⟨source, target, output, input, calls, called, foundOutput, foundInput, agree⟩ :=
    clean.wire member
  have inside := clean.start_ne_output member
  rw [level.inputs_eq (clean.stop_ne_input member) called, first] at foundInput
  cases foundInput
  rw [level.outputs_eq inside calls] at foundOutput
  -- Slots of data are never of control flow, so the start can only be the slot of the signal.
  cases slot : link.start.slot with
  | zero => rfl
  | succ place =>
    rw [slot, List.getElem?_cons_succ] at foundOutput
    have data : output.isControlFlow = false := by
      have member := List.mem_of_getElem? foundOutput
      rcases calleeIn?_cases calls with ⟨_, rfl⟩ | ⟨last, _⟩ | ⟨place, within, _, known⟩
      · exact level.isControlFlow_eq_false composite (Or.inl rfl) (List.mem_append_left _ member)
      · exact absurd last inside
      · exact level.isControlFlow_eq_false composite (Or.inr (List.mem_of_find?_eq_some known))
          (List.mem_append_right _ member)
    unfold Parameter.isControlFlow at data
    rw [agree] at data
    exact absurd data (by decide)

end GoodLevel

/-! ### What nodes put out -/

/-- Every node that ran put out the signal and one value for each data output. -/
def Answered (f : Function) (g : Graph Function) (log : List (Nat × List Value)) : Prop :=
  ∀ index outputs callee, (index, outputs) ∈ log → index ≠ g.outputIndex →
    f.calleeIn? g index = some callee →
      ∃ values, outputs = .signal :: values ∧ values.length = callee.dataOutputs.length

/-- The composites that the nodes of a graph call need all inputs and answer on them. -/
def CalleesAnswer (g : Graph Function) : Prop :=
  ∀ node ∈ g.nodes, ∀ callee, find? g.roster node.function = some callee →
    callee.isComposite = true → callee.anyInput = false ∧ callee.Answers

namespace GoodLevel

/-- **A node that can run** puts out the signal and one value for each data output. -/
theorem evaluates (level : f.GoodLevel g) (clean : f.Clean g) (callees : CalleesAnswer g)
    {index : Nat} {callee : Function} (inner : index ≠ 0) (inside : index ≠ g.outputIndex)
    (able : f.CanRun g log index callee) :
    ∃ values, (callee.evaluate ((f.feedsAfter g log index).map Prod.snd)).result =
      .ok (.signal :: values) ∧ values.length = callee.dataOutputs.length := by
  obtain ⟨node, member, _, known⟩ := calleeIn?_inner inner inside able.calls
  cases body : callee.body with
  | native mapping =>
    obtain ⟨count, _⟩ := level.natives node member callee known mapping body
    exact ⟨_, evaluate_native body _, count _⟩
  | composite nested =>
    obtain ⟨whole, answers⟩ := callees node member callee known (isComposite_of_body body)
    have ready := able.ready
    rw [whole] at ready
    have count := congrArg List.length (clean.slots able.calls ready)
    rw [List.length_map, List.length_range, level.inputs_eq inner able.calls,
      ← List.length_map Prod.snd] at count
    exact answers _ count

theorem answered (level : f.GoodLevel g) (clean : f.Clean g) (callees : CalleesAnswer g)
    (count : inputs.length = f.dataInputs.length) (runs : f.Runs g inputs log) :
    f.Answered g log := by
  intro index outputs callee member inside calls
  rcases runs.ran member with ⟨earlier, _, produced⟩ | ⟨last, _⟩
  · cases produced with
    | input =>
      cases calls
      exact ⟨inputs, rfl, count⟩
    | node able inner _ evaluated =>
      cases calls.symm.trans able.calls
      obtain ⟨values, result, length⟩ := level.evaluates clean callees inner inside able
      rw [evaluated] at result
      cases result
      exact ⟨values, rfl, length⟩
  · exact absurd last inside

/-! ### Every node gets to run -/

/-- **Whatever arrives at the first slot of a node is the signal.** -/
theorem signal_of_slot_zero (composite : f.body = .composite g) (level : f.GoodLevel g)
    (clean : f.Clean g) (answered : f.Answered g log) (runs : f.Runs g inputs log) {index : Nat}
    {value : Value} (member : (0, value) ∈ f.feedsAfter g log index) : value = .signal := by
  rcases (runs.mem_feeds index 0 value).mp member with
    manual | ⟨link, inLinks, stop, outputs, ran, produced⟩
  · exact level.signals index value manual
  · rw [level.start_of_stop_zero composite clean inLinks (by rw [stop])] at produced
    obtain ⟨source, _, _, _, calls, _⟩ := clean.wire inLinks
    obtain ⟨values, rfl, _⟩ := answered _ _ source ran (clean.start_ne_output inLinks) calls
    exact (Option.some_injective _ produced).symm

/-- A node whose wires all start at nodes that ran has a feed in every declared slot. -/
theorem present (level : f.GoodLevel g) (clean : f.Clean g) (answered : f.Answered g log)
    (runs : f.Runs g inputs log) {index : Nat} {callee : Function} (inner : index ≠ 0)
    (calls : f.calleeIn? g index = some callee)
    (sources : ∀ link ∈ g.links, link.stop.node = index → link.start.node ∈ log.map Prod.fst) :
    ∀ slot < callee.inputs.length, ∃ value, (slot, value) ∈ f.feedsAfter g log index := by
  intro slot within
  have fed := level.fed index inner callee calls slot within
  unfold Graph.feedCountAt at fed
  by_cases set : ((g.valuesAt index).get? slot).isSome
  · obtain ⟨value, set⟩ := Option.isSome_iff_exists.mp set
    exact ⟨value, (runs.mem_feeds index slot value).mpr (Or.inl set)⟩
  · rw [if_neg set, Nat.add_zero, List.countP_pos_iff] at fed
    obtain ⟨link, member, stop⟩ := fed
    have stop : link.stop = ⟨index, slot⟩ := of_decide_eq_true stop
    obtain ⟨⟨start, outputs⟩, ran, same⟩ :=
      List.mem_map.mp (sources link member (congrArg Place.node stop))
    cases same
    obtain ⟨source, _, output, _, called, _, found, _⟩ := clean.wire member
    have inside := clean.start_ne_output member
    obtain ⟨values, rfl, count⟩ := answered _ _ source ran inside called
    have declared := (List.getElem?_eq_some_iff.mp found).1
    rw [level.outputs_eq inside called, List.length_cons, ← count, ← List.length_cons] at declared
    exact ⟨_, (runs.mem_feeds index slot _).mpr
      (Or.inr ⟨link, member, stop, _, ran, List.getElem?_eq_getElem declared⟩)⟩

/-- A callee that runs as soon as one data input is there has one. -/
theorem dataInputs_ne_nil (level : f.GoodLevel g) (callees : CalleesAnswer g) {index : Nat}
    {callee : Function} (calls : f.calleeIn? g index = some callee)
    (any : callee.anyInput = true) : callee.dataInputs ≠ [] := by
  rcases calleeIn?_cases calls with ⟨_, rfl⟩ | ⟨_, rfl⟩ | ⟨place, within, rfl, known⟩
  · cases any
  · cases any
  · have member : g.nodes.get ⟨place, within⟩ ∈ g.nodes := List.get_mem ..
    cases body : callee.body with
    | native mapping => exact (level.natives _ member callee known mapping body).2 any
    | composite inner =>
      have whole := (callees _ member callee known (isComposite_of_body body)).1
      rw [whole] at any
      cases any

/-- **A node that has a feed in every declared slot can run.** -/
theorem canRun (composite : f.body = .composite g) (level : f.GoodLevel g) (clean : f.Clean g)
    (callees : CalleesAnswer g) (answered : f.Answered g log) (runs : f.Runs g inputs log)
    {index : Nat} {callee : Function} (inner : index ≠ 0)
    (calls : f.calleeIn? g index = some callee)
    (present : ∀ slot < callee.inputs.length, ∃ value, (slot, value) ∈ f.feedsAfter g log index) :
    f.CanRun g log index callee := by
  have slots := clean.slots calls present
  have shape := level.inputs_eq inner calls
  refine ⟨calls, ?_, Or.inr ?_⟩
  · cases any : callee.anyInput with
    | false => exact present
    | true =>
      have count := congrArg List.length slots
      rw [List.length_map, List.length_range, shape, List.length_cons] at count
      have some := List.length_pos_iff.mpr (level.dataInputs_ne_nil callees calls any)
      rw [if_pos rfl, count]
      omega
  · cases feeds : f.feedsAfter g log index with
    | nil =>
      have count := congrArg List.length slots
      rw [feeds, List.length_range, shape] at count
      cases count
    | cons feed rest =>
      obtain ⟨slot, value⟩ := feed
      rw [feeds, shape, List.length_cons, List.range_succ_eq_map] at slots
      cases (List.cons.inj slots).1
      have member : (0, value) ∈ f.feedsAfter g log index := by
        rw [feeds]
        exact List.mem_cons_self
      rw [level.signal_of_slot_zero composite clean answered runs member]
      exact ⟨0, rest, rfl⟩

/-- **A run can stall only after all nodes have run.** -/
theorem ran_of_stuck (composite : f.body = .composite g) (level : f.GoodLevel g)
    (clean : f.Clean g) (callees : CalleesAnswer g) (answered : f.Answered g log)
    (runs : f.Runs g inputs log) (stuck : f.Stuck g log) :
    ∀ index < g.nodeCount, index ∈ log.map Prod.fst := by
  -- The wires form no cycle, so all nodes may be taken to have run that lead to this one.
  refine Graph.acyclic_induction level.acyclic fun index inside sources => ?_
  by_contra notRan
  obtain ⟨callee, calls⟩ := clean.known index inside
  by_cases first : index = 0
  · subst first
    exact stuck 0 inside notRan _ (canRun_input f g log)
  · refine stuck index inside notRan callee ?_
    exact level.canRun composite clean callees answered runs first calls
      (level.present clean answered runs first calls sources)

/-- A run on the right number of inputs gives the right number of values if all composites that it
calls do. -/
theorem run_ok (composite : f.body = .composite g) (level : f.GoodLevel g)
    (callees : CalleesAnswer g) (count : inputs.length = f.dataInputs.length) :
    ∃ values, (f.run inputs).result = .ok values ∧ values.length = f.dataOutputs.length := by
  have clean := clean_of_validate composite level.distinct level.report
  have ends := run_ends composite inputs
  generalize (f.run inputs).result = result at ends
  cases ends with
  | delivered runs able complete => exact ⟨_, rfl, complete⟩
  | needless wanting => exact ⟨[], rfl, by rw [wanting]; rfl⟩
  | failed runs inner inside able failed =>
    obtain ⟨values, evaluated, _⟩ := level.evaluates clean callees inner inside able
    rw [evaluated] at failed
    cases failed
  | stalled runs wanting stuck refused =>
    have answered := level.answered clean callees count runs
    have ran := level.ran_of_stuck composite clean callees answered runs stuck
    obtain ⟨earlier, callee, able, short⟩ := refused (ran g.outputIndex (Nat.lt_succ_self _))
    have last := able.callee_output
    subst last
    exact absurd (length_delivery_of_slots (clean.slots able.calls able.ready)) short

end GoodLevel

/-! ### Runs of good composites -/

namespace Good

/-- A good composite answers on one value for each input. -/
theorem answers (good : f.Good) : f.Answers := by
  induction good with
  | @intro f g composite level callees ih =>
    have nested : CalleesAnswer g := fun node member callee known isComposite =>
      ⟨(callees node member callee known isComposite).whole,
        ih node member callee known isComposite⟩
    intro arguments count
    obtain ⟨values, result, length⟩ := level.run_ok composite nested
      (show (arguments.drop 1).length = f.dataInputs.length by rw [List.length_drop, count]; rfl)
    refine ⟨values, ?_, length⟩
    rw [evaluate_composite composite, result]
    rfl

/-- **Every run of a good composite on the right number of inputs succeeds** and gives one value for
each output. -/
theorem run_succeeds (good : f.Good) (inputs : List Value)
    (count : inputs.length = f.dataInputs.length) :
    ∃ values, (f.run inputs).result = .ok values ∧ values.length = f.dataOutputs.length := by
  cases good with
  | intro composite level callees =>
    exact level.run_ok composite (fun node member callee known isComposite =>
      ⟨(callees node member callee known isComposite).whole,
        (callees node member callee known isComposite).answers⟩) count

end Good

theorem goodLevel_inverter : inverter.GoodLevel inverterGraph := by
  have values : ∀ index, inverterGraph.valuesAt index = .empty ∨
      inverterGraph.valuesAt index = .initial := by
    intro index
    match index with
    | 0 => exact Or.inl rfl
    | 1 => exact Or.inr rfl
    | 2 => exact Or.inr rfl
    | index + 3 => exact Or.inl rfl
  refine ⟨inverterGraph_distinctIds, validate_inverter, ?_, ?_, by decide +kernel, ?_, rfl, ?_, ?_⟩
  · intro index inner callee calls slot within
    rcases calleeIn?_cases calls with ⟨first, _⟩ | ⟨rfl, rfl⟩ | ⟨place, inside, rfl, known⟩
    · exact absurd first inner
    · match slot, within with
      | 0, _ => decide +kernel
      | 1, _ => decide +kernel
    · cases find?_inverterGraph known
      match place, inside, slot, within with
      | 0, _, 0, _ => decide +kernel
      | 0, _, 1, _ => decide +kernel
  · intro index value set
    rcases values index with none | initial
    · rw [none] at set
      cases set
    · rw [initial] at set
      cases set
      rfl
  · intro h member
    cases List.mem_singleton.mp member
    decide +kernel
  · exact Graph.acyclic_of_forward (by decide +kernel)
  · intro node _ callee known mapping body
    cases find?_inverterGraph known
    cases body
    exact ⟨fun _ => rfl, fun any => by cases any⟩

theorem good_inverter : inverter.Good := by
  refine .intro rfl goodLevel_inverter fun node _ callee known isComposite => ?_
  cases find?_inverterGraph known
  cases isComposite

theorem inverter_succeeds : inverter.Good ∧
    ∃ values, (inverter.run [.boolean true]).result = .ok values ∧ values.length = 1 :=
  ⟨good_inverter, good_inverter.run_succeeds [.boolean true] rfl⟩

end Function

end FlowGraph
