/-
**Runs keep to the declared types.**

The report on a composite compares types only where a wire ends or a value is set. It follows that
throughout a run every value that arrives at a slot has the type of that slot, so that the results
have the declared types too. Functions that run on part of their inputs are the delicate case: only
the merges of data types are allowed here, and these cannot mistake a datum for the signal.

* `Function.IsMerge.spec`: what there is to know about a merge function;
* `Function.fits_of_mem_feeds`: one look at the feeds of a node;
* `Function.TypedLevel.evaluates`: one turn of a node;
* `Function.TypedLevel.typed`: whole runs;
* `Function.Typed.tags_run`: **the results of a typed composite have the declared types.**
-/

import FlowGraph.Function.Fresh
import FlowGraph.Proofs.CleanReport

namespace FlowGraph

namespace Function

/-! ### Typed composites -/

/-- The function merges two branches of a type of data. -/
def IsMerge (f : Function) : Prop :=
  ∃ (valueType : ValueType) (supply : IdSupply), valueType.tag ≠ .controlFlow ∧
    f = ((merge valueType).run supply).1

/-- What makes a composite typed, the composites that it calls apart. -/
structure TypedLevel (f : Function) (g : Graph Function) : Prop where
  distinct : g.DistinctIds
  report : f.validate none = []
  merges : ∀ node ∈ g.nodes, ∀ callee, find? g.roster node.function = some callee →
    callee.anyInput = true → callee.IsMerge
  natives : ∀ node ∈ g.nodes, ∀ callee, find? g.roster node.function = some callee →
    callee.anyInput = false → ∀ mapping, callee.body = .native mapping →
      ∀ arguments : List Value, arguments.map Value.tag = callee.dataInputs.map Parameter.type →
        (mapping arguments).map Value.tag = callee.dataOutputs.map Parameter.type

/-- Typed composites. -/
inductive Typed : Function → Prop
  | intro {f : Function} {g : Graph Function} (composite : f.body = .composite g)
      (level : f.TypedLevel g)
      (callees : ∀ node ∈ g.nodes, ∀ callee, find? g.roster node.function = some callee →
        callee.isComposite = true → Typed callee) :
      Typed f

/-- Evaluation takes arguments of the declared types to outputs of the declared types. -/
def Preserves (f : Function) : Prop :=
  ∀ arguments outputs : List Value,
    (arguments.drop 1).map Value.tag = f.dataInputs.map Parameter.type →
      (f.evaluate arguments).result = .ok outputs →
        outputs.map Value.tag = .controlFlow :: f.dataOutputs.map Parameter.type

/-! ### Merge functions -/

/-- A merge takes any number of values of its type to one of them. -/
theorem IsMerge.spec {f : Function} (isMerge : f.IsMerge) :
    ∃ (tag : TypeTag) (default : Value), tag ≠ .controlFlow ∧
      (∀ p ∈ f.dataInputs, p.type = tag) ∧ f.dataOutputs.map Parameter.type = [tag] ∧
        f.body = .native (mergeMapping default) := by
  obtain ⟨valueType, supply, data, rfl⟩ := isMerge
  refine ⟨valueType.tag, valueType.default, data, fun p member => ?_, ?_, rfl⟩
  · have listed := (List.mem_filter.mp
      (show p ∈ dataParameters [⟨supply.draw supply.next, "Value 1", valueType.tag⟩,
        ⟨supply.draw (supply.next + 1), "Value 2", valueType.tag⟩] from member)).1
    simp only [List.mem_cons, List.not_mem_nil, or_false] at listed
    rcases listed with rfl | rfl <;> rfl
  · show (dataParameters [⟨supply.draw (supply.next + 2), "Value", valueType.tag⟩]).map _ = _
    simp [dataParameters, Parameter.isControlFlow, TypeTag.isControlFlow, data]

/-- A merge of values of its type gives a value of its type. -/
theorem tags_mergeMapping {tag : TypeTag} {default : Value} {arguments : List Value}
    (some : arguments ≠ []) (all : ∀ value ∈ arguments, value.tag = tag) :
    (mergeMapping default arguments).map Value.tag = [tag] := by
  cases arguments with
  | nil => exact absurd rfl some
  | cons first rest => exact congrArg (· :: []) (all first List.mem_cons_self)

/-! ### Feeds have the declared types -/

variable {f : Function} {g : Graph Function} {inputs : List Value}
  {log : List (Nat × List Value)}

/-- Every node that ran put out values of the declared types. -/
def TypedLog (f : Function) (g : Graph Function) (log : List (Nat × List Value)) : Prop :=
  ∀ index outputs callee, (index, outputs) ∈ log → index ≠ g.outputIndex →
    f.calleeIn? g index = some callee →
      outputs.map Value.tag = .controlFlow :: callee.dataOutputs.map Parameter.type

/-- The tag of an output is the type of its slot. -/
theorem tag_of_output {source : Function} {outputs : List Value} {slot : Nat} {value : Value}
    {p : Parameter}
    (typed : outputs.map Value.tag = .controlFlow :: source.dataOutputs.map Parameter.type)
    (found : outputs[slot]? = some value) (declared : source.outputs[slot]? = some p) :
    value.tag = p.type := by
  unfold Function.outputs at declared
  split at declared
  · cases declared
  · have first : (outputs.map Value.tag)[slot]? = some value.tag := by
      rw [List.getElem?_map, found]
      rfl
    have second : ((Parameter.controlFlow :: source.dataOutputs).map Parameter.type)[slot]? =
        some p.type := by
      rw [List.getElem?_map, declared]
      rfl
    rw [typed] at first
    exact Option.some_injective _ (first.symm.trans second)

/-- **Whatever arrives at a slot has the type of that slot.** -/
theorem fits_of_mem_feeds (clean : f.Clean g) (typed : f.TypedLog g log)
    (runs : f.Runs g inputs log) {index slot : Nat} {callee : Function} {value : Value}
    (calls : f.calleeIn? g index = some callee)
    (member : (slot, value) ∈ f.feedsAfter g log index) : Fits callee.inputs slot value := by
  rcases (runs.mem_feeds index slot value).mp member with
    manual | ⟨link, inLinks, stop, outputs, ran, produced⟩
  · exact clean.values index callee calls slot value manual
  · obtain ⟨source, target, output, input, called, reached, declared, found, agree⟩ :=
      clean.wire inLinks
    rw [stop] at reached found
    cases calls.symm.trans reached
    have tags := typed _ _ source ran (clean.start_ne_output inLinks) called
    exact ⟨input, found, (tag_of_output tags produced declared ▸ agree).symm⟩

theorem tags_of_fits {parameters : List Parameter} {arguments : List Value}
    (count : arguments.length = parameters.length)
    (fits : ∀ (slot : Nat) (value : Value), arguments[slot]? = some value →
      Fits parameters slot value) :
    arguments.map Value.tag = parameters.map Parameter.type := by
  refine List.ext_getElem? fun slot => ?_
  rw [List.getElem?_map, List.getElem?_map]
  cases found : arguments[slot]? with
  | none =>
    rw [List.getElem?_eq_none_iff, count] at found
    rw [List.getElem?_eq_none_iff.mpr found]
    rfl
  | some value =>
    obtain ⟨p, declared, same⟩ := fits slot value found
    rw [declared]
    exact congrArg some same.symm

/-- A node that has a feed in every declared slot has feeds of the declared types, in order. -/
theorem tags_feeds (clean : f.Clean g) (typed : f.TypedLog g log) (runs : f.Runs g inputs log)
    {index : Nat} {callee : Function} (calls : f.calleeIn? g index = some callee)
    (present : ∀ slot < callee.inputs.length, ∃ value, (slot, value) ∈ f.feedsAfter g log index) :
    ((f.feedsAfter g log index).map Prod.snd).map Value.tag = callee.inputs.map Parameter.type := by
  have slots := clean.slots calls present
  have count := congrArg List.length slots
  rw [List.length_map, List.length_range, ← List.length_map Prod.snd] at count
  refine tags_of_fits count fun slot value found => ?_
  exact fits_of_mem_feeds clean typed runs calls ((Feed.getElem?_values slots _ _).mp found)

/-- A node that can run calls a function that has a slot for the signal. -/
theorem inputs_of_canRun (clean : f.Clean g) {index : Nat} {callee : Function} (inner : index ≠ 0)
    (able : f.CanRun g log index callee) : callee.inputs = .controlFlow :: callee.dataInputs := by
  obtain ⟨slot, rest, shape⟩ := able.allowed.resolve_left inner
  have member : (slot, .signal) ∈ f.feedsAfter g log index := by
    rw [shape]
    exact List.mem_cons_self
  have inside := clean.declared able.calls (feedCountAt_pos member)
  unfold Function.inputs at inside ⊢
  split
  · next reserved =>
    rw [if_pos reserved] at inside
    exact absurd inside (Nat.not_lt_zero slot)
  · rfl

/-! ### Turns and runs -/

/-- The composites that the nodes of a graph call keep to the declared types. -/
def CalleesPreserve (g : Graph Function) : Prop :=
  ∀ node ∈ g.nodes, ∀ callee, find? g.roster node.function = some callee →
    callee.isComposite = true → callee.Preserves

/-- The data arguments of a merge that can run are some values of its type, since a datum in front
cannot pass for the signal. -/
theorem tags_merge (clean : f.Clean g) (typed : f.TypedLog g log) (runs : f.Runs g inputs log)
    {index : Nat} {callee : Function} {tag : TypeTag} (inner : index ≠ 0)
    (able : f.CanRun g log index callee) (any : callee.anyInput = true)
    (data : tag ≠ .controlFlow) (all : ∀ p ∈ callee.dataInputs, p.type = tag) :
    let arguments := ((f.feedsAfter g log index).map Prod.snd).drop 1
    arguments ≠ [] ∧ ∀ value ∈ arguments, value.tag = tag := by
  have shape := inputs_of_canRun clean inner able
  obtain ⟨first, rest, feeds⟩ := able.allowed.resolve_left inner
  have fits : ∀ slot value, (slot, value) ∈ f.feedsAfter g log index →
      slot = 0 ∨ value.tag = tag := by
    intro slot value member
    obtain ⟨p, declared, same⟩ := fits_of_mem_feeds clean typed runs able.calls member
    rw [shape] at declared
    cases slot with
    | zero => exact Or.inl rfl
    | succ slot => exact Or.inr (same.symm.trans (all p (List.mem_of_getElem? declared)))
  have once : ((f.feedsAfter g log index).map Prod.fst).Nodup :=
    nodup_feedsAfter fun _ => clean.feedCountAt_le_one _
  have ready := able.ready
  rw [any, if_pos rfl, feeds] at ready
  rw [feeds] at fits once
  -- The signal is no datum, so it stands in slot zero and leaves the other slots to the data.
  have zero : first = 0 :=
    (fits first .signal List.mem_cons_self).resolve_right fun datum => data datum.symm
  refine ⟨fun none => ?_, fun value member => ?_⟩
  · rw [feeds] at none
    cases rest with
    | nil => exact absurd ready (Nat.lt_irrefl 1)
    | cons next rest => cases none
  · rw [feeds] at member
    obtain ⟨⟨slot, _⟩, inRest, rfl⟩ := List.mem_map.mp member
    refine (fits slot _ (List.mem_cons_of_mem _ inRest)).resolve_left fun same => ?_
    refine (List.nodup_cons.mp once).1 (List.mem_map.mpr ⟨_, inRest, ?_⟩)
    exact same.trans zero.symm

/-- **One turn:** a node that runs puts out values of the declared types. -/
theorem TypedLevel.evaluates (level : f.TypedLevel g) (clean : f.Clean g)
    (callees : CalleesPreserve g) (typed : f.TypedLog g log) (runs : f.Runs g inputs log)
    {index : Nat} {callee : Function} {outputs : List Value} (inner : index ≠ 0)
    (inside : index ≠ g.outputIndex) (able : f.CanRun g log index callee)
    (evaluated : (callee.evaluate ((f.feedsAfter g log index).map Prod.snd)).result = .ok outputs) :
    outputs.map Value.tag = .controlFlow :: callee.dataOutputs.map Parameter.type := by
  obtain ⟨node, member, _, known⟩ := calleeIn?_inner inner inside able.calls
  cases any : callee.anyInput with
  | true =>
    obtain ⟨tag, default, data, all, output, body⟩ :=
      (level.merges node member callee known any).spec
    obtain ⟨some, tags⟩ := tags_merge clean typed runs inner able any data all
    rw [evaluate_native body] at evaluated
    cases evaluated
    rw [List.map_cons, tags_mergeMapping some tags, output]
    rfl
  | false =>
    have ready := able.ready
    rw [any] at ready
    have tags := tags_feeds clean typed runs able.calls ready
    rw [inputs_of_canRun clean inner able] at tags
    have arguments := congrArg (List.drop 1) tags
    rw [← List.map_drop] at arguments
    cases body : callee.body with
    | native mapping =>
      rw [evaluate_native body] at evaluated
      cases evaluated
      rw [List.map_cons, level.natives node member callee known any mapping body _ arguments]
      rfl
    | composite nested =>
      exact callees node member callee known (isComposite_of_body body) _ _ arguments evaluated

/-- **Whole runs:** all nodes that ran put out values of the declared types. -/
theorem TypedLevel.typed (level : f.TypedLevel g) (clean : f.Clean g)
    (callees : CalleesPreserve g) (tags : inputs.map Value.tag = f.dataInputs.map Parameter.type)
    (runs : f.Runs g inputs log) : f.TypedLog g log := by
  induction runs with
  | start => exact fun _ _ _ member => absurd member List.not_mem_nil
  | @produces log turn made before fresh produced ih =>
    intro index outputs callee member inside calls
    rcases List.mem_append.mp member with old | new
    · exact ih index outputs callee old inside calls
    · cases List.mem_singleton.mp new
      cases produced with
      | input =>
        cases calls
        exact congrArg (TypeTag.controlFlow :: ·) tags
      | node able inner _ evaluated =>
        cases calls.symm.trans able.calls
        exact level.evaluates clean callees ih before inner inside able evaluated
  | delivers before fresh able ih =>
    intro index outputs callee member inside calls
    rcases List.mem_append.mp member with old | new
    · exact ih index outputs callee old inside calls
    · cases List.mem_singleton.mp new
      exact absurd rfl inside

/-- The results of a run have the declared types if those of all composites that it calls do. -/
theorem TypedLevel.tags_run_ok (composite : f.body = .composite g) (level : f.TypedLevel g)
    (callees : CalleesPreserve g) (tags : inputs.map Value.tag = f.dataInputs.map Parameter.type)
    {values : List Value} (result : (f.run inputs).result = .ok values) :
    values.map Value.tag = f.dataOutputs.map Parameter.type := by
  have clean := clean_of_validate composite level.distinct level.report
  have ends := run_ends composite inputs
  rw [result] at ends
  cases ends with
  | delivered runs able complete =>
    have last := able.callee_output
    subst last
    have all := tags_feeds clean (level.typed clean callees tags runs) runs able.calls able.ready
    unfold delivery
    rw [List.map_drop, List.map_drop, all]
    rfl
  | needless wanting =>
    rw [wanting]
    rfl

namespace Typed

/-- A typed composite keeps to the declared types. -/
theorem preserves (typed : f.Typed) : f.Preserves := by
  induction typed with
  | @intro f g composite level callees ih =>
    intro arguments outputs tags evaluated
    rw [evaluate_composite composite] at evaluated
    cases result : (f.run (arguments.drop 1)).result with
    | error error =>
      rw [result] at evaluated
      cases evaluated
    | ok values =>
      rw [result] at evaluated
      cases evaluated
      exact congrArg (TypeTag.controlFlow :: ·) (level.tags_run_ok composite ih tags result)

/-- **The results of a typed composite have the declared types.** -/
theorem tags_run (typed : f.Typed) {inputs values : List Value}
    (tags : inputs.map Value.tag = f.dataInputs.map Parameter.type)
    (result : (f.run inputs).result = .ok values) :
    values.map Value.tag = f.dataOutputs.map Parameter.type := by
  cases typed with
  | intro composite level callees =>
    exact level.tags_run_ok composite
      (fun node member callee known isComposite =>
        (callees node member callee known isComposite).preserves) tags result

end Typed

theorem typed_inverter : inverter.Typed := by
  refine .intro rfl ⟨inverterGraph_distinctIds, validate_inverter, ?_, ?_⟩ ?_
  · intro node _ callee known any
    cases find?_inverterGraph known
    cases any
  · intro node _ callee known _ mapping body arguments _
    cases find?_inverterGraph known
    cases body
    rfl
  · intro node _ callee known isComposite
    cases find?_inverterGraph known
    cases isComposite

theorem inverter_tags_run : inverter.Typed ∧
    [Value.boolean false].map Value.tag = inverter.dataOutputs.map Parameter.type :=
  ⟨typed_inverter, typed_inverter.tags_run (show [Value.boolean true].map Value.tag = _ from rfl)
    (by decide +kernel)⟩

end Function

end FlowGraph
