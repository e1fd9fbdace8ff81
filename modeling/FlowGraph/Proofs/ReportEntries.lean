/-
**What the report lists.**

Of the problems in a report, two concern inputs that are fed more than once. An input with a wire
and a value is listed once for each of its wires, where the wires are gone through. Inputs with
several wires come at the end, each of them once, in the order of their places.

* `Function.filter_isShadowedValue_validate`: the inputs with a wire and a value;
* `Function.count_fedInputs`, `Function.feedProblems_eq`: the inputs with several wires;
* `Function.validate_exact`: **the report is exact**.
-/

import FlowGraph.Proofs.TidyReport

namespace FlowGraph

namespace Problem

/-- Whether an input with several wires is reported. -/
def isDuplicateFeed : Problem → Bool
  | .duplicateFeed .. => true
  | _ => false

/-- Whether an input with a wire and a value is reported. -/
def isShadowedValue : Problem → Bool
  | .shadowedValue .. => true
  | _ => false

/-- Whether the problem has nothing to do with inputs that are fed more than once. -/
def isPlain (problem : Problem) : Bool :=
  !problem.isDuplicateFeed && !problem.isShadowedValue

end Problem

/-- One input comes before another: its node has a smaller index, or the same node and a smaller
slot. -/
def Graph.Precedes {F : Type} (g : Graph F) (first second : Endpoint) : Prop :=
  ∃ i j, g.indexOf? first.node = some i ∧ g.indexOf? second.node = some j ∧
    (i < j ∨ i = j ∧ first.slot < second.slot)

namespace Function

variable {f : Function} {g : Graph Function}

/-! ### Problems of other kinds -/

theorem isPlain_typeProblems (f : Function) (registry : Registry) :
    ∀ problem ∈ f.typeProblems registry, problem.isPlain = true := by
  intro problem member
  obtain ⟨p, _, rfl⟩ := List.mem_map.mp member
  rfl

theorem isPlain_nodeProblems (f : Function) (g : Graph Function) (node : Node) :
    ∀ problem ∈ f.nodeProblems g node, problem.isPlain = true := by
  intro problem member
  unfold nodeProblems at member
  split at member
  · cases member
  · split at member
    · rw [List.mem_singleton.mp member]
      rfl
    · obtain ⟨entry, _, found⟩ := List.mem_filterMap.mp member
      unfold valueProblem? at found
      split at found
      · cases found
        rfl
      · split at found
        · cases found
        · cases found
          rfl

theorem isPlain_slotProblems (f : Function) (g : Graph Function) (wire : Wire) (link : Link) :
    ∀ problem ∈ f.slotProblems g wire link, problem.isPlain = true := by
  intro problem member
  unfold slotProblems at member
  split at member
  · split at member
    · rw [List.mem_singleton.mp member]
      rfl
    · rw [List.mem_singleton.mp member]
      rfl
    · split at member
      · cases member
      · rw [List.mem_singleton.mp member]
        rfl
  · cases member

/-- The report in order: problems that have nothing to do with feeds, then those of wires, then the
inputs with several wires. -/
theorem validate_parts (composite : f.graph? = some g) (types : Option Registry) :
    ∃ front : List Problem, (∀ problem ∈ front, problem.isPlain = true) ∧
      f.validate types = front ++ g.wires.flatMap (f.wireProblems g) ++ feedProblems g := by
  have nodes : ∀ problem ∈ g.allNodes.flatMap (f.nodeProblems g), problem.isPlain = true := by
    intro problem member
    obtain ⟨node, _, listed⟩ := List.mem_flatMap.mp member
    exact isPlain_nodeProblems f g node problem listed
  unfold validate
  rw [composite]
  cases types with
  | none => exact ⟨_, nodes, rfl⟩
  | some registry =>
    exact ⟨_, List.forall_mem_append.mpr ⟨isPlain_typeProblems f registry, nodes⟩, rfl⟩

theorem filter_isShadowedValue_eq_nil {problems : List Problem}
    (plain : ∀ problem ∈ problems, problem.isPlain = true) :
    problems.filter Problem.isShadowedValue = [] := by
  refine List.filter_eq_nil_iff.mpr fun problem member shadowed => ?_
  simpa [Problem.isPlain, shadowed] using plain problem member

theorem isDuplicateFeed_eq_false {problem : Problem} (plain : problem.isPlain = true) :
    problem.isDuplicateFeed = false := by
  simp only [Problem.isPlain, Bool.and_eq_true, Bool.not_eq_true'] at plain
  exact plain.1

/-! ### Inputs with a wire and a value -/

/-- A wire is reported once if its input has a value. -/
theorem filter_wireProblems {wire : Wire} (joined : (g.link? wire).isSome) :
    (f.wireProblems g wire).filter Problem.isShadowedValue = shadowProblems g wire.stop := by
  obtain ⟨link, placed⟩ := Option.isSome_iff_exists.mp joined
  obtain ⟨start, _, stop, _⟩ := (g.link?_eq_some_iff wire link).mp placed
  unfold wireProblems
  rw [start, stop]
  dsimp only
  rw [List.filter_append, filter_isShadowedValue_eq_nil (isPlain_slotProblems f g wire _),
    List.append_nil]
  unfold shadowProblems
  split <;> rfl

/-- No wire is reported as one of several. -/
theorem isDuplicateFeed_wireProblems (f : Function) (g : Graph Function) (wire : Wire) :
    ∀ problem ∈ f.wireProblems g wire, problem.isDuplicateFeed = false := by
  intro problem member
  unfold wireProblems at member
  split at member
  · rw [List.mem_singleton.mp member]
    rfl
  · rw [List.mem_singleton.mp member]
    rfl
  · rcases List.mem_append.mp member with shadow | slot
    · unfold shadowProblems at shadow
      split at shadow
      · rw [List.mem_singleton.mp shadow]
        rfl
      · cases shadow
    · exact isDuplicateFeed_eq_false (isPlain_slotProblems f g wire _ problem slot)

/-- **The inputs with a wire and a value** are reported once for each of their wires. -/
theorem filter_isShadowedValue_validate (composite : f.graph? = some g)
    (joined : ∀ wire ∈ g.wires, (g.link? wire).isSome) (types : Option Registry) :
    (f.validate types).filter Problem.isShadowedValue =
      (g.wires.filter fun wire => (g.value? wire.stop.node wire.stop.slot).isSome).map
        fun wire => .shadowedValue wire.stop.node wire.stop.slot := by
  obtain ⟨front, plain, report⟩ := validate_parts composite types
  have feeds : (feedProblems g).filter Problem.isShadowedValue = [] := by
    refine List.filter_eq_nil_iff.mpr fun problem member => ?_
    obtain ⟨input, _, rfl⟩ := List.mem_map.mp member
    simp [Problem.isShadowedValue]
  have wires : (g.wires.flatMap (f.wireProblems g)).filter Problem.isShadowedValue =
      g.wires.flatMap fun wire => shadowProblems g wire.stop := by
    rw [List.filter_flatMap]
    exact List.flatMap_congr fun wire member => filter_wireProblems (joined wire member)
  rw [report, List.filter_append, List.filter_append, filter_isShadowedValue_eq_nil plain, wires,
    feeds, List.nil_append, List.append_nil]
  unfold shadowProblems
  generalize g.wires = row
  induction row with
  | nil => rfl
  | cons wire rest ih =>
    rw [List.flatMap_cons, ih, List.filter_cons]
    split <;> rfl

/-! ### Inputs with several wires -/

theorem nodup_eraseDups {α : Type} [BEq α] [LawfulBEq α] (things : List α) :
    things.eraseDups.Nodup := by
  -- What is left behind the first thing is a filtered row, so the induction is on the length.
  induction length : things.length using Nat.strong_induction_on generalizing things with
  | _ count ih =>
    cases things with
    | nil => exact List.nodup_nil
    | cons first rest =>
      have shorter : (rest.filter fun thing => !thing == first).length < count :=
        length ▸ Nat.lt_succ_of_le (List.length_filter_le _ rest)
      rw [List.eraseDups_cons, List.nodup_cons, List.mem_eraseDups]
      exact ⟨by simp, ih _ shorter _ rfl⟩

/-- An input is listed as often as wires end there. -/
theorem count_fedInputs (joined : ∀ wire ∈ g.wires, (g.link? wire).isSome)
    {input : Place × Endpoint} (member : input ∈ fedInputs g) :
    (fedInputs g).count input = g.feedCount input.2 := by
  obtain ⟨⟨index, slot⟩, stop⟩ := input
  obtain ⟨found, rfl⟩ := fedInputs_endpoint member
  unfold Graph.feedCount fedInputs List.count
  rw [List.countP_filterMap]
  refine List.countP_congr fun wire listed => ?_
  obtain ⟨link, placed⟩ := Option.isSome_iff_exists.mp (joined wire listed)
  have same := Graph.stop_eq_iff placed found
  rw [placed]
  simp only [Option.map_some, Option.getD_some, beq_iff_eq, Prod.mk.injEq, decide_eq_true_eq]
  exact ⟨And.right, fun stops => ⟨same.mp stops, stops⟩⟩

/-- Places that come no later in this order and differ come strictly earlier. -/
theorem noLater_of_ne {first second : Place} (ordered : noLater first second = true)
    (differ : first ≠ second) :
    first.node < second.node ∨ first.node = second.node ∧ first.slot < second.slot := by
  obtain ⟨firstNode, firstSlot⟩ := first
  obtain ⟨secondNode, secondSlot⟩ := second
  simp only [noLater, Bool.or_eq_true, Bool.and_eq_true, decide_eq_true_eq, ne_eq,
    Place.mk.injEq] at ordered differ ⊢
  omega

/-- **The inputs with several wires** are reported once each, in the order of their places. -/
theorem feedProblems_eq (joined : ∀ wire ∈ g.wires, (g.link? wire).isSome) :
    ∃ stops : List Endpoint,
      feedProblems g = stops.map (fun stop => .duplicateFeed stop.node stop.slot) ∧
      (∀ stop, stop ∈ stops ↔ 2 ≤ g.feedCount stop) ∧ stops.Pairwise g.Precedes := by
  let repeated := (fedInputs g).eraseDups.filter fun input => 1 < (fedInputs g).count input
  let inputs := arrange (fun a b => noLater a.1 b.1) repeated
  have listed : ∀ input, input ∈ inputs ↔ input ∈ fedInputs g ∧ 1 < (fedInputs g).count input := by
    intro input
    rw [(arrange_perm repeated).mem_iff, List.mem_filter, List.mem_eraseDups, decide_eq_true_eq]
  have nodup : inputs.Nodup :=
    (arrange_perm repeated).nodup_iff.mpr ((nodup_eraseDups _).filter _)
  have sorted : inputs.Pairwise fun a b => noLater a.1 b.1 = true := by
    refine arrange_sorted (fun a b => ?_) (fun a b c one other => ?_) repeated
    · simp only [noLater, Bool.or_eq_true, Bool.and_eq_true, decide_eq_true_eq]
      omega
    · simp only [noLater, Bool.or_eq_true, Bool.and_eq_true, decide_eq_true_eq] at one other ⊢
      omega
  refine ⟨inputs.map Prod.snd, ?_, fun stop => ?_, ?_⟩
  · rw [List.map_map]
    rfl
  · constructor
    · intro member
      obtain ⟨input, present, rfl⟩ := List.mem_map.mp member
      obtain ⟨fed, several⟩ := (listed input).mp present
      rwa [count_fedInputs joined fed] at several
    · intro several
      obtain ⟨wire, present, stops⟩ :=
        List.countP_pos_iff.mp (Nat.lt_of_lt_of_le Nat.two_pos several)
      obtain ⟨link, placed⟩ := Option.isSome_iff_exists.mp (joined wire present)
      have fed : (link.stop, stop) ∈ fedInputs g := by
        refine List.mem_filterMap.mpr ⟨wire, present, ?_⟩
        rw [placed, ← of_decide_eq_true stops]
        rfl
      refine List.mem_map.mpr ⟨_, (listed _).mpr ⟨fed, ?_⟩, rfl⟩
      rwa [count_fedInputs joined fed]
  · rw [List.pairwise_map]
    refine (sorted.and nodup).imp_of_mem fun {first second} one other ⟨ordered, differ⟩ => ?_
    obtain ⟨found, slot⟩ := fedInputs_endpoint ((listed first).mp one).1
    obtain ⟨found', slot'⟩ := fedInputs_endpoint ((listed second).mp other).1
    refine ⟨_, _, found, found', ?_⟩
    rw [slot, slot']
    refine noLater_of_ne ordered fun same => differ (Prod.ext same ?_)
    -- One place belongs to one identifier, so inputs that differ have different places.
    rw [← same] at found' slot'
    have ids := Graph.indexOf?_injective found found'
    have slots := slot.trans slot'.symm
    obtain ⟨_, ⟨_, _⟩⟩ := first
    obtain ⟨_, ⟨_, _⟩⟩ := second
    cases ids
    cases slots
    rfl

/-! ### The whole report -/

/-- **The report is exact.** It is empty exactly if all types are registered and the composite is
tidy. It ends with the inputs that have several wires, each of them once and in strictly ascending
order of their places, and there are no others. An input with a value is listed once for each of its
wires. -/
theorem validate_exact (composite : f.graph? = some g) (whole : g.Whole)
    (types : Option Registry) :
    (f.validate types = [] ↔
      (∀ registry, types = some registry → f.Registered g registry) ∧ f.Tidy g) ∧
    (∃ (front : List Problem) (stops : List Endpoint), f.validate types =
        front ++ stops.map (fun stop => .duplicateFeed stop.node stop.slot) ∧
      (∀ problem ∈ front, problem.isDuplicateFeed = false) ∧
      (∀ stop, stop ∈ stops ↔ 2 ≤ g.feedCount stop) ∧ stops.Pairwise g.Precedes) ∧
    (f.validate types).filter Problem.isShadowedValue =
      (g.wires.filter fun wire => (g.value? wire.stop.node wire.stop.slot).isSome).map
        fun wire => .shadowedValue wire.stop.node wire.stop.slot := by
  refine ⟨validate_eq_nil_iff_tidy composite whole.distinct types, ?_,
    filter_isShadowedValue_validate composite whole.joined types⟩
  obtain ⟨front, plain, report⟩ := validate_parts composite types
  obtain ⟨stops, listed, several, ordered⟩ := feedProblems_eq whole.joined
  refine ⟨front ++ g.wires.flatMap (f.wireProblems g), stops, listed ▸ report, ?_, several, ordered⟩
  intro problem member
  rcases List.mem_append.mp member with early | late
  · exact isDuplicateFeed_eq_false (plain problem early)
  · obtain ⟨wire, present, problems⟩ := List.mem_flatMap.mp late
    exact isDuplicateFeed_wireProblems f g wire problem problems

/-- The sample graph with a value at its node and each of its wires drawn twice. -/
def tangledGraph : Graph Function :=
  { inverterGraph with
    nodes := [(Node.new ⟨.ofNat 2⟩ "not" ⟨0, 0⟩).withValue 1 (.boolean true)]
    wires := [⟨⟨.ofNat 4⟩, ⟨⟨.ofNat 2⟩, 1⟩, ⟨.output, 1⟩⟩,
      ⟨⟨.ofNat 3⟩, ⟨.input, 1⟩, ⟨⟨.ofNat 2⟩, 1⟩⟩,
      ⟨⟨.ofNat 6⟩, ⟨⟨.ofNat 2⟩, 1⟩, ⟨.output, 1⟩⟩,
      ⟨⟨.ofNat 5⟩, ⟨.input, 1⟩, ⟨⟨.ofNat 2⟩, 1⟩⟩] }

/-- A composite with such a graph. -/
def tangled : Function :=
  composite "tangled" "Tangled" [flag] [flag] tangledGraph

/-- The input of the node is reported first, although a wire to the output is drawn before. -/
theorem tangled_validate_exact :
    tangledGraph.Whole ∧ tangled.validate (some .builtins) ≠ [] ∧
    (∃ (front : List Problem) (stops : List Endpoint),
      tangled.validate (some .builtins) =
        front ++ stops.map (fun stop => .duplicateFeed stop.node stop.slot) ∧
      ⟨⟨.ofNat 2⟩, 1⟩ ∈ stops ∧ ⟨.output, 1⟩ ∈ stops ∧ stops.Pairwise tangledGraph.Precedes) ∧
    (tangled.validate (some .builtins)).filter Problem.isShadowedValue =
      [.shadowedValue ⟨.ofNat 2⟩ 1, .shadowedValue ⟨.ofNat 2⟩ 1] := by
  have whole : tangledGraph.Whole :=
    ⟨⟨by decide +kernel, by decide +kernel⟩, by decide +kernel⟩
  obtain ⟨clean, ⟨front, stops, report, _, several, ordered⟩, shadowed⟩ :=
    validate_exact (f := tangled) rfl whole (some .builtins)
  refine ⟨whole, fun empty => ?_, ⟨front, stops, report, (several _).mpr (by decide +kernel),
    (several _).mpr (by decide +kernel), ordered⟩, shadowed.trans (by decide +kernel)⟩
  exact absurd (clean.mp empty).2.once (by decide +kernel)

end Function

end FlowGraph
