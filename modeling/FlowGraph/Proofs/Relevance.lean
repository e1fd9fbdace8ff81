/-
**What the result of a run depends on.**

A node matters if a path of wires leads from it to the Output node. The other nodes share the pool,
the pending nodes and the passes of a run with those that matter, and still nothing of them shows in
the result, unless one of them calls a composite and fails.

* `Graph.Matters`: a path of wires leads to the Output node;
* `Function.corresponds_of_agree`: a composite corresponds to itself in the nodes that matter, on
  inputs that agree where they get to such a node;
* `Function.run_noninterference`: **inputs that do not get to the Output node do not interfere.**
-/

import FlowGraph.Proofs.Correspondence
import FlowGraph.Proofs.Progress
import FlowGraph.Proofs.Renaming

namespace FlowGraph

/-! ### Nodes that matter -/

namespace Graph

variable {F : Type} {g : Graph F}

/-- A path of wires leads from a node to the Output node. -/
def Matters (g : Graph F) (index : Nat) : Prop :=
  Relation.ReflTransGen g.Leads index g.outputIndex

theorem matters_output (g : Graph F) : g.Matters g.outputIndex :=
  .refl

theorem Matters.start {link : Link} (member : link ∈ g.links)
    (matters : g.Matters link.stop.node) : g.Matters link.start.node :=
  .head ⟨link, member, rfl, rfl⟩ matters

/-- The nodes that matter are among those of any row that has the Output node and, with the end of a
wire, also its start. -/
theorem Matters.mem {index : Nat} (matters : g.Matters index) {row : List Nat}
    (output : g.outputIndex ∈ row)
    (closed : ∀ link ∈ g.links, link.stop.node ∈ row → link.start.node ∈ row) : index ∈ row := by
  induction matters using Relation.ReflTransGen.head_induction_on with
  | refl => exact output
  | head lead _ ih =>
    obtain ⟨link, member, rfl, rfl⟩ := lead
    exact closed link member ih

end Graph

/-! ### Composites -/

namespace Function

variable {f : Function} {g : Graph Function} {inputs others : List Value}

/-- A node that calls a native function, or none that is known, never fails. -/
theorem calm_of_native {index : Nat} (inner : index ≠ 0) (inside : index ≠ g.outputIndex)
    (native : ∀ callee, f.calleeIn? g index = some callee → callee.isComposite = false) :
    (f.circuit g).Calm index := by
  intro station bound located calls depth arguments
  have related := station_bound f g index
  rw [located, Option.bind_some, calls] at related
  generalize called : f.calleeIn? g index = callee? at related
  cases related with
  | @some _ callee related =>
    rw [related.evaluate inner inside]
    cases body : callee.body with
    | native mapping => exact ⟨_, by rw [evaluateAt_native body]⟩
    | composite h =>
      have isComposite := isComposite_of_body body
      rw [native callee called] at isComposite
      cases isComposite

/-- Nor does a node that does not matter, if such nodes call no composites. -/
theorem calm_of_dead
    (natives : ∀ index callee, ¬ g.Matters index → f.calleeIn? g index = some callee →
      callee.isComposite = false) {index : Nat} (dead : ¬ (index = 0 ∨ g.Matters index)) :
    (f.circuit g).Calm index := by
  obtain ⟨inner, dead⟩ := not_or.mp dead
  exact calm_of_native inner (fun last => dead (last ▸ g.matters_output))
    fun callee => natives index callee dead

/-- Every node of a composite is like itself, at any depth of nesting. -/
theorem alike_station (f : Function) (g : Graph Function) (index : Nat) :
    Option.Rel Station.Alike (f.circuit g).stations[index]? (f.circuit g).stations[index]? := by
  have renamed : f.Renamed f g g :=
    ⟨rfl, rfl, rfl, List.forall₂_same.mpr fun _ _ => ⟨rfl, rfl⟩, rfl, rfl⟩
  exact renamed.circuit.alike.station index

/-- The Input node of a composite can always run. -/
theorem opens_circuit (f : Function) (g : Graph Function) (pool : Pool) :
    ∃ station callee, (f.circuit g).CanRun pool 0 station callee :=
  ⟨_, _, rfl, rfl, rfl, rfl⟩

/-- **On inputs that agree where it matters** a composite corresponds to itself, in the nodes that
matter. -/
theorem corresponds_of_agree
    (natives : ∀ index callee, ¬ g.Matters index → f.calleeIn? g index = some callee →
      callee.isComposite = false)
    (agree : ∀ link ∈ g.links, link.start.node = 0 → g.Matters link.stop.node →
      ∀ position, link.start.slot = position + 1 → inputs[position]? = others[position]?) :
    Circuit.Corresponds (fun a b => a = b ∧ (a = 0 ∨ g.Matters a)) inputs others
      (f.circuit g) (f.circuit g) := by
  refine
    { unique := ⟨fun _ _ _ first second => first.1.trans second.1.symm,
        fun _ _ _ first second => first.1.symm.trans second.1⟩
      start := ⟨rfl, Or.inl rfl⟩
      output := ⟨rfl, Or.inr (outputIndex_circuit f g ▸ g.matters_output)⟩
      outputCount := rfl
      rows := .of_forall₂ (List.forall₂_same.mpr fun a _ => ?_)
      opens := opens_circuit f g
      opens' := opens_circuit f g
      stations := ?_
      links := ?_
      calm := fun alone => calm_of_dead natives fun kept => alone _ ⟨rfl, kept⟩
      calm' := fun alone => calm_of_dead natives fun kept => alone _ ⟨rfl, kept⟩ }
  · by_cases kept : a = 0 ∨ g.Matters a
    · exact Or.inl ⟨rfl, kept⟩
    · exact Or.inr ⟨fun _ paired => kept paired.2, fun _ paired => kept (paired.1 ▸ paired.2)⟩
  · rintro a _ ⟨rfl, _⟩
    exact alike_station f g a
  · rintro a _ ⟨rfl, kept⟩ inner
    refine List.forall₂_same.mpr fun link member => ⟨rfl, ?_⟩
    obtain ⟨wired, stop⟩ := List.mem_filter.mp member
    have matters : g.Matters link.stop.node := by
      rw [of_decide_eq_true stop]
      exact kept.resolve_left inner
    refine ⟨⟨rfl, Or.inr (matters.start wired)⟩, rfl, fun first => ?_⟩
    cases slot : link.start.slot with
    | zero => rfl
    | succ position => exact agree link wired first matters position slot

/-- **Inputs that do not get to the Output node do not interfere.** If every node that does not
matter calls a native function, or none that is known, then a composite gives the same result on all
inputs that agree at the positions from which a wire of the Input node leads to a node that
matters. -/
theorem run_noninterference (composite : f.body = .composite g)
    (natives : ∀ index callee, ¬ g.Matters index → f.calleeIn? g index = some callee →
      callee.isComposite = false)
    (agree : ∀ link ∈ g.links, link.start.node = 0 → g.Matters link.stop.node →
      ∀ position, link.start.slot = position + 1 → inputs[position]? = others[position]?) :
    (f.run inputs).result = (f.run others).result := by
  have same := Circuit.run_corresponds (corresponds_of_agree natives agree) 0 0
  rw [run_composite composite, run_composite composite]
  generalize ((f.circuit g).run 0 inputs).result = first at same
  generalize ((f.circuit g).run 0 others).result = second at same
  cases same with
  | ok values => rfl
  | stalled => rfl
  | failed paired => rw [paired.1]

/-- A graph with a loop of two nodes that leads nowhere: the second input is the gate of the one,
the other feeds it and is fed by it. The third node turns the first input around. -/
def distractedGraph : Graph Function :=
  { Graph.new [⟨"Logic", [negation]⟩] with
    nodes := [.new ⟨.ofNat 2⟩ "not" ⟨0, 0⟩,
      { Node.new ⟨.ofNat 3⟩ "not" ⟨0, 0⟩ with values := .single 1 (.boolean true) },
      .new ⟨.ofNat 4⟩ "not" ⟨0, 0⟩]
    wires := [⟨⟨.ofNat 5⟩, ⟨⟨.ofNat 3⟩, 1⟩, ⟨⟨.ofNat 2⟩, 1⟩⟩,
      ⟨⟨.ofNat 6⟩, ⟨⟨.ofNat 2⟩, 1⟩, ⟨⟨.ofNat 3⟩, 1⟩⟩,
      ⟨⟨.ofNat 7⟩, ⟨.input, 2⟩, ⟨⟨.ofNat 3⟩, 0⟩⟩,
      ⟨⟨.ofNat 8⟩, ⟨.input, 1⟩, ⟨⟨.ofNat 4⟩, 1⟩⟩,
      ⟨⟨.ofNat 9⟩, ⟨⟨.ofNat 4⟩, 1⟩, ⟨.output, 1⟩⟩] }

/-- A composite with such a graph. -/
def distracted : Function :=
  composite "distracted" "Distracted" [flag, flag] [flag] distractedGraph

/-- The only function that the nodes of this graph find is the negation. -/
theorem natives_distracted {index : Nat} {callee : Function}
    (calls : distracted.calleeIn? distractedGraph index = some callee) :
    callee.isComposite = false := by
  rcases calleeIn?_cases calls with ⟨_, rfl⟩ | ⟨_, rfl⟩ | ⟨_, _, _, known⟩
  · rfl
  · rfl
  · cases List.mem_singleton.mp (List.mem_of_find?_eq_some known)
    rfl

theorem distracted_noninterference :
    ¬ distractedGraph.Matters 1 ∧ ¬ distractedGraph.Matters 2 ∧
      Event.steps (distracted.run [.boolean true, .signal]).events = [0, 2, 3, 4] ∧
      Event.steps (distracted.run [.boolean true, .noSignal]).events = [0, 3, 4] ∧
      (distracted.run [.boolean true, .signal]).result =
        (distracted.run [.boolean true, .noSignal]).result := by
  have output : distractedGraph.outputIndex ∈ [0, 3, 4] := by decide
  have closed : ∀ link ∈ distractedGraph.links, link.stop.node ∈ [0, 3, 4] →
      link.start.node ∈ [0, 3, 4] := by decide +kernel
  refine ⟨fun matters => ?_, fun matters => ?_, by decide +kernel, by decide +kernel, ?_⟩
  · exact absurd (matters.mem output closed) (by decide)
  · exact absurd (matters.mem output closed) (by decide)
  · refine run_noninterference rfl (fun _ _ _ => natives_distracted) ?_
    intro link member first matters position slot
    have positions : ∀ link ∈ distractedGraph.links, link.start.node = 0 →
        link.stop.node ∈ [0, 3, 4] → link.start.slot = 1 := by decide +kernel
    rw [positions link member first (matters.mem output closed)] at slot
    cases slot
    rfl

end Function

end FlowGraph
