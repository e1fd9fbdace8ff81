/-
**Nesting of functions.**

A composite calls the functions of its roster, which may be composites in turn; the nesting is
finite, so functions can be reasoned about from the inside out. The depth of nesting at which a
function is evaluated shows in the events only.

* `Function.nesting_induction`: **what holds of a function whenever it holds of all functions of its
  roster holds of every function**;
* `Function.evaluateAt_depth`: the result of an evaluation is the same at every depth.
-/

import FlowGraph.Proofs.Alike
import FlowGraph.Run.Evaluate

namespace FlowGraph

/-! ### Induction over the nesting -/

/-- A function of a roster is smaller than the composite that may call it. -/
theorem sizeOf_lt_of_mem_roster {f callee : Function} {g : Graph Function}
    (composite : f.body = .composite g) (member : callee ∈ Folder.flatten g.roster) :
    sizeOf callee < sizeOf f := by
  obtain ⟨folder, inRoster, inFolder⟩ := List.mem_flatMap.mp member
  have first : sizeOf callee < sizeOf folder.content := List.sizeOf_lt_of_mem inFolder
  have second : sizeOf folder < sizeOf g.roster := List.sizeOf_lt_of_mem inRoster
  have third : sizeOf folder.content < sizeOf folder := by
    cases folder
    simp +arith
  have fourth : sizeOf g.roster < sizeOf g := by
    cases g
    simp +arith
  have fifth : sizeOf g < sizeOf f.body := by
    rw [composite]
    simp
  have sixth : sizeOf f.body < sizeOf f := by
    cases f
    simp +arith
  omega

/-- **Induction over the nesting of functions.** -/
theorem Function.nesting_induction {motive : Function → Prop}
    (step : ∀ f, (∀ g, f.body = .composite g → ∀ callee ∈ Folder.flatten g.roster, motive callee) →
      motive f) (f : Function) : motive f := by
  induction size : sizeOf f using Nat.strong_induction_on generalizing f with
  | _ bound ih =>
    refine step f fun g composite callee member => ?_
    exact ih _ (size ▸ sizeOf_lt_of_mem_roster composite member) callee rfl

/-! ### Evaluation at different depths -/

/-- A callee that a node of a graph is bound to is a function of the roster. -/
theorem mem_roster_of_callee {g : Graph Function} {node : Node} {callee : Callee}
    (bound : (Station.ofNode g.callees node).callee? = some callee) :
    ∃ h ∈ Folder.flatten g.roster, callee = h.callee := by
  have member : callee ∈ g.callees := List.mem_of_find?_eq_some bound
  rw [Graph.callees_eq] at member
  obtain ⟨h, inRoster, same⟩ := List.mem_map.mp member
  exact ⟨h, inRoster, same.symm⟩

/-- **The result of an evaluation is the same at every depth of nesting.** -/
theorem Function.evaluateAt_depth (f : Function) (depth other : Nat) (inputs : List Value) :
    (f.evaluateAt depth inputs).result = (f.evaluateAt other inputs).result := by
  induction f using Function.nesting_induction generalizing depth other inputs with
  | step f ih =>
    cases body : f.body with
    | native mapping => rw [evaluateAt_native body, evaluateAt_native body]
    | composite g =>
      have same : ∀ callee : Callee, callee.Alike callee ↔ ∀ depth other inputs,
          (callee.evaluate depth inputs).result = (callee.evaluate other inputs).result :=
        fun callee => ⟨Callee.Alike.evaluate, fun steady => ⟨rfl, rfl, steady⟩⟩
      have alike : (f.circuit g).Alike (f.circuit g) := by
        refine ⟨rfl, rfl, List.forall₂_same.mpr fun station member => ⟨rfl, ?_⟩⟩
        rcases List.mem_append.mp member with front | back
        · rcases List.mem_cons.mp front with rfl | inner
          · exact .some ((same _).mpr fun _ _ _ => rfl)
          · obtain ⟨node, _, rfl⟩ := List.mem_map.mp inner
            cases bound : (Station.ofNode g.callees node).callee? with
            | none => exact .none
            | some callee =>
              obtain ⟨h, inRoster, rfl⟩ := mem_roster_of_callee bound
              exact .some ((same _).mpr (ih g body h inRoster))
        · cases List.mem_singleton.mp back
          exact .some ((same _).mpr fun _ _ _ => rfl)
      rw [evaluateAt_composite body, evaluateAt_composite body]
      exact congrArg (Except.map (Value.signal :: ·))
        (Circuit.run_alike alike (inputs.drop 1) depth other)

end FlowGraph
