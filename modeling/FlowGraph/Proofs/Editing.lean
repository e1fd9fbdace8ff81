/-
**Editing keeps a clean report.**

An editor connects nodes only after it has checked their slots, and a wire and a value never feed
one slot, since each takes the place of the other. So a composite with a clean report keeps it
through every row of such operations, those that are refused included.

* `Graph.Rewritten`, `Graph.AgreeOff`: what an edit leaves alone;
* `Function.Tidy.insertNode`, `Function.Tidy.without`, `Function.Tidy.setValue`,
  `Function.Tidy.addWire`: single edits of a tidy composite;
* `Operation`, `Function.Permits`: what an editor does, and when it offers it;
* `Function.InOrder.operate`: **one operation**;
* `Function.validate_operateAll`: **every row of operations.**
-/

import FlowGraph.Function.Connect
import FlowGraph.Proofs.TidyReport

namespace FlowGraph

/-! ### Edits inside nodes -/

namespace Graph

variable {F : Type} {g changed : Graph F}

/-- A change of a node shows under its identifier. -/
theorem node?_modifyNode (g : Graph F) (id other : NodeId) {change : Node → Node}
    (keeps : ∀ node, (change node).id = node.id) : (g.modifyNode id change).node? other =
      if other = id then (g.node? other).map change else g.node? other := by
  unfold modifyNode node?
  dsimp only
  induction g.nodes with
  | nil => simp [modifyFirst]
  | cons node rest ih =>
    unfold modifyFirst
    by_cases same : node.id = id
    · rw [if_pos same]
      by_cases wanted : other = id
      · simp [keeps, same, wanted]
      · have differ : ¬ node.id = other := fun found => wanted (found.symm.trans same)
        simp [keeps, differ, wanted]
    · rw [if_neg same]
      by_cases found : node.id = other
      · have differ : ¬ other = id := fun wanted => same (found.trans wanted)
        simp [found, differ]
      · simpa [found] using ih

/-- Two graphs differ in what is written into their nodes only. -/
structure Rewritten (g changed : Graph F) : Prop where
  wires : changed.wires = g.wires
  roster : changed.roster = g.roster
  ids : changed.nodes.map Node.id = g.nodes.map Node.id
  functions : changed.nodes.map Node.function = g.nodes.map Node.function
  calls : ∀ id, (changed.node? id).map Node.function = (g.node? id).map Node.function

theorem rewritten_modifyNode (g : Graph F) (id : NodeId) {change : Node → Node}
    (keepsId : ∀ node, (change node).id = node.id)
    (keepsFunction : ∀ node, (change node).function = node.function) :
    g.Rewritten (g.modifyNode id change) where
  wires := rfl
  roster := rfl
  ids := map_modifyFirst Node.id id change keepsId g.nodes
  functions := map_modifyFirst Node.function id change keepsFunction g.nodes
  calls other := by
    rw [node?_modifyNode g id other keepsId]
    split
    · rw [Option.map_map]
      exact congrFun (congrArg Option.map (funext keepsFunction)) _
    · rfl

/-- A node is moved, and nothing else happens. -/
theorem rewritten_moveNode {id : NodeId} {position : Position}
    (done : g.moveNode id position = .ok changed) :
    g.Rewritten changed ∧ ∀ other, changed.valuesOf other = g.valuesOf other := by
  unfold moveNode at done
  split at done
  · cases done
    exact ⟨⟨rfl, rfl, rfl, rfl, fun _ => rfl⟩, fun _ => rfl⟩
  · split at done
    · cases done
      exact ⟨⟨rfl, rfl, rfl, rfl, fun _ => rfl⟩, fun _ => rfl⟩
    · split at done
      · cases done
        refine ⟨rewritten_modifyNode g id (fun _ => rfl) fun _ => rfl, fun other => ?_⟩
        unfold valuesOf
        rw [node?_modifyNode]
        swap
        · exact fun _ => rfl
        split
        · rfl
        · split
          · cases g.node? other <;> rfl
          · rfl
      · cases done

/-- Values are changed at one node, and nothing else happens. -/
theorem rewritten_modifyValues {id : NodeId} {change : Slots → Slots}
    (done : g.modifyValues id change = .ok changed) :
    g.Rewritten changed ∧ id ≠ .input ∧ ∀ other, changed.valuesOf other =
      if other = id then change (g.valuesOf other) else g.valuesOf other := by
  unfold modifyValues at done
  split at done
  · cases done
  · next notInput =>
    split at done
    · next last =>
      cases done
      refine ⟨⟨rfl, rfl, rfl, rfl, fun _ => rfl⟩, notInput, fun other => ?_⟩
      unfold valuesOf
      by_cases wanted : other = .output
      · rw [if_pos wanted, if_pos wanted, if_pos (wanted.trans last.symm)]
      · rw [if_neg wanted, if_neg wanted, if_neg fun same => wanted (same.trans last)]
        rfl
    · next notOutput =>
      split at done
      · next known =>
        cases done
        refine ⟨rewritten_modifyNode g id (fun _ => rfl) fun _ => rfl, notInput, fun other => ?_⟩
        unfold valuesOf
        rw [node?_modifyNode]
        swap
        · exact fun _ => rfl
        by_cases same : other = id
        · obtain ⟨node, present⟩ := Option.isSome_iff_exists.mp known
          rw [same, if_neg notOutput, if_neg notOutput, if_pos rfl, if_pos rfl, present]
          rfl
        · rw [if_neg same, if_neg same]
          rfl
      · cases done

/-- A value is written, and then the wires to its slot are cut. -/
theorem setValue_ok {id : NodeId} {slot : Nat} {value : Value}
    (done : g.setValue id slot value = .ok changed) : ∃ written,
      g.modifyValues id (fun values => values.insert slot value) = .ok written ∧
        changed = written.disconnect ⟨id, slot⟩ := by
  unfold setValue at done
  cases wrote : g.modifyValues id (fun values => values.insert slot value) with
  | error error =>
    rw [wrote] at done
    cases done
  | ok written =>
    rw [wrote] at done
    cases done
    exact ⟨written, rfl, rfl⟩

/-- A wire that is drawn comes behind all others. -/
theorem addWire_ok {wire : WireId} {start stop : Endpoint}
    (done : g.addWire wire start stop = .ok changed) :
    changed = { g with wires := g.wires ++ [⟨wire, start, stop⟩] } := by
  unfold addWire at done
  split at done
  · cases done
  · split at done
    · cases done
    · cases done
      rfl

end Graph

/-! ### Graphs that agree off one node -/

namespace Graph

/-- The nodes that stay when one goes. -/
theorem DistinctIds.mem_without {F : Type} {g : Graph F} (distinct : g.DistinctIds) (gone : NodeId)
    (node : Node) : node ∈ (g.without gone).nodes ↔ node ∈ g.nodes ∧ node.id ≠ gone := by
  have nodup := distinct.nodup
  show node ∈ g.nodes.eraseP (fun node => node.id = gone) ↔ _
  generalize g.nodes = nodes at nodup ⊢
  induction nodes with
  | nil => simp
  | cons first rest ih =>
    obtain ⟨once, nodup⟩ := List.nodup_cons.mp nodup
    by_cases same : first.id = gone
    · rw [List.eraseP_cons_of_pos (by simpa using same), List.mem_cons]
      constructor
      · intro later
        exact ⟨Or.inr later, fun again => once (same.trans again.symm ▸ List.mem_map_of_mem later)⟩
      · rintro ⟨rfl | later, differ⟩
        · exact absurd same differ
        · exact later
    · rw [List.eraseP_cons_of_neg (by simpa using same), List.mem_cons, List.mem_cons, ih nodup]
      constructor
      · rintro (rfl | ⟨later, differ⟩)
        · exact ⟨Or.inl rfl, same⟩
        · exact ⟨Or.inr later, differ⟩
      · rintro ⟨rfl | later, differ⟩
        · exact Or.inl rfl
        · exact Or.inr ⟨later, differ⟩

/-- Two graphs find the same nodes under all identifiers but one. -/
structure AgreeOff {F : Type} (g changed : Graph F) (one : NodeId) : Prop where
  roster : changed.roster = g.roster
  outputValues : changed.outputValues = g.outputValues
  node? : ∀ id ≠ one, changed.node? id = g.node? id

namespace AgreeOff

variable {g changed : Graph Function} {one : NodeId}

theorem valuesOf_eq (agree : g.AgreeOff changed one) {id : NodeId} (differ : id ≠ one) :
    changed.valuesOf id = g.valuesOf id := by
  unfold valuesOf
  rw [agree.node? id differ, agree.outputValues]

theorem calleeOf?_eq (agree : g.AgreeOff changed one) (f : Function) {id : NodeId}
    (differ : id ≠ one) : f.calleeOf? changed id = f.calleeOf? g id := by
  unfold Function.calleeOf?
  rw [agree.node? id differ, agree.roster]

theorem carries (agree : g.AgreeOff changed one) {f : Function} {wire : Wire}
    (apart : wire.start.node ≠ one ∧ wire.stop.node ≠ one) (carries : f.Carries g wire) :
    f.Carries changed wire := by
  unfold Function.Carries
  rw [agree.calleeOf?_eq f apart.1, agree.calleeOf?_eq f apart.2]
  exact carries

end AgreeOff

theorem Rewritten.calleeOf?_eq {g changed : Graph Function} (rewritten : g.Rewritten changed)
    (f : Function) (id : NodeId) : f.calleeOf? changed id = f.calleeOf? g id := by
  unfold Function.calleeOf?
  rw [rewritten.calls, rewritten.roster]

end Graph

namespace Function

variable {f : Function} {g changed : Graph Function}

/-! ### Single edits -/

namespace Tidy

/-- Fewer wires. -/
theorem sublist (tidy : f.Tidy g) {wires : List Wire} (fewer : wires.Sublist g.wires) :
    f.Tidy { g with wires := wires } where
  known := tidy.known
  suits := tidy.suits
  wires wire member := tidy.wires wire (fewer.subset member)
  unshadowed wire member := tidy.unshadowed wire (fewer.subset member)
  once := tidy.once.sublist (fewer.map Wire.stop)

theorem disconnect (tidy : f.Tidy g) (stop : Endpoint) : f.Tidy (g.disconnect stop) :=
  tidy.sublist List.filter_sublist

/-- A new node that calls a known function with values that fit. -/
theorem insertNode (tidy : f.Tidy g) (distinct : g.DistinctIds) (place : Nat) {node : Node}
    (fresh : g.Fresh node) {callee : Function} (found : find? g.roster node.function = some callee)
    (fits : Suits callee.inputs node.values) : f.Tidy (g.insertNode place node) := by
  have distinct' := distinct.insertNode place fresh
  have rows : List.Perm (g.insertNode place node).nodes (node :: g.nodes) := by
    rw [Graph.insertNode_nodes]
    exact List.perm_insertIdx node g.nodes (Nat.min_le_right ..)
  have agree : g.AgreeOff (g.insertNode place node) node.id := by
    refine ⟨rfl, rfl, fun id differ => Option.ext fun other => ?_⟩
    rw [distinct'.node?_eq_some_iff, distinct.node?_eq_some_iff, rows.mem_iff, List.mem_cons]
    constructor
    · rintro ⟨rfl | old, named⟩
      · exact absurd named.symm differ
      · exact ⟨old, named⟩
    · exact fun ⟨old, named⟩ => ⟨Or.inr old, named⟩
  -- No wire of the old graph knows the new node.
  have unknown : ∀ id callee, f.calleeOf? g id = some callee → id ≠ node.id := by
    rintro id callee called rfl
    obtain ⟨other, old, same⟩ := exists_node_of_calleeOf? called fresh.1
    exact fresh.2 (same ▸ List.mem_map_of_mem old)
  have apart : ∀ wire ∈ g.wires, wire.start.node ≠ node.id ∧ wire.stop.node ≠ node.id := by
    intro wire listed
    obtain ⟨source, target, _, _, starts, stops, _⟩ := tidy.wires wire listed
    exact ⟨unknown _ _ starts, unknown _ _ stops⟩
  refine ⟨fun other listed => ?_, fun id callee' called => ?_,
    fun wire listed => agree.carries (apart wire listed) (tidy.wires wire listed),
    fun wire listed => ?_, tidy.once⟩
  · rcases List.mem_cons.mp (rows.mem_iff.mp listed) with rfl | old
    · exact Option.isSome_of_eq_some found
    · exact tidy.known other old
  · by_cases same : id = node.id
    · have member : node ∈ (g.insertNode place node).nodes := rows.mem_iff.mpr List.mem_cons_self
      rw [same, calleeOf?_node f distinct' member] at called
      cases found.symm.trans called
      rw [same, valuesOf_node distinct' (List.mem_append_left _ (List.mem_cons_of_mem _ member))]
      exact fits
    · rw [agree.calleeOf?_eq f same] at called
      rw [agree.valuesOf_eq same]
      exact tidy.suits id callee' called
  · rw [agree.valuesOf_eq (apart wire listed).2]
    exact tidy.unshadowed wire listed

/-- A node is gone, and with it all wires at its slots. -/
theorem without (tidy : f.Tidy g) (distinct : g.DistinctIds) {gone : NodeId}
    (inner : gone.isBoundary = false) : f.Tidy (g.without gone) := by
  have distinct' := distinct.without gone
  have members := distinct.mem_without gone
  have agree : g.AgreeOff (g.without gone) gone := by
    refine ⟨rfl, rfl, fun id differ => Option.ext fun other => ?_⟩
    rw [distinct'.node?_eq_some_iff, distinct.node?_eq_some_iff, members, and_assoc]
    exact and_congr_right fun _ => ⟨And.right, fun named => ⟨named ▸ differ, named⟩⟩
  have apart : ∀ wire ∈ (g.without gone).wires, wire ∈ g.wires ∧ wire.start.node ≠ gone ∧
      wire.stop.node ≠ gone := by
    intro wire listed
    obtain ⟨old, stays⟩ := List.mem_filter.mp listed
    exact ⟨old, of_decide_eq_true stays⟩
  refine ⟨fun node listed => tidy.known node ((members node).mp listed).1,
    fun id callee called => ?_, fun wire listed => ?_, fun wire listed => ?_,
    tidy.once.sublist (List.filter_sublist.map Wire.stop)⟩
  · have differ : id ≠ gone := by
      rintro rfl
      obtain ⟨other, listed, same⟩ := exists_node_of_calleeOf? called inner
      exact ((members other).mp listed).2 same
    rw [agree.calleeOf?_eq f differ] at called
    rw [agree.valuesOf_eq differ]
    exact tidy.suits id callee called
  · obtain ⟨old, ends⟩ := apart wire listed
    exact agree.carries ends (tidy.wires wire old)
  · obtain ⟨old, _, stop⟩ := apart wire listed
    rw [agree.valuesOf_eq stop]
    exact tidy.unshadowed wire old

/-- Values are changed to others that fit and that no wire feeds. -/
theorem rewrite (tidy : f.Tidy g) (rewritten : g.Rewritten changed)
    (fits : ∀ id slot value, (changed.valuesOf id).get? slot = some value →
      (g.valuesOf id).get? slot = some value ∨
        (∀ callee, f.calleeOf? g id = some callee → Fits callee.inputs slot value) ∧
          ⟨id, slot⟩ ∉ g.wires.map Wire.stop) : f.Tidy changed where
  known node member := by
    have called : node.function ∈ g.nodes.map Node.function :=
      rewritten.functions ▸ List.mem_map_of_mem member
    obtain ⟨old, present, same⟩ := List.mem_map.mp called
    rw [rewritten.roster, ← same]
    exact tidy.known old present
  suits id callee called slot value set := by
    rw [rewritten.calleeOf?_eq] at called
    rcases fits id slot value set with old | ⟨fit, _⟩
    · exact tidy.suits id callee called slot value old
    · exact fit callee called
  wires wire member := by
    rw [rewritten.wires] at member
    unfold Carries
    rw [rewritten.calleeOf?_eq, rewritten.calleeOf?_eq]
    exact tidy.wires wire member
  unshadowed wire member := by
    rw [rewritten.wires] at member
    rw [Option.eq_none_iff_forall_ne_some]
    intro value set
    rcases fits wire.stop.node wire.stop.slot value set with old | ⟨_, unfed⟩
    · rw [tidy.unshadowed wire member] at old
      cases old
    · exact unfed (List.mem_map_of_mem member)
  once := by
    rw [rewritten.wires]
    exact tidy.once

theorem clearValue (tidy : f.Tidy g) {id : NodeId} {slot : Nat}
    (done : g.clearValue id slot = .ok changed) : f.Tidy changed := by
  obtain ⟨rewritten, _, values⟩ := Graph.rewritten_modifyValues done
  refine tidy.rewrite rewritten fun other wanted value set => Or.inl ?_
  rw [values other] at set
  split at set
  · rw [Slots.get?_erase] at set
    split at set
    · cases set
    · exact set
  · exact set

/-- A value that fits takes the place of every wire that ends at its slot. -/
theorem setValue (tidy : f.Tidy g) {id : NodeId} {slot : Nat} {value : Value}
    (fits : ∀ callee, f.calleeOf? g id = some callee → Fits callee.inputs slot value)
    (done : g.setValue id slot value = .ok changed) : f.Tidy changed := by
  obtain ⟨written, wrote, rfl⟩ := Graph.setValue_ok done
  obtain ⟨rewritten, _, values⟩ := Graph.rewritten_modifyValues wrote
  -- Cutting the wires first gives the same graph, and then no wire feeds the slot.
  have cut := tidy.disconnect ⟨id, slot⟩
  refine cut.rewrite ⟨?_, rewritten.roster, rewritten.ids, rewritten.functions, rewritten.calls⟩
    fun other wanted found set => ?_
  · show written.wires.filter _ = g.wires.filter _
    rw [rewritten.wires]
  · have looked : (written.valuesOf other).get? wanted = some found := set
    rw [values other] at looked
    split at looked
    · next same =>
      rw [Slots.get?_insert] at looked
      split at looked
      · next here =>
        cases looked
        refine Or.inr ⟨fun callee called => ?_, fun fed => ?_⟩
        · rw [here]
          exact fits callee (same ▸ called)
        · obtain ⟨wire, member, stop⟩ := List.mem_map.mp fed
          have away := of_decide_eq_true (List.mem_filter.mp member).2
          rw [stop, same, here] at away
          exact away rfl
      · exact Or.inl looked
    · exact Or.inl looked

/-- A wire between declared slots of one type, none of which is fed otherwise. -/
theorem addWire (tidy : f.Tidy g) {wire : Wire} (carries : f.Carries g wire)
    (unset : (g.valuesOf wire.stop.node).get? wire.stop.slot = none)
    (unfed : wire.stop ∉ g.wires.map Wire.stop) : f.Tidy { g with wires := g.wires ++ [wire] } where
  known := tidy.known
  suits := tidy.suits
  wires other member := by
    rcases List.mem_append.mp member with old | new
    · exact tidy.wires other old
    · cases List.mem_singleton.mp new
      exact carries
  unshadowed other member := by
    rcases List.mem_append.mp member with old | new
    · exact tidy.unshadowed other old
    · cases List.mem_singleton.mp new
      exact unset
  once := by
    rw [List.map_append]
    refine List.nodup_append.mpr ⟨tidy.once, List.nodup_singleton _, ?_⟩
    rintro stop listed _ new rfl
    cases List.mem_singleton.mp new
    exact unfed listed

end Tidy

end Function

/-! ### Operations of an editor -/

/-- Something that an editor does to a composite: it draws a wire between two places, removes the
wires that end at a place, or edits the graph. -/
inductive Operation where
  | connect (wire : WireId) (link : Link)
  | disconnect (stop : Place)
  | edit (edit : Edit)

namespace Function

variable {f : Function} {g changed : Graph Function}

/-- The function after an operation, whether it succeeds or is refused. -/
def operate (f : Function) : Operation → Function
  | .connect wire link => (f.connect wire link).1
  | .disconnect stop =>
    match f.disconnect stop with
    | .ok (_, changed) => changed
    | .error _ => f
  | .edit edit =>
    match f.graph? with
    | some g => f.setGraph (g.apply edit)
    | none => f

/-- The function after a row of operations. -/
def operateAll (f : Function) (operations : List Operation) : Function :=
  operations.foldl operate f

/-- What an editor offers: a new node has a fresh identifier, calls a function of the roster and
brings values that fit; a value is set only where it fits; wires are drawn by connecting. -/
def Permits (f : Function) (g : Graph Function) : Operation → Prop
  | .edit (.addNode node) | .edit (.insertNode _ node) =>
    g.Fresh node ∧ ∃ callee ∈ find? g.roster node.function, Suits callee.inputs node.values
  | .edit (.setValue id slot value) =>
    ∃ index ∈ g.indexOf? id, ∃ p ∈ f.inputAt? ⟨index, slot⟩, p.type = value.tag
  | .edit (.addLink ..) | .edit (.addWire ..) => False
  | _ => True

/-- Every operation of a row is offered when its turn comes. -/
def PermitsAll (f : Function) : List Operation → Prop
  | [] => True
  | operation :: operations =>
    (∃ g ∈ f.graph?, f.Permits g operation) ∧ (f.operate operation).PermitsAll operations

instance (inputs : List Parameter) (slot : Nat) (value : Value) :
    Decidable (Fits inputs slot value) :=
  inferInstanceAs (Decidable (∃ p ∈ inputs[slot]?, p.type = value.tag))

instance (inputs : List Parameter) (values : Slots) : Decidable (Suits inputs values) :=
  decidable_of_iff (∀ entry ∈ values.entries, Fits inputs entry.1 entry.2) <| by
    simp only [Suits, Slots.get?_eq_some_iff, Prod.forall]

instance (f : Function) (g : Graph Function) : (operation : Operation) →
    Decidable (f.Permits g operation)
  | .edit (.addNode _) | .edit (.insertNode _ _) => inferInstanceAs (Decidable (_ ∧ _))
  | .edit (.setValue id slot _) =>
    inferInstanceAs (Decidable (∃ index ∈ g.indexOf? id, ∃ p ∈ f.inputAt? ⟨index, slot⟩, _))
  | .edit (.addLink ..) | .edit (.addWire ..) => .isFalse fun offered => offered
  | .edit (.removeNode _) | .edit (.moveNode ..) | .edit (.clearValue ..) | .edit (.disconnect _)
  | .edit (.removeWire _) | .connect .. | .disconnect _ => .isTrue trivial

instance decidablePermitsAll : (f : Function) → (operations : List Operation) →
    Decidable (f.PermitsAll operations)
  | _, [] => .isTrue trivial
  | f, operation :: operations =>
    have := decidablePermitsAll (f.operate operation) operations
    inferInstanceAs (Decidable (_ ∧ _))

/-- A composite with distinct identifiers and a clean report. -/
structure InOrder (types : Option Registry) (f : Function) (g : Graph Function) : Prop where
  composite : f.graph? = some g
  distinct : g.DistinctIds
  registered : ∀ registry, types = some registry → f.Registered g registry
  tidy : f.Tidy g

/-- Both steps of a check passed. -/
theorem ok_of_bind_eq_ok {ε α β : Type} {check : Except ε α} {next : α → Except ε β} {result : β}
    (passed : check >>= next = .ok result) :
    ∃ found, check = .ok found ∧ next found = .ok result := by
  cases check with
  | error error => cases passed
  | ok found => exact ⟨found, rfl, passed⟩

/-- What passed the checks of a wire. -/
theorem checkLink_ok {link : Link} {start stop : Endpoint}
    (checked : f.checkLink link = .ok (g, start, stop)) :
    f.graph? = some g ∧ g.endpointAt link.start = .ok start ∧ g.endpointAt link.stop = .ok stop ∧
      ∃ output input, f.outputAt? link.start = some output ∧
        f.inputAt? link.stop = some input ∧ output.type = input.type := by
  unfold checkLink at checked
  obtain ⟨graph, edits, checked⟩ := ok_of_bind_eq_ok checked
  obtain ⟨first, starts, checked⟩ := ok_of_bind_eq_ok checked
  obtain ⟨last, stops, checked⟩ := ok_of_bind_eq_ok checked
  split at checked
  · cases checked
  · cases checked
  · next output input has takes =>
    split at checked
    · next same =>
      cases checked
      unfold editable at edits
      split at edits
      · next composite =>
        cases edits
        exact ⟨composite, starts, stops, output, input, has, takes, same⟩
      · cases edits
    · cases checked

/-- The function at a place, by the identifier of the place. -/
theorem functionAt?_of_endpointAt (composite : f.graph? = some g) (distinct : g.DistinctIds)
    {place : Place} {endpoint : Endpoint} (located : g.endpointAt place = .ok endpoint) :
    f.functionAt? place.node = f.calleeOf? g endpoint.node ∧ endpoint.slot = place.slot := by
  unfold Graph.endpointAt at located
  split at located
  · next named =>
    cases located
    unfold functionAt?
    rw [composite, Option.bind_some,
      calleeIn?_eq_calleeOf? f (distinct.indexOf?_of_nodeIdAt? named)]
    exact ⟨rfl, rfl⟩
  · cases located

/-- A wire that passed its checks joins declared slots of one type. -/
theorem carries_of_checkLink (distinct : g.DistinctIds) {link : Link} {start stop : Endpoint}
    (checked : f.checkLink link = .ok (g, start, stop)) (wire : WireId) :
    f.Carries g ⟨wire, start, stop⟩ := by
  obtain ⟨composite, starts, stops, output, input, has, takes, same⟩ := checkLink_ok checked
  obtain ⟨source, startSlot⟩ := functionAt?_of_endpointAt composite distinct starts
  obtain ⟨target, stopSlot⟩ := functionAt?_of_endpointAt composite distinct stops
  obtain ⟨caller, calls, has⟩ := Option.bind_eq_some_iff.mp has
  obtain ⟨callee, called, takes⟩ := Option.bind_eq_some_iff.mp takes
  exact ⟨caller, callee, output, input, source.symm.trans calls, target.symm.trans called,
    startSlot ▸ has, stopSlot ▸ takes, same⟩

namespace InOrder

variable {types : Option Registry}

/-- Another graph with the same roster. -/
theorem setGraph (order : f.InOrder types g) (distinct : changed.DistinctIds)
    (roster : changed.roster = g.roster) (tidy : f.Tidy changed) :
    (f.setGraph changed).InOrder types changed where
  composite := rfl
  distinct := distinct
  registered registry given := by
    have old := order.registered registry given
    unfold Registered at old ⊢
    rw [roster]
    exact old
  -- The boundary of a composite does not depend on its graph.
  tidy := ⟨tidy.known, tidy.suits, tidy.wires, tidy.unshadowed, tidy.once⟩

theorem edit (order : f.InOrder types g) {edit : Edit} (permitted : f.Permits g (.edit edit)) :
    (f.setGraph (g.apply edit)).InOrder types (g.apply edit) := by
  have tidy := order.tidy
  have distinct := order.distinct
  have whole := tidy.whole distinct
  have unchanged : (f.setGraph g).InOrder types g := order.setGraph distinct rfl tidy
  cases edit with
  | addNode node =>
    obtain ⟨fresh, callee, found, fits⟩ := permitted
    show (f.setGraph (g.addNode node)).InOrder types (g.addNode node)
    rw [Graph.addNode_eq]
    exact order.setGraph (distinct.insertNode _ fresh) rfl
      (tidy.insertNode distinct _ fresh found fits)
  | insertNode place node =>
    obtain ⟨fresh, callee, found, fits⟩ := permitted
    exact order.setGraph (distinct.insertNode place fresh) rfl
      (tidy.insertNode distinct place fresh found fits)
  | removeNode id =>
    simp only [Graph.apply, Graph.removeNode]
    cases boundary : id.isBoundary with
    | true => exact unchanged
    | false =>
      cases g.node? id with
      | none => exact unchanged
      | some node => exact order.setGraph (distinct.without id) rfl (tidy.without distinct boundary)
  | moveNode id position =>
    simp only [Graph.apply]
    cases done : g.moveNode id position with
    | error error => exact unchanged
    | ok changed =>
      obtain ⟨rewritten, values⟩ := Graph.rewritten_moveNode done
      show (f.setGraph changed).InOrder types changed
      refine order.setGraph (whole.of_ids rewritten.ids rewritten.wires).1.distinct rewritten.roster
        (tidy.rewrite rewritten fun other slot value set => Or.inl ?_)
      rw [values other] at set
      exact set
  | setValue id slot value =>
    obtain ⟨index, found, p, declared, same⟩ := permitted
    simp only [Graph.apply]
    cases done : g.setValue id slot value with
    | error error => exact unchanged
    | ok changed =>
      have fits : ∀ callee, f.calleeOf? g id = some callee → Fits callee.inputs slot value := by
        intro callee called
        unfold inputAt? functionAt? at declared
        rw [order.composite, Option.bind_some, calleeIn?_eq_calleeOf? f found, called] at declared
        exact ⟨p, declared, same⟩
      obtain ⟨written, wrote, rfl⟩ := Graph.setValue_ok done
      obtain ⟨rewritten, _⟩ := Graph.rewritten_modifyValues wrote
      obtain ⟨nodup, inner⟩ := (whole.of_ids rewritten.ids rewritten.wires).1.distinct
      exact order.setGraph ⟨nodup, inner⟩ rewritten.roster (tidy.setValue fits done)
  | clearValue id slot =>
    simp only [Graph.apply]
    cases done : g.clearValue id slot with
    | error error => exact unchanged
    | ok changed =>
      obtain ⟨rewritten, _⟩ := Graph.rewritten_modifyValues done
      exact order.setGraph (whole.of_ids rewritten.ids rewritten.wires).1.distinct rewritten.roster
        (tidy.clearValue done)
  | addLink wire link => exact permitted.elim
  | addWire wire start stop => exact permitted.elim
  | disconnect stop =>
    exact order.setGraph ⟨distinct.nodup, distinct.inner⟩ rfl (tidy.disconnect stop)
  | removeWire wire =>
    exact order.setGraph ⟨distinct.nodup, distinct.inner⟩ rfl (tidy.sublist List.eraseP_sublist)

/-- Every stage of connecting leaves a clean composite: wires are cut, a value is cleared, and the
new wire comes last. -/
theorem connect (order : f.InOrder types g) (wire : WireId) (link : Link) :
    ∃ changed, (f.connect wire link).1.InOrder types changed := by
  have tidy := order.tidy
  have distinct := order.distinct
  unfold Function.connect
  cases checked : f.checkLink link with
  | error error => exact ⟨g, order⟩
  | ok ends =>
    obtain ⟨graph, start, stop⟩ := ends
    cases order.composite.symm.trans (checkLink_ok checked).1
    have cutTidy := tidy.disconnect stop
    have cutWhole : (g.disconnect stop).Whole :=
      cutTidy.whole ⟨distinct.nodup, distinct.inner⟩
    dsimp only
    cases done : (g.disconnect stop).clearValue stop.node stop.slot with
    | error error => exact ⟨_, order.setGraph cutWhole.distinct rfl cutTidy⟩
    | ok cleared =>
      obtain ⟨rewritten, _, values⟩ := Graph.rewritten_modifyValues done
      have clearedTidy := cutTidy.clearValue done
      have clearedDistinct := (cutWhole.of_ids rewritten.ids rewritten.wires).1.distinct
      have roster : cleared.roster = g.roster := rewritten.roster
      dsimp only
      cases wired : cleared.addWire wire start stop with
      | error error => exact ⟨_, order.setGraph clearedDistinct roster clearedTidy⟩
      | ok drawn =>
        have carries : f.Carries cleared ⟨wire, start, stop⟩ := by
          unfold Carries
          rw [rewritten.calleeOf?_eq, rewritten.calleeOf?_eq]
          exact carries_of_checkLink distinct checked wire
        have unset : (cleared.valuesOf stop.node).get? stop.slot = none := by
          rw [values, if_pos rfl, Slots.get?_erase, if_pos rfl]
        have unfed : stop ∉ cleared.wires.map Wire.stop := by
          rw [rewritten.wires]
          intro fed
          obtain ⟨other, member, stops⟩ := List.mem_map.mp fed
          exact of_decide_eq_true (List.mem_filter.mp member).2 stops
        cases Graph.addWire_ok wired
        exact ⟨_, order.setGraph ⟨clearedDistinct.nodup, clearedDistinct.inner⟩ roster
          (clearedTidy.addWire carries unset unfed)⟩

theorem disconnect (order : f.InOrder types g) (stop : Place) :
    ∃ changed, (f.operate (.disconnect stop)).InOrder types changed := by
  have distinct := order.distinct
  unfold operate Function.disconnect editable
  rw [order.composite]
  cases located : g.endpointAt stop with
  | error error =>
    simp only [bind, Except.bind, located]
    exact ⟨g, order⟩
  | ok endpoint =>
    simp only [bind, Except.bind, located]
    exact ⟨_, order.setGraph ⟨distinct.nodup, distinct.inner⟩ rfl (order.tidy.disconnect _)⟩

/-- **One operation** keeps a clean report. -/
theorem operate (order : f.InOrder types g) {operation : Operation}
    (permitted : f.Permits g operation) :
    ∃ changed, (f.operate operation).InOrder types changed := by
  cases operation with
  | connect wire link => exact order.connect wire link
  | disconnect stop => exact order.disconnect stop
  | edit edit =>
    unfold Function.operate
    rw [order.composite]
    exact ⟨_, order.edit permitted⟩

theorem operateAll (order : f.InOrder types g) {operations : List Operation}
    (permitted : f.PermitsAll operations) :
    ∃ changed, (f.operateAll operations).InOrder types changed := by
  induction operations generalizing f g with
  | nil => exact ⟨g, order⟩
  | cons operation operations ih =>
    obtain ⟨⟨graph, composite, offered⟩, later⟩ := permitted
    cases order.composite.symm.trans composite
    obtain ⟨changed, next⟩ := order.operate offered
    exact ih next later

end InOrder

/-- **Editing keeps a clean report.** A composite with distinct identifiers and a clean report has a
clean report after every row of operations that an editor offers, whether they succeed or not. -/
theorem validate_operateAll (types : Option Registry) (composite : f.graph? = some g)
    (distinct : g.DistinctIds) (clean : f.validate types = []) (operations : List Operation)
    (permitted : f.PermitsAll operations) : (f.operateAll operations).validate types = [] := by
  obtain ⟨registered, tidy⟩ := (validate_eq_nil_iff_tidy composite distinct types).mp clean
  have order : f.InOrder types g := ⟨composite, distinct, registered, tidy⟩
  obtain ⟨changed, after⟩ := order.operateAll permitted
  exact (validate_eq_nil_iff_tidy after.composite after.distinct types).mpr
    ⟨after.registered, after.tidy⟩

/-- A second node is put in, joined to the first and to the output, given a value in place of its
wire, and the first node is taken out again. On the way there are wires that are refused: from a
node that is not there, between types that differ, and into the Input node. -/
def detour : List Operation :=
  [.edit (.insertNode 0 (.new ⟨.ofNat 7⟩ "not" ⟨0, 0⟩)),
    .connect ⟨.ofNat 8⟩ ⟨⟨2, 1⟩, ⟨1, 1⟩⟩,
    .connect ⟨.ofNat 9⟩ ⟨⟨1, 1⟩, ⟨3, 1⟩⟩,
    .connect ⟨.ofNat 10⟩ ⟨⟨5, 1⟩, ⟨3, 1⟩⟩,
    .connect ⟨.ofNat 10⟩ ⟨⟨0, 0⟩, ⟨3, 1⟩⟩,
    .connect ⟨.ofNat 10⟩ ⟨⟨1, 1⟩, ⟨0, 0⟩⟩,
    .edit (.setValue ⟨.ofNat 7⟩ 1 (.boolean true)),
    .disconnect ⟨2, 1⟩,
    .edit (.removeNode ⟨.ofNat 2⟩),
    .edit (.clearValue ⟨.ofNat 7⟩ 1),
    .connect ⟨.ofNat 11⟩ ⟨⟨0, 1⟩, ⟨1, 1⟩⟩,
    .edit (.removeNode .output),
    .edit (.removeWire ⟨.ofNat 9⟩)]

theorem inverter_validate_operateAll :
    inverter.PermitsAll detour ∧ inverter.validate (some .builtins) = [] ∧
      (inverter.operateAll detour).validate (some .builtins) = [] ∧
      ((inverter.operateAll (detour.take 12)).run [.boolean true]).result =
        .ok [.boolean false] := by
  have permitted : inverter.PermitsAll detour := by decide +kernel
  have clean : inverter.validate (some .builtins) = [] := by decide +kernel
  exact ⟨permitted, clean, validate_operateAll _ rfl inverterGraph_distinctIds clean _ permitted,
    by decide +kernel⟩

end Function

end FlowGraph
