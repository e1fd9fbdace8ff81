/-
**Edits seen by position.**

Wires are kept by the identifiers of their nodes and numbered on demand. A board is what an editor
shows instead: the nodes in order and the wires by the indices of their ends, which every insertion
and removal renumbers. In any row of edits the two agree after every step.

* `Edit`, `Graph.apply`: an edit, and the graph after it, whether it succeeds or is refused;
* `Board.apply`: what the same edit does to a board;
* `Graph.indexOf?_insertNode`, `Graph.indexOf?_without`: how indices move;
* `Graph.Whole.apply`: one edit of a graph whose identifiers are distinct and whose wires have both
  ends;
* `Graph.board_applyAll`: **every row of edits acts on the graph as on its board.**
-/

import FlowGraph.Graph.Edit
import FlowGraph.Proofs.Indices

namespace FlowGraph

/-- An edit of a graph. Identifiers of new nodes and wires come with the edit. -/
inductive Edit where
  | addNode (node : Node)
  | insertNode (place : Nat) (node : Node)
  | removeNode (id : NodeId)
  | moveNode (id : NodeId) (position : Position)
  | setValue (id : NodeId) (slot : Nat) (value : Value)
  | clearValue (id : NodeId) (slot : Nat)
  | addLink (wire : WireId) (link : Link)
  | addWire (wire : WireId) (start stop : Endpoint)
  | disconnect (stop : Endpoint)
  | removeWire (wire : WireId)

namespace Graph

variable {F : Type}

/-- The graph after an edit that may be refused: a refused edit changes nothing. -/
def settle (g : Graph F) : Except EditError (Graph F) → Graph F
  | .ok changed => changed
  | .error _ => g

/-- The graph after an edit. -/
def apply (g : Graph F) : Edit → Graph F
  | .addNode node => g.addNode node
  | .insertNode place node => g.insertNode place node
  | .removeNode id => g.settle ((g.removeNode id).map Prod.snd)
  | .moveNode id position => g.settle (g.moveNode id position)
  | .setValue id slot value => g.settle (g.setValue id slot value)
  | .clearValue id slot => g.settle (g.clearValue id slot)
  | .addLink wire link => g.settle (g.addLink wire link)
  | .addWire wire start stop => g.settle (g.addWire wire start stop)
  | .disconnect stop => g.disconnect stop
  | .removeWire wire => g.removeWire wire

/-- The graph after a row of edits. -/
def applyAll (g : Graph F) (edits : List Edit) : Graph F :=
  edits.foldl apply g

/-- The identifier of a new node is neither reserved nor that of a node of the graph. -/
def Fresh (g : Graph F) (node : Node) : Prop :=
  node.id.isBoundary = false ∧ node.id ∉ g.nodes.map Node.id

/-- Edits that add nodes bring fresh identifiers for them. -/
def Admits (g : Graph F) : Edit → Prop
  | .addNode node => g.Fresh node
  | .insertNode _ node => g.Fresh node
  | _ => True

/-- Every edit of a row is admitted by the graph that it meets. -/
def AdmitsAll (g : Graph F) : List Edit → Prop
  | [] => True
  | edit :: edits => g.Admits edit ∧ (g.apply edit).AdmitsAll edits

instance (g : Graph F) (node : Node) : Decidable (g.Fresh node) :=
  inferInstanceAs (Decidable (_ ∧ _))

instance (g : Graph F) : (edit : Edit) → Decidable (g.Admits edit)
  | .addNode node | .insertNode _ node => inferInstanceAs (Decidable (g.Fresh node))
  | .removeNode _ | .moveNode .. | .setValue .. | .clearValue .. | .addLink .. | .addWire ..
  | .disconnect _ | .removeWire _ => .isTrue trivial

instance decidableAdmitsAll (g : Graph F) : (edits : List Edit) → Decidable (g.AdmitsAll edits)
  | [] => .isTrue trivial
  | edit :: edits =>
    have := (g.apply edit).decidableAdmitsAll edits
    inferInstanceAs (Decidable (g.Admits edit ∧ (g.apply edit).AdmitsAll edits))

end Graph

theorem NodeId.isBoundary_eq_false_iff {id : NodeId} :
    id.isBoundary = false ↔ id ≠ .input ∧ id ≠ .output := by
  simp [isBoundary]

/-! ### Boards -/

namespace Link

/-- The same wire with its ends at other nodes. -/
def mapNodes (renumber : Nat → Nat) (link : Link) : Link :=
  ⟨⟨renumber link.start.node, link.start.slot⟩, ⟨renumber link.stop.node, link.stop.slot⟩⟩

/-- Whether one of the ends is at a node. -/
def touches (link : Link) (index : Nat) : Bool :=
  link.start.node = index || link.stop.node = index

end Link

/-- A new node makes room: indices greater than `place` go up by one. -/
def raise (place index : Nat) : Nat :=
  if place < index then index + 1 else index

/-- A gone node leaves no gap: indices greater than `gone` go down by one. -/
def lower (gone index : Nat) : Nat :=
  if gone < index then index - 1 else index

/-- A graph by position: the identifiers of the user's nodes in order, and the wires by the indices
of their ends. -/
@[ext]
structure Board where
  ids : List NodeId
  wires : List (WireId × Link)
deriving DecidableEq

namespace Board

/-- The identifiers of all nodes in the order of their indices. -/
def allIds (b : Board) : List NodeId :=
  .input :: b.ids ++ [.output]

/-- The index of a node. -/
def index? (b : Board) (id : NodeId) : Option Nat :=
  b.allIds.idxOf? id

/-- A node is put in front of the user's node at `place`, or behind all of them. -/
def insert (b : Board) (place : Nat) (id : NodeId) : Board where
  ids := b.ids.insertIdx (min place b.ids.length) id
  wires := b.wires.map fun wire => (wire.1, wire.2.mapNodes (raise (min place b.ids.length)))

/-- The user's node at an index goes, with all wires that touch it. -/
def remove (b : Board) (index : Nat) : Board where
  ids := b.ids.eraseIdx (index - 1)
  wires := (b.wires.filter fun wire => !wire.2.touches index).map fun wire =>
    (wire.1, wire.2.mapNodes (lower index))

/-- The wires that end at a place go. -/
def cut (b : Board) (stop : Place) : Board :=
  { b with wires := b.wires.filter fun wire => wire.2.stop ≠ stop }

/-- A wire is put behind all others. -/
def link (b : Board) (wire : WireId) (link : Link) : Board :=
  { b with wires := b.wires ++ [(wire, link)] }

/-- The board after an edit. Edits of nodes that do not exist, removals of virtual nodes and values
for the Input node change nothing. -/
def apply (b : Board) : Edit → Board
  | .addNode node => b.insert b.ids.length node.id
  | .insertNode place node => b.insert place node.id
  | .removeNode id =>
    match b.index? id with
    | some index => if index = 0 ∨ index = b.ids.length + 1 then b else b.remove index
    | none => b
  | .setValue id slot _ =>
    match b.index? id with
    | some index => if index = 0 then b else b.cut ⟨index, slot⟩
    | none => b
  | .disconnect stop =>
    match b.index? stop.node with
    | some index => b.cut ⟨index, stop.slot⟩
    | none => b
  | .addLink wire link =>
    if link.start.node ≤ b.ids.length + 1 ∧ link.stop.node ≤ b.ids.length + 1 then b.link wire link
    else b
  | .addWire wire start stop =>
    match b.index? start.node, b.index? stop.node with
    | some source, some target => b.link wire ⟨⟨source, start.slot⟩, ⟨target, stop.slot⟩⟩
    | _, _ => b
  | .removeWire wire => { b with wires := b.wires.eraseP fun found => found.1 = wire }
  | .moveNode _ _ => b
  | .clearValue _ _ => b

/-- The board without nodes and wires. -/
def empty : Board :=
  ⟨[], []⟩

/-- The board after a row of edits. -/
def applyAll (b : Board) (edits : List Edit) : Board :=
  edits.foldl apply b

end Board

namespace Graph

variable {F : Type}

/-- A wire with its identifier by position, unless it dangles. -/
def boardWire? (g : Graph F) (wire : Wire) : Option (WireId × Link) :=
  (g.link? wire).map fun link => (wire.id, link)

/-- The board of a graph. -/
def board (g : Graph F) : Board where
  ids := g.nodes.map Node.id
  wires := g.wires.filterMap g.boardWire?

theorem map_snd_board (g : Graph F) : g.board.wires.map Prod.snd = g.links := by
  unfold board links boardWire?
  rw [List.map_filterMap]
  congr 1
  funext wire
  rw [Option.map_map]
  exact Option.map_id_apply

/-! ### Indices on the board -/

theorem length_ids (g : Graph F) : g.board.ids.length = g.nodes.length :=
  List.length_map _

theorem nodeIdAt?_board (g : Graph F) (index : Nat) :
    g.nodeIdAt? index = g.board.allIds[index]? := by
  rw [nodeIdAt?_eq, ← List.getElem?_map]
  congr 1
  simp [allNodes, Board.allIds, board, inputNode, outputNode]

/-- Indices depend on the identifiers only. -/
theorem indexOf?_congr {g g' : Graph F} (ids : g.nodes.map Node.id = g'.nodes.map Node.id)
    (id : NodeId) : g.indexOf? id = g'.indexOf? id := by
  have length : g.nodes.length = g'.nodes.length := by simpa using congrArg List.length ids
  have search : ∀ nodes : List Node, (nodes.findIdx? fun node => node.id = id) =
      (nodes.map Node.id).findIdx? fun found => found = id := fun nodes => by
    rw [List.findIdx?_map]
    rfl
  unfold indexOf? outputIndex
  rw [length, search, search, ids]

/-- Other than the virtual nodes, the nodes with an index are those of the user. -/
theorem isSome_node? (g : Graph F) {id : NodeId} (inner : id.isBoundary = false) :
    (g.node? id).isSome = (g.indexOf? id).isSome := by
  obtain ⟨notInput, notOutput⟩ := NodeId.isBoundary_eq_false_iff.mp inner
  unfold node? indexOf?
  rw [if_neg notInput, if_neg notOutput, Option.isSome_map, List.findIdx?_isSome,
    List.isSome_find?]

theorem nodeIdAt?_congr {g g' : Graph F} (ids : g.nodes.map Node.id = g'.nodes.map Node.id)
    (index : Nat) : g.nodeIdAt? index = g'.nodeIdAt? index := by
  rw [nodeIdAt?_board, nodeIdAt?_board]
  unfold Board.allIds board
  rw [ids]

theorem link?_congr {g g' : Graph F} (ids : g.nodes.map Node.id = g'.nodes.map Node.id)
    (wire : Wire) : g.link? wire = g'.link? wire := by
  unfold link?
  rw [indexOf?_congr ids, indexOf?_congr ids]

namespace DistinctIds

variable {g : Graph F}

theorem of_ids (distinct : g.DistinctIds) {g' : Graph F}
    (ids : g'.nodes.map Node.id = g.nodes.map Node.id) : g'.DistinctIds := by
  refine ⟨ids ▸ distinct.nodup, fun node member => ?_⟩
  have old : node.id ∈ g.nodes.map Node.id := ids ▸ List.mem_map_of_mem member
  obtain ⟨other, present, same⟩ := List.mem_map.mp old
  exact same ▸ distinct.inner other present

theorem nodup_allIds (distinct : g.DistinctIds) : g.board.allIds.Nodup := by
  have inner : ∀ id ∈ g.nodes.map Node.id, id ≠ .input ∧ id ≠ .output := by
    intro id member
    obtain ⟨node, present, rfl⟩ := List.mem_map.mp member
    exact ⟨distinct.ne_input present, distinct.ne_output present⟩
  have differ : NodeId.input ≠ .output := by decide
  have nodup := distinct.nodup
  simp only [Board.allIds, board, List.cons_append, List.nodup_cons, List.nodup_append,
    List.mem_append, List.mem_singleton]
  grind

/-- **The board numbers the nodes as the graph does.** -/
theorem indexOf?_board (distinct : g.DistinctIds) (id : NodeId) :
    g.indexOf? id = g.board.index? id := by
  have found : ∀ index, g.board.index? id = some index ↔ g.board.allIds[index]? = some id := by
    intro index
    unfold Board.index?
    rw [List.idxOf?_eq_some_iff, List.getElem?_eq_some_iff]
    refine exists_congr fun inside => ⟨And.left, fun same => ⟨same, fun earlier less other => ?_⟩⟩
    have equal := (distinct.nodup_allIds.getElem_inj_iff).mp (other.trans same.symm)
    exact absurd equal (Nat.ne_of_lt less)
  refine Option.ext fun index => ?_
  rw [found, ← nodeIdAt?_board]
  exact ⟨nodeIdAt?_of_indexOf?, distinct.indexOf?_of_nodeIdAt?⟩

/-- An identifier is found wherever a change of the row of all identifiers puts it. -/
theorem indexOf?_move {before : Graph F} (distinct : g.DistinctIds) {id : NodeId}
    {index moved : Nat} (found : before.indexOf? id = some index)
    (same : g.board.allIds[moved]? = before.board.allIds[index]?) : g.indexOf? id = some moved := by
  apply distinct.indexOf?_of_nodeIdAt?
  rw [nodeIdAt?_board, same, ← nodeIdAt?_board]
  exact nodeIdAt?_of_indexOf? found

end DistinctIds

/-! ### Insertions and removals -/

theorem insertNode_nodes (g : Graph F) (place : Nat) (node : Node) :
    (g.insertNode place node).nodes = g.nodes.insertIdx (min place g.nodes.length) node := by
  show g.nodes.take place ++ node :: g.nodes.drop place = _
  induction g.nodes generalizing place with
  | nil => simp
  | cons first rest ih =>
    cases place with
    | zero => simp
    | succ place =>
      rw [List.length_cons, Nat.succ_min_succ, List.insertIdx_succ_cons, ← ih]
      rfl

theorem addNode_eq (g : Graph F) (node : Node) :
    g.addNode node = g.insertNode g.nodes.length node := by
  simp [addNode, insertNode]

theorem insertNode_ids (g : Graph F) (place : Nat) (node : Node) :
    (g.insertNode place node).board.ids =
      g.board.ids.insertIdx (min place g.board.ids.length) node.id := by
  rw [length_ids]
  show (g.insertNode place node).nodes.map Node.id = _
  rw [insertNode_nodes, List.map_insertIdx]
  rfl

theorem DistinctIds.insertNode {g : Graph F} (distinct : g.DistinctIds) (place : Nat) {node : Node}
    (fresh : g.Fresh node) : (g.insertNode place node).DistinctIds := by
  have rows : List.Perm (g.insertNode place node).nodes (node :: g.nodes) := by
    rw [insertNode_nodes]
    exact List.perm_insertIdx node g.nodes (Nat.min_le_right ..)
  constructor
  · rw [(rows.map Node.id).nodup_iff, List.map_cons, List.nodup_cons]
    exact ⟨fresh.2, distinct.nodup⟩
  · intro other member
    rcases List.mem_cons.mp (rows.mem_iff.mp member) with rfl | old
    · exact fresh.1
    · exact distinct.inner other old

/-- **A new node makes room for itself.** -/
theorem indexOf?_insertNode {g : Graph F} (distinct : g.DistinctIds) (place : Nat) {node : Node}
    (fresh : g.Fresh node) {id : NodeId} {index : Nat} (found : g.indexOf? id = some index) :
    (g.insertNode place node).indexOf? id = some (raise (min place g.board.ids.length) index) := by
  refine (distinct.insertNode place fresh).indexOf?_move found ?_
  unfold Board.allIds raise
  rw [insertNode_ids]
  have inside : min place g.board.ids.length ≤ g.board.ids.length := Nat.min_le_right ..
  -- The Input node stands in front of the new node and stays; the Output node always moves.
  grind

/-- The graph without the user's node that has an identifier, and without the wires at its slots. -/
def without (g : Graph F) (id : NodeId) : Graph F :=
  { g with
    nodes := g.nodes.eraseP fun node => node.id = id
    wires := g.wires.filter fun wire => wire.start.node ≠ id ∧ wire.stop.node ≠ id }

theorem DistinctIds.without {g : Graph F} (distinct : g.DistinctIds) (id : NodeId) :
    (g.without id).DistinctIds where
  nodup := distinct.nodup.sublist (List.eraseP_sublist.map Node.id)
  inner node member := distinct.inner node (List.mem_of_mem_eraseP member)

/-- A node of the user has an index between those of the virtual nodes. -/
theorem findIdx?_of_indexOf? {g : Graph F} {id : NodeId} {index : Nat}
    (inner : id.isBoundary = false) (found : g.indexOf? id = some index) :
    (g.nodes.findIdx? fun node => node.id = id) = some (index - 1) ∧
      0 < index ∧ index ≤ g.nodes.length := by
  obtain ⟨notInput, notOutput⟩ := NodeId.isBoundary_eq_false_iff.mp inner
  unfold indexOf? at found
  rw [if_neg notInput, if_neg notOutput] at found
  obtain ⟨place, search, rfl⟩ := Option.map_eq_some_iff.mp found
  obtain ⟨inside, _⟩ := List.findIdx?_eq_some_iff_getElem.mp search
  exact ⟨search, Nat.succ_pos place, inside⟩

theorem without_ids {g : Graph F} {gone : NodeId} {k : Nat} (inner : gone.isBoundary = false)
    (found : g.indexOf? gone = some k) :
    (g.without gone).board.ids = g.board.ids.eraseIdx (k - 1) := by
  show (g.nodes.eraseP fun node => node.id = gone).map Node.id = _
  rw [List.eraseP_eq_eraseIdx, (findIdx?_of_indexOf? inner found).1]
  exact (List.eraseIdx_map ..).symm

/-- **A gone node leaves no gap.** -/
theorem indexOf?_without {g : Graph F} (distinct : g.DistinctIds) {gone id : NodeId} {k index : Nat}
    (inner : gone.isBoundary = false) (out : g.indexOf? gone = some k)
    (found : g.indexOf? id = some index) (differ : id ≠ gone) :
    (g.without gone).indexOf? id = some (lower k index) := by
  refine (distinct.without gone).indexOf?_move found ?_
  obtain ⟨_, positive, inside⟩ := findIdx?_of_indexOf? inner out
  have other : index ≠ k := by
    rintro rfl
    exact differ (indexOf?_injective found out)
  rw [← length_ids] at inside
  unfold Board.allIds lower
  rw [without_ids inner out]
  -- The case of the node itself is excluded, so every other entry has one place to go.
  grind

/-- What a change of a node keeps is kept in all nodes. -/
theorem map_modifyFirst {α : Type} (part : Node → α) (id : NodeId) (change : Node → Node)
    (keeps : ∀ node, part (change node) = part node) (nodes : List Node) :
    (modifyFirst id change nodes).map part = nodes.map part := by
  induction nodes with
  | nil => rfl
  | cons node rest ih =>
    unfold modifyFirst
    split
    · rw [List.map_cons, List.map_cons, keeps]
    · rw [List.map_cons, List.map_cons, ih]

/-! ### Wires on the board -/

/-- The identifiers of a graph are distinct and its wires have both ends. -/
structure Whole (g : Graph F) : Prop where
  distinct : g.DistinctIds
  joined : ∀ wire ∈ g.wires, (g.link? wire).isSome

theorem boardWire?_eq {g : Graph F} {wire : Wire} {link : Link}
    (placed : g.link? wire = some link) : g.boardWire? wire = some (wire.id, link) := by
  unfold boardWire?
  rw [placed]
  rfl

/-- A whole graph whose board is known. -/
def Shows (g : Graph F) (b : Board) : Prop :=
  g.Whole ∧ g.board = b

theorem stop_eq_iff {g : Graph F} {wire : Wire} {link : Link} {stop : Endpoint} {index : Nat}
    (placed : g.link? wire = some link) (found : g.indexOf? stop.node = some index) :
    wire.stop = stop ↔ link.stop = ⟨index, stop.slot⟩ := by
  obtain ⟨wireId, start, ⟨node, slot⟩⟩ := wire
  obtain ⟨source, ⟨target, linkSlot⟩⟩ := link
  obtain ⟨stopNode, stopSlot⟩ := stop
  obtain ⟨_, _, reached, rfl⟩ := (g.link?_eq_some_iff _ _).mp placed
  have same := indexOf?_eq_iff reached found
  simp_all

namespace Whole

variable {g : Graph F}

/-- An edit that keeps some wires and renumbers nodes does the same on the board. -/
theorem renumber (whole : g.Whole) {g' : Graph F} {keep : Wire → Bool} (kept : Link → Bool)
    (move : Nat → Nat) (distinct : g'.DistinctIds) (wires : g'.wires = g.wires.filter keep)
    (each : ∀ wire link, g.link? wire = some link → keep wire = kept link ∧
      (keep wire → g'.link? wire = some (link.mapNodes move))) :
    g'.Whole ∧ g'.board.wires = (g.board.wires.filter fun wire => kept wire.2).map fun wire =>
      (wire.1, wire.2.mapNodes move) := by
  have joined := whole.joined
  refine ⟨⟨distinct, fun wire member => ?_⟩, ?_⟩
  · rw [wires, List.mem_filter] at member
    obtain ⟨link, placed⟩ := Option.isSome_iff_exists.mp (joined wire member.1)
    exact Option.isSome_of_eq_some ((each wire link placed).2 member.2)
  -- No wire dangles, so wires of the graph and of the board correspond one to one, in order.
  · show g'.wires.filterMap g'.boardWire? = ((g.wires.filterMap g.boardWire?).filter _).map _
    rw [wires]
    clear wires
    generalize g.wires = row at joined ⊢
    induction row with
    | nil => rfl
    | cons wire rest ih =>
      obtain ⟨link, placed⟩ := Option.isSome_iff_exists.mp (joined wire (List.mem_cons_self ..))
      obtain ⟨agree, moved⟩ := each wire link placed
      have tail := ih fun other member => joined other (List.mem_cons_of_mem _ member)
      rw [List.filterMap_cons_some (boardWire?_eq placed), List.filter_cons, List.filter_cons]
      by_cases stays : keep wire
      · rw [if_pos stays, if_pos (agree ▸ stays), List.map_cons,
          List.filterMap_cons_some (boardWire?_eq (moved stays)), tail]
      · rw [if_neg stays, if_neg (agree ▸ stays), tail]

theorem insertNode (whole : g.Whole) (place : Nat) {node : Node} (fresh : g.Fresh node) :
    (g.insertNode place node).Shows (g.board.insert place node.id) := by
  have distinct := whole.distinct
  obtain ⟨still, wires⟩ := whole.renumber (fun _ => true) (raise (min place g.board.ids.length))
    (distinct.insertNode place fresh) (List.filter_true g.wires).symm fun wire link placed => by
      obtain ⟨start, startSlot, stop, stopSlot⟩ := (g.link?_eq_some_iff wire link).mp placed
      refine ⟨rfl, fun _ => (link?_eq_some_iff _ _ _).mpr ?_⟩
      exact ⟨indexOf?_insertNode distinct place fresh start, startSlot,
        indexOf?_insertNode distinct place fresh stop, stopSlot⟩
  rw [List.filter_true] at wires
  exact ⟨still, Board.ext (insertNode_ids g place node) wires⟩

theorem without (whole : g.Whole) {gone : NodeId} {k : Nat} (inner : gone.isBoundary = false)
    (out : g.indexOf? gone = some k) : (g.without gone).Shows (g.board.remove k) := by
  have distinct := whole.distinct
  obtain ⟨still, wires⟩ := whole.renumber (fun link => !link.touches k) (lower k)
    (distinct.without gone) rfl fun wire link placed => by
      obtain ⟨start, startSlot, stop, stopSlot⟩ := (g.link?_eq_some_iff wire link).mp placed
      refine ⟨?_, fun stays => (link?_eq_some_iff _ _ _).mpr ?_⟩
      · simp [Link.touches, indexOf?_eq_iff start out, indexOf?_eq_iff stop out]
      · obtain ⟨startStays, stopStays⟩ := of_decide_eq_true stays
        exact ⟨indexOf?_without distinct inner out start startStays, startSlot,
          indexOf?_without distinct inner out stop stopStays, stopSlot⟩
  exact ⟨still, Board.ext (without_ids inner out) wires⟩

theorem disconnect (whole : g.Whole) {stop : Endpoint} {index : Nat}
    (found : g.indexOf? stop.node = some index) :
    (g.disconnect stop).Shows (g.board.cut ⟨index, stop.slot⟩) := by
  have distinct : (g.disconnect stop).DistinctIds := ⟨whole.distinct.nodup, whole.distinct.inner⟩
  obtain ⟨still, wires⟩ := whole.renumber (fun link => link.stop ≠ ⟨index, stop.slot⟩) id distinct
    rfl fun wire link placed =>
      ⟨decide_eq_decide.mpr (not_congr (stop_eq_iff placed found)), fun _ => placed⟩
  exact ⟨still, Board.ext rfl (wires.trans (List.map_id _))⟩

/-- No wire ends at a node that does not exist. -/
theorem disconnect_absent (whole : g.Whole) {stop : Endpoint}
    (absent : g.indexOf? stop.node = none) : g.disconnect stop = g := by
  have all : (g.wires.filter fun wire => wire.stop ≠ stop) = g.wires := by
    refine List.filter_eq_self.mpr fun wire member => decide_eq_true ?_
    rintro rfl
    obtain ⟨link, placed⟩ := Option.isSome_iff_exists.mp (whole.joined wire member)
    obtain ⟨_, _, found, _⟩ := (g.link?_eq_some_iff wire link).mp placed
    rw [absent] at found
    cases found
  unfold Graph.disconnect
  rw [all]

/-- Edits inside nodes do not show. -/
theorem of_ids (whole : g.Whole) {g' : Graph F} (ids : g'.nodes.map Node.id = g.nodes.map Node.id)
    (wires : g'.wires = g.wires) : g'.Shows g.board := by
  refine ⟨⟨whole.distinct.of_ids ids, ?_⟩, Board.ext ids ?_⟩
  · intro wire member
    rw [link?_congr ids]
    exact whole.joined wire (wires ▸ member)
  · show g'.wires.filterMap g'.boardWire? = g.wires.filterMap g.boardWire?
    rw [wires]
    refine List.filterMap_congr fun wire _ => ?_
    unfold boardWire?
    rw [link?_congr ids]

theorem link (whole : g.Whole) (id : WireId) {start stop : Endpoint} {link : Link}
    (placed : g.link? ⟨id, start, stop⟩ = some link) :
    ({ g with wires := g.wires ++ [⟨id, start, stop⟩] } : Graph F).Shows
      (g.board.link id link) := by
  refine ⟨⟨⟨whole.distinct.nodup, whole.distinct.inner⟩, ?_⟩, Board.ext rfl ?_⟩
  · intro wire member
    rcases List.mem_append.mp member with old | new
    · exact whole.joined wire old
    · rw [List.mem_singleton.mp new]
      exact Option.isSome_of_eq_some placed
  · show (g.wires ++ [(⟨id, start, stop⟩ : Wire)]).filterMap g.boardWire? = _
    rw [List.filterMap_append, List.filterMap_cons_some (boardWire?_eq placed)]
    rfl

theorem removeWire (whole : g.Whole) (id : WireId) :
    (g.removeWire id).Shows
      { g.board with wires := g.board.wires.eraseP fun wire => wire.1 = id } := by
  refine ⟨⟨⟨whole.distinct.nodup, whole.distinct.inner⟩, ?_⟩, Board.ext rfl ?_⟩
  · intro wire member
    exact whole.joined wire (List.mem_of_mem_eraseP member)
  · show (g.wires.eraseP fun wire => wire.id = id).filterMap g.boardWire? =
      (g.wires.filterMap g.boardWire?).eraseP fun wire => wire.1 = id
    have joined := whole.joined
    generalize g.wires = row at joined ⊢
    induction row with
    | nil => rfl
    | cons wire rest ih =>
      obtain ⟨link, placed⟩ := Option.isSome_iff_exists.mp (joined wire (List.mem_cons_self ..))
      rw [List.filterMap_cons_some (boardWire?_eq placed), List.eraseP_cons, List.eraseP_cons]
      by_cases same : wire.id = id
      · simp [same]
      · simp only [same, decide_false, cond_false]
        rw [List.filterMap_cons_some (boardWire?_eq placed),
          ih fun other member => joined other (List.mem_cons_of_mem _ member)]

/-! ### One edit -/

/-- Removals of virtual nodes and of nodes that do not exist are refused, all others are not. -/
theorem removeNode (whole : g.Whole) (id : NodeId) :
    (g.apply (.removeNode id)).Shows (g.board.apply (.removeNode id)) := by
  simp only [Graph.apply, Graph.removeNode, Board.apply]
  rw [← whole.distinct.indexOf?_board, length_ids]
  cases boundary : id.isBoundary with
  | true =>
    have virtual : id = .input ∨ id = .output := by simpa [NodeId.isBoundary] using boundary
    rcases virtual with rfl | rfl
    · exact ⟨whole, rfl⟩
    · exact ⟨whole, (if_pos (Or.inr rfl)).symm⟩
  | false =>
    have known := g.isSome_node? boundary
    cases found : g.indexOf? id with
    | none =>
      rw [found, Option.isSome_none, Option.isSome_eq_false_iff, Option.isNone_iff_eq_none] at known
      rw [known]
      exact ⟨whole, rfl⟩
    | some index =>
      rw [found] at known
      obtain ⟨node, present⟩ := Option.isSome_iff_exists.mp known
      obtain ⟨_, positive, inside⟩ := findIdx?_of_indexOf? boundary found
      have user : ¬ (index = 0 ∨ index = g.nodes.length + 1) := by omega
      rw [present]
      simp only [if_neg user]
      exact whole.without boundary found

/-- What is written into nodes does not show, and the Input node takes no values. -/
theorem modifyValues (whole : g.Whole) (id : NodeId) (change : Slots → Slots) :
    (∃ changed index, g.modifyValues id change = .ok changed ∧ changed.Shows g.board ∧
      g.indexOf? id = some index ∧ index ≠ 0) ∨
    (∃ reason, g.modifyValues id change = .error reason ∧
      (g.indexOf? id = none ∨ g.indexOf? id = some 0)) := by
  unfold Graph.modifyValues
  by_cases first : id = .input
  · rw [if_pos first, first]
    exact Or.inr ⟨_, rfl, Or.inr rfl⟩
  · by_cases last : id = .output
    · rw [if_neg first, if_pos last, last]
      exact Or.inl ⟨_, _, rfl, whole.of_ids rfl rfl, rfl, Nat.succ_ne_zero _⟩
    · have inner := NodeId.isBoundary_eq_false_iff.mpr ⟨first, last⟩
      rw [if_neg first, if_neg last, g.isSome_node? inner]
      cases found : g.indexOf? id with
      | none => exact Or.inr ⟨_, rfl, Or.inl rfl⟩
      | some index =>
        obtain ⟨_, positive, _⟩ := findIdx?_of_indexOf? inner found
        refine Or.inl ⟨_, index, rfl, whole.of_ids ?_ rfl, rfl, positive.ne'⟩
        exact map_modifyFirst Node.id id (fun node => { node with values := change node.values })
          (fun _ => rfl) g.nodes

theorem setValue (whole : g.Whole) (id : NodeId) (slot : Nat) (value : Value) :
    (g.apply (.setValue id slot value)).Shows (g.board.apply (.setValue id slot value)) := by
  simp only [Graph.apply, Graph.setValue, Board.apply]
  rw [← whole.distinct.indexOf?_board]
  rcases whole.modifyValues id (fun values => values.insert slot value) with
    ⟨changed, index, done, ⟨still, board⟩, found, inner⟩ | ⟨reason, refused, absent | first⟩
  · rw [done, found]
    simp only [if_neg inner]
    have same : changed.indexOf? id = some index := by
      rw [still.distinct.indexOf?_board, board, ← whole.distinct.indexOf?_board, found]
    rw [← board]
    exact still.disconnect same
  · rw [refused, absent]
    exact ⟨whole, rfl⟩
  · rw [refused, first]
    exact ⟨whole, rfl⟩

theorem clearValue (whole : g.Whole) (id : NodeId) (slot : Nat) :
    (g.apply (.clearValue id slot)).Shows g.board := by
  simp only [Graph.apply, Graph.clearValue]
  rcases whole.modifyValues id (fun values => values.erase slot) with
    ⟨changed, _, done, shows, _⟩ | ⟨_, refused, _⟩
  · rw [done]
    exact shows
  · rw [refused]
    exact ⟨whole, rfl⟩

theorem moveNode (whole : g.Whole) (id : NodeId) (position : Position) :
    (g.apply (.moveNode id position)).Shows g.board := by
  simp only [Graph.apply, Graph.moveNode]
  split
  · exact whole.of_ids rfl rfl
  · split
    · exact whole.of_ids rfl rfl
    · split
      · exact whole.of_ids (map_modifyFirst Node.id id
          (fun node => { node with position := position }) (fun _ => rfl) g.nodes) rfl
      · exact ⟨whole, rfl⟩

theorem addWire (whole : g.Whole) (wire : WireId) (start stop : Endpoint) :
    (g.apply (.addWire wire start stop)).Shows (g.board.apply (.addWire wire start stop)) := by
  simp only [Graph.apply, Graph.addWire, Board.apply]
  rw [← whole.distinct.indexOf?_board, ← whole.distinct.indexOf?_board]
  cases source : g.indexOf? start.node with
  | none => exact ⟨whole, rfl⟩
  | some first =>
    cases target : g.indexOf? stop.node with
    | none => exact ⟨whole, rfl⟩
    | some last =>
      exact whole.link wire ((link?_eq_some_iff _ _ _).mpr ⟨source, rfl, target, rfl⟩)

/-- A wire between places is the wire between the nodes there. -/
theorem addLink (whole : g.Whole) (wire : WireId) (link : Link) :
    (g.apply (.addLink wire link)).Shows (g.board.apply (.addLink wire link)) := by
  have inside : ∀ index, index ≤ g.board.ids.length + 1 ↔ (g.nodeIdAt? index).isSome := by
    intro index
    rw [isSome_nodeIdAt?, length_ids]
    exact Nat.lt_succ_iff.symm
  simp only [Graph.apply, Graph.addLink, Graph.endpointAt, Board.apply, inside]
  cases source : g.nodeIdAt? link.start.node with
  | none => exact ⟨whole, rfl⟩
  | some first =>
    cases target : g.nodeIdAt? link.stop.node with
    | none => exact ⟨whole, rfl⟩
    | some last =>
      have shows := whole.addWire wire ⟨first, link.start.slot⟩ ⟨last, link.stop.slot⟩
      simp only [Board.apply, ← whole.distinct.indexOf?_board,
        whole.distinct.indexOf?_of_nodeIdAt? source,
        whole.distinct.indexOf?_of_nodeIdAt? target] at shows
      exact shows

/-- **An edit of a whole graph** acts on the board as on the graph, and leaves the graph whole. -/
theorem apply (whole : g.Whole) {edit : Edit} (admitted : g.Admits edit) :
    (g.apply edit).Shows (g.board.apply edit) := by
  cases edit with
  | addNode node =>
    show (g.addNode node).Shows (g.board.insert g.board.ids.length node.id)
    rw [addNode_eq, length_ids]
    exact whole.insertNode g.nodes.length admitted
  | insertNode place node => exact whole.insertNode place admitted
  | removeNode id => exact whole.removeNode id
  | moveNode id position => exact whole.moveNode id position
  | setValue id slot value => exact whole.setValue id slot value
  | clearValue id slot => exact whole.clearValue id slot
  | addLink wire link => exact whole.addLink wire link
  | addWire wire start stop => exact whole.addWire wire start stop
  | disconnect stop =>
    simp only [Graph.apply, Board.apply]
    rw [← whole.distinct.indexOf?_board]
    cases found : g.indexOf? stop.node with
    | none =>
      rw [whole.disconnect_absent found]
      exact ⟨whole, rfl⟩
    | some index => exact whole.disconnect found
  | removeWire wire => exact whole.removeWire wire

end Whole

/-! ### Rows of edits -/

theorem new_whole (roster : List (Folder F)) : (Graph.new roster).Whole where
  distinct := ⟨List.nodup_nil, fun _ member => absurd member (List.not_mem_nil)⟩
  joined _ member := absurd member (List.not_mem_nil)

/-- **A row of edits** keeps a graph whole and acts on its board. -/
theorem Whole.applyAll {g : Graph F} (whole : g.Whole) {edits : List Edit}
    (admitted : g.AdmitsAll edits) : (g.applyAll edits).Shows (g.board.applyAll edits) := by
  induction edits generalizing g with
  | nil => exact ⟨whole, rfl⟩
  | cons edit edits ih =>
    obtain ⟨still, board⟩ := whole.apply admitted.1
    have rest := ih still admitted.2
    rw [board] at rest
    exact rest

theorem AdmitsAll.take {g : Graph F} {edits : List Edit} (admitted : g.AdmitsAll edits)
    (count : Nat) : g.AdmitsAll (edits.take count) := by
  induction edits generalizing g count with
  | nil => rwa [List.take_nil]
  | cons edit edits ih =>
    cases count with
    | zero => trivial
    | succ count => exact ⟨admitted.1, ih admitted.2 count⟩

/-- No wire is left out of the positional view. -/
theorem Whole.map_link? {g : Graph F} (whole : g.Whole) :
    g.wires.map g.link? = g.links.map some := by
  have joined := whole.joined
  unfold links
  generalize g.wires = row at joined ⊢
  induction row with
  | nil => rfl
  | cons wire rest ih =>
    obtain ⟨link, placed⟩ := Option.isSome_iff_exists.mp (joined wire (List.mem_cons_self ..))
    rw [List.map_cons, List.filterMap_cons_some placed, List.map_cons, placed,
      ih fun other member => joined other (List.mem_cons_of_mem _ member)]

/-- **Edits by identifier are edits by position.** After every step of a row of edits of a new
graph, whether they succeed or not, identifiers are distinct and numbered without gaps, no wire
dangles, and the wires by position are those that the same edits leave on a board. -/
theorem board_applyAll (roster : List (Folder F)) (edits : List Edit)
    (admitted : (Graph.new roster).AdmitsAll edits) (count : Nat) :
    let g := (Graph.new roster).applyAll (edits.take count)
    let b := Board.empty.applyAll (edits.take count)
    g.DistinctIds ∧
      (∀ index < g.nodeCount, ∃ id, g.nodeIdAt? index = some id ∧ g.indexOf? id = some index) ∧
      (∀ index, g.nodeCount ≤ index → g.nodeIdAt? index = none) ∧
      g.wires.map g.link? = g.links.map some ∧ g.links = b.wires.map Prod.snd ∧ g.board = b := by
  intro g b
  obtain ⟨whole, board⟩ := (new_whole roster).applyAll (admitted.take count)
  refine ⟨whole.distinct, fun index inside => ?_, fun index beyond => ?_, whole.map_link?, ?_,
    board⟩
  · obtain ⟨id, located⟩ := Option.isSome_iff_exists.mp ((g.isSome_nodeIdAt? index).mpr inside)
    exact ⟨id, located, whole.distinct.indexOf?_of_nodeIdAt? located⟩
  · rw [← Option.not_isSome_iff_eq_none, isSome_nodeIdAt?]
    exact Nat.not_lt.mpr beyond
  · exact g.map_snd_board.symm.trans (congrArg (fun b => b.wires.map Prod.snd) board)

/-- Two nodes are wired, a third is wired in front of them, a value takes the place of a wire, and
the third node goes again. Three of the edits are refused. -/
def rewiring : List Edit :=
  [.addNode (Node.new ⟨.ofNat 1⟩ "first" ⟨0, 0⟩),
    .addNode (Node.new ⟨.ofNat 2⟩ "second" ⟨0, 0⟩),
    .addLink ⟨.ofNat 1⟩ ⟨⟨0, 0⟩, ⟨2, 0⟩⟩,
    .addWire ⟨.ofNat 2⟩ ⟨⟨.ofNat 2⟩, 0⟩ ⟨.output, 1⟩,
    .addWire ⟨.ofNat 3⟩ ⟨⟨.ofNat 1⟩, 0⟩ ⟨⟨.ofNat 2⟩, 1⟩,
    .addLink ⟨.ofNat 4⟩ ⟨⟨0, 0⟩, ⟨4, 0⟩⟩,
    .insertNode 0 (Node.new ⟨.ofNat 3⟩ "third" ⟨0, 0⟩),
    .addLink ⟨.ofNat 5⟩ ⟨⟨1, 1⟩, ⟨4, 0⟩⟩,
    .removeNode .output,
    .setValue ⟨.ofNat 2⟩ 1 .signal,
    .setValue .input 0 .signal,
    .removeNode ⟨.ofNat 3⟩]

theorem rewiring_board :
    let start := Graph.new ([] : List (Folder String))
    start.AdmitsAll rewiring ∧
      (start.applyAll (rewiring.take 8)).links =
        [⟨⟨0, 0⟩, ⟨3, 0⟩⟩, ⟨⟨3, 0⟩, ⟨4, 1⟩⟩, ⟨⟨2, 0⟩, ⟨3, 1⟩⟩, ⟨⟨1, 1⟩, ⟨4, 0⟩⟩] ∧
      (start.applyAll (rewiring.take 12)).links = [⟨⟨0, 0⟩, ⟨2, 0⟩⟩, ⟨⟨2, 0⟩, ⟨3, 1⟩⟩] := by
  intro start
  have admitted : start.AdmitsAll rewiring := by decide
  obtain ⟨_, _, _, _, wired, _⟩ := board_applyAll [] rewiring admitted 8
  obtain ⟨_, _, _, _, left, _⟩ := board_applyAll [] rewiring admitted 12
  exact ⟨admitted, wired.trans (by decide), left.trans (by decide)⟩

end Graph

end FlowGraph
