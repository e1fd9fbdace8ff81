/-
**The feeds of a node.**

The feeds of a node are the values at hand for its inputs: those that wires deliver and those set by
hand, in ascending order of their slots. They depend on the pool through two views only, the values
produced at output slots and the values set by hand.

* `arrange_perm`, `arrange_sorted`: arranging keeps every thing and puts all in order;
* `Pool.produced?_ofLog`: in the pool of a log of distinct nodes, an output slot holds what its node
  put out there;
* `Circuit.mem_feeds`: a feed is a value set by hand or the value at the start of a wire;
* `Circuit.feeds_slots`: **a node with one feed at most in each slot, all of them declared, that has
  a feed in every declared slot, has exactly the declared slots in order.**
-/

import Mathlib
import FlowGraph.Run.Circuit

namespace FlowGraph

/-! ### Arranging -/

section Arranging

variable {α : Type} {precedes : α → α → Bool}

theorem insertBefore_eq (a : α) (things : List α) :
    insertBefore precedes a things = things.orderedInsert (fun a b => precedes a b) a := by
  induction things with
  | nil => rfl
  | cons b rest ih => rw [insertBefore, List.orderedInsert_cons, ih]

/-- Arranging is the insertion sort of the library. -/
theorem arrange_eq (things : List α) :
    arrange precedes things = things.insertionSort (fun a b => precedes a b) := by
  induction things with
  | nil => rfl
  | cons a rest ih =>
    rw [List.insertionSort_cons, ← ih, ← insertBefore_eq]
    rfl

/-- Arranging keeps every thing. -/
theorem arrange_perm (things : List α) : (arrange precedes things).Perm things := by
  rw [arrange_eq]
  exact List.perm_insertionSort _ things

/-- Arranging by a total and transitive relation puts all things in order. -/
theorem arrange_sorted (total : ∀ a b, precedes a b ∨ precedes b a)
    (transitive : ∀ a b c, precedes a b → precedes b c → precedes a c) (things : List α) :
    (arrange precedes things).Pairwise fun a b => precedes a b := by
  have : Std.Total fun a b => precedes a b = true := ⟨total⟩
  have : IsTrans α fun a b => precedes a b = true := ⟨transitive⟩
  rw [arrange_eq]
  exact List.pairwise_insertionSort _ things

end Arranging

namespace Feed

/-- Ordering feeds by slot keeps every feed. -/
theorem bySlot_perm (feeds : List Feed) : (bySlot feeds).Perm feeds :=
  arrange_perm feeds

/-- Feeds ordered by slot are in ascending order of their slots. -/
theorem bySlot_sorted (feeds : List Feed) :
    (bySlot feeds).Pairwise fun a b => a.1 ≤ b.1 := by
  have sorted : (bySlot feeds).Pairwise fun a b => decide (a.1 ≤ b.1) = true := by
    refine arrange_sorted (fun a b => ?_) (fun a b c first second => ?_) feeds
    · rw [decide_eq_true_eq, decide_eq_true_eq]
      exact Nat.le_total a.1 b.1
    · rw [decide_eq_true_eq] at first second ⊢
      exact Nat.le_trans first second
  exact sorted.imp of_decide_eq_true

/-- The values of feeds that stand in all slots below some number are found by their slots. -/
theorem getElem?_values {feeds : List Feed} {count : Nat}
    (slots : feeds.map Prod.fst = List.range count) (slot : Nat) (value : Value) :
    (feeds.map Prod.snd)[slot]? = some value ↔ (slot, value) ∈ feeds := by
  have place : ∀ (index : Nat) (feed : Feed), feeds[index]? = some feed → feed.1 = index := by
    intro index feed found
    have here : (feeds.map Prod.fst)[index]? = some feed.1 := by rw [List.getElem?_map, found]; rfl
    rw [slots, List.getElem?_eq_some_iff] at here
    obtain ⟨inside, same⟩ := here
    rw [← same, List.getElem_range]
  rw [List.getElem?_map, Option.map_eq_some_iff]
  constructor
  · rintro ⟨⟨found, _⟩, present, rfl⟩
    cases place slot _ present
    exact List.mem_of_getElem? present
  · intro member
    obtain ⟨index, present⟩ := List.mem_iff_getElem?.mp member
    cases place index _ present
    exact ⟨_, present, rfl⟩

end Feed

/-! ### Values by slot -/

namespace Slots

/-- A slot has a value exactly if the two stand together among the entries. -/
theorem get?_eq_some_iff (slots : Slots) (slot : Nat) (value : Value) :
    slots.get? slot = some value ↔ (slot, value) ∈ slots.entries := by
  obtain ⟨entries, sorted⟩ := slots
  show entries.lookup slot = some value ↔ (slot, value) ∈ entries
  induction entries with
  | nil => simp
  | cons first rest ih =>
    obtain ⟨key, old⟩ := first
    obtain ⟨below, sortedRest⟩ := List.pairwise_cons.mp sorted
    rw [lookup_entry, List.mem_cons, Prod.mk.injEq]
    by_cases same : slot = key
    · have notLater : (slot, value) ∉ rest := fun member =>
        absurd (below _ member) (by rw [same]; exact Nat.lt_irrefl key)
      rw [if_pos same, Option.some.injEq]
      constructor
      · exact fun equal => Or.inl ⟨same, equal.symm⟩
      · rintro (⟨_, equal⟩ | later)
        · exact equal.symm
        · exact absurd later notLater
    · rw [if_neg same, ih sortedRest]
      exact ⟨Or.inr, fun either => either.resolve_left fun both => same both.1⟩

/-- No slot stands twice among the entries. -/
theorem nodup_slots (slots : Slots) : (slots.entries.map Prod.fst).Nodup := by
  rw [List.Nodup, List.pairwise_map]
  exact slots.sorted.imp fun less => Nat.ne_of_lt less

end Slots

/-! ### What a pool knows -/

namespace Pool

/-- What the nodes of a log have put out, oldest first. -/
def ofLog (log : List (Nat × List Value)) : Pool :=
  log.flatMap fun entry => ofOutputs entry.1 entry.2

@[simp] theorem ofLog_nil : ofLog [] = [] := rfl

theorem ofLog_append (log later : List (Nat × List Value)) :
    ofLog (log ++ later) = ofLog log ++ ofLog later :=
  List.flatMap_append

theorem ofLog_concat (log : List (Nat × List Value)) (index : Nat) (outputs : List Value) :
    ofLog (log ++ [(index, outputs)]) = ofLog log ++ ofOutputs index outputs := by
  rw [ofLog_append]
  simp [ofLog]

/-- The first value produced at a slot stays when the pool grows. -/
theorem produced?_append (pool later : Pool) (place : Place) :
    (pool ++ later).produced? place = (pool.produced? place).or (later.produced? place) := by
  unfold produced?
  rw [List.find?_append]
  cases pool.find? fun datum => datum.origin = .produced place <;> rfl

theorem produced?_ofSlots (index : Nat) (values : Slots) (place : Place) :
    (ofSlots index values).produced? place = none := by
  unfold produced? ofSlots
  rw [Option.map_eq_none_iff, List.find?_eq_none]
  intro datum member
  obtain ⟨entry, _, rfl⟩ := List.mem_map.mp member
  simp

/-- A node's outputs stand in its own output slots, from slot zero on. -/
theorem produced?_ofOutputs (index : Nat) (outputs : List Value) (place : Place) :
    (ofOutputs index outputs).produced? place =
      if place.node = index then outputs[place.slot]? else none := by
  have general : ∀ (outputs : List Value) (first : Nat),
      produced? ((outputs.zipIdx first).map fun output => ⟨.produced ⟨index, output.2⟩, output.1⟩)
        place = if place.node = index ∧ first ≤ place.slot then outputs[place.slot - first]?
          else none := by
    intro outputs
    induction outputs with
    | nil => intro first; simp [produced?]
    | cons value rest ih =>
      intro first
      have later := ih (first + 1)
      obtain ⟨node, slot⟩ := place
      unfold produced? at later ⊢
      rw [List.zipIdx_cons, List.map_cons, List.find?_cons]
      by_cases here : node = index ∧ slot = first
      · obtain ⟨rfl, rfl⟩ := here
        simp
      · have other : decide (Origin.produced ⟨index, first⟩ = .produced ⟨node, slot⟩) = false := by
          simp only [Origin.produced.injEq, Place.mk.injEq, decide_eq_false_iff_not]
          exact fun same => here ⟨same.1.symm, same.2.symm⟩
        rw [other, later]
        by_cases inside : node = index ∧ first ≤ slot
        · have beyond : first + 1 ≤ slot := by
            have : slot ≠ first := fun same => here ⟨inside.1, same⟩
            omega
          rw [if_pos inside, if_pos ⟨inside.1, beyond⟩,
            show slot - first = (slot - (first + 1)) + 1 by omega, List.getElem?_cons_succ]
        · rw [if_neg inside, if_neg fun both => inside ⟨both.1, Nat.le_of_succ_le both.2⟩]
  have start := general outputs 0
  simpa [ofOutputs] using start

/-- **In the pool of a log of distinct nodes an output slot holds what its node put out there.** -/
theorem produced?_ofLog {log : List (Nat × List Value)} (once : (log.map Prod.fst).Nodup)
    (place : Place) (value : Value) :
    (ofLog log).produced? place = some value ↔
      ∃ outputs, (place.node, outputs) ∈ log ∧ outputs[place.slot]? = some value := by
  induction log generalizing value with
  | nil => simp [produced?]
  | cons entry rest ih =>
    obtain ⟨index, outputs⟩ := entry
    obtain ⟨notLater, onceRest⟩ := List.nodup_cons.mp once
    have unfolded : ofLog ((index, outputs) :: rest) = ofOutputs index outputs ++ ofLog rest := rfl
    rw [unfolded, produced?_append, produced?_ofOutputs]
    by_cases here : place.node = index
    · have absent : ∀ others, (place.node, others) ∉ rest := fun others member =>
        notLater (here ▸ List.mem_map.mpr ⟨_, member, rfl⟩)
      have later : (ofLog rest).produced? place = none := by
        rw [Option.eq_none_iff_forall_not_mem]
        intro found member
        obtain ⟨others, inRest, _⟩ := (ih onceRest found).mp member
        exact absent others inRest
      rw [if_pos here, later, Option.or_none]
      constructor
      · exact fun found => ⟨outputs, by rw [here]; exact List.mem_cons_self, found⟩
      · rintro ⟨others, member, found⟩
        rcases List.mem_cons.mp member with same | inRest
        · cases same
          exact found
        · exact absurd inRest (absent others)
    · rw [if_neg here, Option.none_or, ih onceRest value]
      constructor
      · rintro ⟨others, member, found⟩
        exact ⟨others, List.mem_cons_of_mem _ member, found⟩
      · rintro ⟨others, member, found⟩
        rcases List.mem_cons.mp member with same | inRest
        · exact absurd (congrArg Prod.fst same) here
        · exact ⟨others, inRest, found⟩

/-! ### Values set by hand -/

theorem manualFeeds_append (pool later : Pool) (index : Nat) :
    (pool ++ later).manualFeeds index = pool.manualFeeds index ++ later.manualFeeds index :=
  List.filterMap_append

theorem manualFeeds_ofSlots (owner : Nat) (values : Slots) (index : Nat) :
    (ofSlots owner values).manualFeeds index = if owner = index then values.entries else [] := by
  unfold manualFeeds ofSlots
  rw [List.filterMap_map]
  by_cases own : owner = index
  · rw [if_pos own]
    have each : manualFeed? index ∘ (fun entry : Nat × Value =>
        (⟨.manual ⟨owner, entry.1⟩, entry.2⟩ : Datum)) = some := by
      funext entry
      exact if_pos own
    rw [each, List.filterMap_some]
  · rw [if_neg own, List.filterMap_eq_nil_iff]
    exact fun entry _ => if_neg own

/-- Nothing that a node puts out is set by hand. -/
theorem manualFeeds_ofLog (log : List (Nat × List Value)) (index : Nat) :
    (ofLog log).manualFeeds index = [] := by
  unfold manualFeeds
  rw [List.filterMap_eq_nil_iff]
  intro datum member
  obtain ⟨entry, _, inside⟩ := List.mem_flatMap.mp member
  obtain ⟨output, _, rfl⟩ := List.mem_map.mp inside
  rfl

end Pool

/-! ### The feeds of a node of a circuit -/

namespace Circuit

/-- The values set by hand on the node at an index. -/
def valuesAt (c : Circuit) (index : Nat) : Slots :=
  (c.stations[index]?).elim .empty Station.values

/-- The number of wires and values that feed an input slot. -/
def feedCount (c : Circuit) (place : Place) : Nat :=
  (c.links.countP fun link => link.stop = place) +
    if ((c.valuesAt place.node).get? place.slot).isSome then 1 else 0

/-- The pool after the nodes of a log have run. -/
def poolOf (c : Circuit) (log : List (Nat × List Value)) : Pool :=
  c.initialPool ++ Pool.ofLog log

@[simp] theorem poolOf_nil (c : Circuit) : c.poolOf [] = c.initialPool :=
  List.append_nil _

theorem poolOf_concat (c : Circuit) (log : List (Nat × List Value)) (index : Nat)
    (outputs : List Value) :
    c.poolOf (log ++ [(index, outputs)]) = c.poolOf log ++ Pool.ofOutputs index outputs := by
  unfold poolOf
  rw [Pool.ofLog_concat, List.append_assoc]

/-- Before the first pass nothing has been produced. -/
theorem produced?_initialPool (c : Circuit) (place : Place) :
    c.initialPool.produced? place = none := by
  unfold initialPool
  generalize c.stations.zipIdx = rows
  induction rows with
  | nil => rfl
  | cons row rest ih =>
    rw [List.flatMap_cons, Pool.produced?_append, Pool.produced?_ofSlots, Option.none_or]
    exact ih

theorem produced?_poolOf (c : Circuit) (log : List (Nat × List Value)) (place : Place) :
    (c.poolOf log).produced? place = (Pool.ofLog log).produced? place := by
  unfold poolOf
  rw [Pool.produced?_append, produced?_initialPool, Option.none_or]

theorem manualFeeds_initialPool (c : Circuit) (index : Nat) :
    c.initialPool.manualFeeds index = (c.valuesAt index).entries := by
  have general : ∀ (stations : List Station) (first : Nat),
      Pool.manualFeeds ((stations.zipIdx first).flatMap fun row => Pool.ofSlots row.2 row.1.values)
          index =
        if first ≤ index then ((stations[index - first]?).elim .empty Station.values).entries
        else [] := by
    intro stations
    induction stations with
    | nil => intro first; simp [Pool.manualFeeds, Slots.empty]
    | cons station rest ih =>
      intro first
      rw [List.zipIdx_cons, List.flatMap_cons, Pool.manualFeeds_append, Pool.manualFeeds_ofSlots,
        ih (first + 1)]
      rcases Nat.lt_trichotomy first index with less | rfl | more
      · rw [if_neg (Nat.ne_of_lt less), if_pos (show first + 1 ≤ index from less),
          if_pos (Nat.le_of_lt less), List.nil_append,
          show index - first = (index - (first + 1)) + 1 by omega, List.getElem?_cons_succ]
      · rw [if_pos rfl, if_neg (Nat.not_succ_le_self first), if_pos (Nat.le_refl first),
          Nat.sub_self, List.append_nil]
        rfl
      · rw [if_neg (Nat.ne_of_gt more), if_neg (by omega), if_neg (by omega), List.nil_append]
  have start := general c.stations 0
  rw [if_pos (Nat.zero_le index)] at start
  exact start

/-- A run never changes the values set by hand. -/
theorem manualFeeds_poolOf (c : Circuit) (log : List (Nat × List Value)) (index : Nat) :
    (c.poolOf log).manualFeeds index = (c.valuesAt index).entries := by
  unfold poolOf
  rw [Pool.manualFeeds_append, manualFeeds_initialPool, Pool.manualFeeds_ofLog, List.append_nil]

/-- **A feed is a value set by hand or the value at the start of a wire.** -/
theorem mem_feeds (c : Circuit) (log : List (Nat × List Value)) (index slot : Nat)
    (value : Value) :
    (slot, value) ∈ c.feeds (c.poolOf log) index ↔
      (c.valuesAt index).get? slot = some value ∨
        ∃ link ∈ c.links, link.stop = ⟨index, slot⟩ ∧
          (c.poolOf log).produced? link.start = some value := by
  unfold feeds
  rw [(Feed.bySlot_perm _).mem_iff, List.mem_append, manualFeeds_poolOf,
    ← Slots.get?_eq_some_iff, or_comm, List.mem_filterMap]
  refine or_congr Iff.rfl (exists_congr fun link => and_congr_right fun _ => ?_)
  obtain ⟨start, ⟨node, place⟩⟩ := link
  unfold wiredFeed?
  rw [Place.mk.injEq]
  by_cases here : node = index
  · rw [if_pos here, Option.map_eq_some_iff]
    constructor
    · rintro ⟨found, produced, same⟩
      cases same
      exact ⟨⟨here, rfl⟩, produced⟩
    · rintro ⟨⟨_, rfl⟩, produced⟩
      exact ⟨value, produced, rfl⟩
  · rw [if_neg here]
    exact ⟨fun impossible => absurd impossible (by simp), fun both => absurd both.1.1 here⟩

/-- Feeds stand in ascending order of their slots. -/
theorem feeds_sorted (c : Circuit) (pool : Pool) (index : Nat) :
    (c.feeds pool index).Pairwise fun a b => a.1 ≤ b.1 :=
  Feed.bySlot_sorted _

section Single

variable {c : Circuit} {index : Nat}

/-- A slot has no more feeds at hand than wires and values that feed it. -/
theorem count_feeds_le (c : Circuit) (log : List (Nat × List Value)) (index slot : Nat) :
    ((c.feeds (c.poolOf log) index).map Prod.fst).count slot ≤ c.feedCount ⟨index, slot⟩ := by
  have wired : ∀ links : List Link,
      ((links.filterMap (wiredFeed? (c.poolOf log) index)).map Prod.fst).count slot ≤
        links.countP fun link => link.stop = ⟨index, slot⟩ := by
    intro links
    induction links with
    | nil => rfl
    | cons link rest ih =>
      obtain ⟨start, ⟨node, place⟩⟩ := link
      rw [List.filterMap_cons, List.countP_cons]
      by_cases here : node = index
      · unfold wiredFeed?
        rw [if_pos here]
        cases (c.poolOf log).produced? start with
        | none => exact Nat.le_trans ih (Nat.le_add_right _ _)
        | some value =>
          simp only [Option.map_some, List.map_cons, List.count_cons, beq_iff_eq, Place.mk.injEq,
            here, true_and, decide_eq_true_eq]
          exact Nat.add_le_add_right ih _
      · unfold wiredFeed?
        rw [if_neg here]
        exact Nat.le_trans ih (Nat.le_add_right _ _)
  have manual : ((c.valuesAt index).entries.map Prod.fst).count slot ≤
      if ((c.valuesAt index).get? slot).isSome then 1 else 0 := by
    by_cases set : slot ∈ (c.valuesAt index).entries.map Prod.fst
    · obtain ⟨⟨found, value⟩, member, rfl⟩ := List.mem_map.mp set
      rw [(Slots.get?_eq_some_iff _ _ _).mpr member]
      exact List.nodup_iff_count_le_one.mp (Slots.nodup_slots _) _
    · rw [List.count_eq_zero.mpr set]
      exact Nat.zero_le _
  unfold feeds feedCount
  rw [((Feed.bySlot_perm _).map Prod.fst).count_eq, List.map_append, List.count_append,
    manualFeeds_poolOf]
  exact Nat.add_le_add (wired c.links) manual

/-- A node with one feed at most in each slot never has two feeds in one slot. -/
theorem nodup_feeds (single : ∀ slot, c.feedCount ⟨index, slot⟩ ≤ 1)
    (log : List (Nat × List Value)) : ((c.feeds (c.poolOf log) index).map Prod.fst).Nodup :=
  List.nodup_iff_count_le_one.mpr fun slot => (count_feeds_le c log index slot).trans (single slot)

/-- The feed of a slot is the only one there. -/
theorem feeds_unique (single : ∀ slot, c.feedCount ⟨index, slot⟩ ≤ 1)
    {log : List (Nat × List Value)} {slot : Nat} {first second : Value}
    (one : (slot, first) ∈ c.feeds (c.poolOf log) index)
    (other : (slot, second) ∈ c.feeds (c.poolOf log) index) : first = second := by
  have same := List.inj_on_of_nodup_map (nodup_feeds single log) one other rfl
  exact congrArg Prod.snd same

/-- A slot that has a feed at hand is fed by a wire or a value. -/
theorem feedCount_pos {log : List (Nat × List Value)} {slot : Nat} {value : Value}
    (member : (slot, value) ∈ c.feeds (c.poolOf log) index) : 0 < c.feedCount ⟨index, slot⟩ := by
  have present : slot ∈ (c.feeds (c.poolOf log) index).map Prod.fst :=
    List.mem_map.mpr ⟨_, member, rfl⟩
  exact Nat.lt_of_lt_of_le (List.count_pos_iff.mpr present) (count_feeds_le c log index slot)

/-- **A node that has one feed in every declared slot and no other feed has exactly the declared
slots, in order.** -/
theorem feeds_slots {count : Nat} (single : ∀ slot, c.feedCount ⟨index, slot⟩ ≤ 1)
    (declared : ∀ slot, 0 < c.feedCount ⟨index, slot⟩ → slot < count)
    {log : List (Nat × List Value)}
    (present : ∀ slot < count, ∃ value, (slot, value) ∈ c.feeds (c.poolOf log) index) :
    (c.feeds (c.poolOf log) index).map Prod.fst = List.range count := by
  have once := nodup_feeds single log
  have sorted : ((c.feeds (c.poolOf log) index).map Prod.fst).Pairwise (· ≤ ·) :=
    List.pairwise_map.mpr (feeds_sorted c _ index)
  have same : ((c.feeds (c.poolOf log) index).map Prod.fst).Perm (List.range count) := by
    refine (List.perm_ext_iff_of_nodup once List.nodup_range).mpr fun slot => ?_
    rw [List.mem_range, List.mem_map]
    constructor
    · rintro ⟨⟨found, value⟩, member, rfl⟩
      exact declared _ (feedCount_pos member)
    · intro less
      obtain ⟨value, member⟩ := present slot less
      exact ⟨_, member, rfl⟩
  exact same.eq_of_pairwise (fun _ _ _ _ => Nat.le_antisymm) sorted List.pairwise_le_range

end Single

end Circuit

end FlowGraph
