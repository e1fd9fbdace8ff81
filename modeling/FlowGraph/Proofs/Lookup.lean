/-
**Looking functions up in the catalog.**

The catalog finds a function by its id, and of several with one id the first. No two of its
functions have the same id: those of the entries are fixed texts, and the id of a merge function is
the tag of its type behind a word that no entry begins with. A host may choose any tags, also those
of built-in types, so this holds for every registry.

* `arrange_rank`: arranging by rank lists the things rank by rank;
* `Catalog.mergeTypes_eq`: the types in the order of their merge functions;
* `Catalog.Stock.nodup_ids`: **no two functions of the catalog have the same id**;
* `Function.Merges.run_nil`: a merge function without inputs gives the default of its type;
* `Catalog.find?_folders`: **the catalog finds every function by its id, and exactly the merge
  functions of the registered types.**
-/

import FlowGraph.Catalog
import FlowGraph.Proofs.Feeds
import FlowGraph.Proofs.Registration
import FlowGraph.Run.Evaluate

namespace FlowGraph

/-! ### Arranging by rank -/

section Ranks

variable {α : Type} {precedes : α → α → Bool}

/-- What a thing may not precede stays in front of it. -/
theorem insertBefore_append {a : α} {front : List α} (stays : ∀ b ∈ front, precedes a b = false)
    (back : List α) :
    insertBefore precedes a (front ++ back) = front ++ insertBefore precedes a back := by
  induction front with
  | nil => rfl
  | cons b rest ih =>
    have later := ih fun c member => stays c (List.mem_cons_of_mem _ member)
    rw [List.cons_append, insertBefore, stays b List.mem_cons_self, later]
    rfl

theorem insertBefore_of_precedes {a : α} {things : List α}
    (first : ∀ b ∈ things, precedes a b = true) :
    insertBefore precedes a things = a :: things := by
  cases things with
  | nil => rfl
  | cons b rest => rw [insertBefore, if_pos (first b List.mem_cons_self)]

/-- **Arranging by rank lists the things rank by rank**, those of one rank in their old order. -/
theorem arrange_rank {rank : α → Nat} {count : Nat} {things : List α}
    (bounded : ∀ a ∈ things, rank a < count) :
    arrange (fun a b => rank a ≤ rank b) things =
      (List.range count).flatMap fun r => things.filter fun a => rank a = r := by
  induction things with
  | nil => simp [arrange]
  | cons a rest ih =>
    obtain ⟨inside, boundedRest⟩ := List.forall_mem_cons.mp bounded
    -- The ranks below that of the first thing, its own rank, and those above.
    obtain ⟨more, split⟩ : ∃ more, List.range count =
        List.range (rank a) ++ rank a :: List.range' (rank a + 1) more := by
      obtain ⟨more, rfl⟩ := Nat.exists_eq_add_of_lt inside
      refine ⟨more, ?_⟩
      rw [List.range_eq_range', Nat.add_assoc, ← List.range'_append_1, Nat.zero_add,
        List.range'_succ, ← List.range_eq_range']
    have arranged : arrange (fun a b => decide (rank a ≤ rank b)) (a :: rest) =
        insertBefore (fun a b => decide (rank a ≤ rank b)) a
          ((List.range count).flatMap fun r => rest.filter fun b => rank b = r) :=
      congrArg (insertBefore _ a) (ih boundedRest)
    have elsewhere : ∀ ranks : List Nat, rank a ∉ ranks →
        (ranks.flatMap fun r => (a :: rest).filter fun b => rank b = r) =
          ranks.flatMap fun r => rest.filter fun b => rank b = r := by
      intro ranks apart
      refine List.flatMap_congr fun r member => ?_
      exact List.filter_cons_of_neg (by simpa using fun same : rank a = r => apart (same ▸ member))
    rw [arranged, split, List.flatMap_append, List.flatMap_append, List.flatMap_cons,
      List.flatMap_cons, elsewhere _ (by simp), elsewhere _ (by simp), insertBefore_append]
    · rw [insertBefore_of_precedes, List.filter_cons_of_pos (by simp), List.cons_append]
      intro b member
      simp only [List.mem_append, List.mem_filter, List.mem_flatMap, List.mem_range'_1,
        decide_eq_true_eq] at member ⊢
      rcases member with ⟨_, same⟩ | ⟨r, ⟨above, _⟩, _, same⟩ <;> omega
    · intro b member
      simp only [List.mem_flatMap, List.mem_range, List.mem_filter, decide_eq_true_eq,
        decide_eq_false_iff_not] at member ⊢
      obtain ⟨r, below, _, same⟩ := member
      omega

end Ranks

/-! ### Drawing identifiers for a row -/

theorem Fresh.run_pair {α β γ : Type} (first : Fresh α) (second : Fresh β) (pair : α → β → γ)
    (supply : IdSupply) :
    ((do let a ← first; let b ← second; return pair a b : Fresh γ).run supply).1 =
      pair (first.run supply).1 (second.run (first.run supply).2).1 := rfl

/-- What each thing of a row is turned into, whatever identifiers are drawn. -/
theorem Fresh.forall₂_mapM {α β : Type} {f : α → Fresh β} {related : α → β → Prop}
    (each : ∀ thing supply, related thing ((f thing).run supply).1) (things : List α)
    (supply : IdSupply) : List.Forall₂ related things ((things.mapM f).run supply).1 := by
  induction things generalizing supply with
  | nil => exact .nil
  | cons thing rest ih =>
    rw [List.mapM_cons]
    exact .cons (each thing supply) (ih _)

theorem map_eq_of_forall₂ {α β γ : Type} {first : α → γ} {second : β → γ} {as : List α}
    {bs : List β} (same : List.Forall₂ (fun a b => second b = first a) as bs) :
    bs.map second = as.map first := by
  induction same with
  | nil => rfl
  | cons here _ ih => rw [List.map_cons, List.map_cons, here, ih]

/-! ### Merge functions -/

theorem mergeId_injective : Function.Injective mergeId := by
  rintro ⟨first⟩ ⟨second⟩ same
  simpa [mergeId] using same

namespace Function

/-- The function merges two branches of a type. -/
def Merges (valueType : ValueType) (f : Function) : Prop :=
  ∃ supply : IdSupply, f = ((merge valueType).run supply).1

variable {valueType : ValueType} {f : Function}

theorem Merges.id (merges : Merges valueType f) : f.id = mergeId valueType.tag := by
  obtain ⟨supply, rfl⟩ := merges
  rfl

theorem Merges.anyInput (merges : Merges valueType f) : f.anyInput = true := by
  obtain ⟨supply, rfl⟩ := merges
  rfl

/-- A merge function without inputs gives the default of its type. -/
theorem Merges.run_nil (merges : Merges valueType f) :
    f.run [] = ⟨.ok [valueType.default], []⟩ := by
  obtain ⟨supply, rfl⟩ := merges
  unfold run evaluate
  rw [evaluateAt_native rfl]
  rfl

end Function

/-! ### The types in the order of their merge functions -/

namespace Registry

/-- The types with a tag are the one that is found under it. -/
theorem filter_tag_eq {registry : Registry} (distinct : registry.order.Nodup) (tag : TypeTag) :
    (registry.types.filter fun valueType => valueType.tag = tag) = (registry.get? tag).toList := by
  cases found : registry.get? tag with
  | none =>
    rw [List.filter_eq_nil_iff.mpr fun valueType member => List.find?_eq_none.mp found _ member]
    rfl
  | some valueType =>
    refine List.perm_singleton.mp ((List.perm_ext_iff_of_nodup ?_ (List.nodup_singleton _)).mpr
      fun other => ?_)
    · exact (List.Nodup.of_map _ distinct).filter _
    · rw [List.mem_filter, decide_eq_true_eq, ← get?_eq_some_iff distinct, found,
        List.mem_singleton, Option.some.injEq, eq_comm]

end Registry

namespace Catalog

variable {registry : Registry}

theorem mergeRank_eq_iff (valueType : ValueType) {rank : Nat} {tag : TypeTag}
    (listed : mergeOrder[rank]? = some tag) : mergeRank valueType = rank ↔ valueType.tag = tag := by
  obtain ⟨inside, rfl⟩ := List.getElem?_eq_some_iff.mp listed
  unfold mergeRank
  constructor
  · rintro rfl
    rw [List.getElem_idxOf]
  · intro same
    rw [same]
    exact List.Nodup.idxOf_getElem (by decide) rank inside

theorem mergeRank_eq_length_iff (valueType : ValueType) :
    mergeRank valueType = 4 ↔ valueType.tag ∉ mergeOrder :=
  List.idxOf_eq_length_iff

theorem mergeTypes_perm (registry : Registry) : (mergeTypes registry).Perm registry.types :=
  arrange_perm _

/-- **The types in the order of their merge functions**: the built-in tags as far as they are
registered, and then all others in the order of registration. -/
theorem mergeTypes_eq (distinct : registry.order.Nodup) :
    mergeTypes registry = mergeOrder.filterMap registry.get? ++
      registry.types.filter fun valueType => valueType.tag ∉ mergeOrder := by
  have bounded : ∀ valueType ∈ registry.types, mergeRank valueType < 5 := fun valueType _ =>
    Nat.lt_succ_of_le List.idxOf_le_length
  have ranked : ∀ rank tag, mergeOrder[rank]? = some tag →
      (registry.types.filter fun valueType => mergeRank valueType = rank) =
        (registry.get? tag).toList := by
    intro rank tag listed
    simp only [mergeRank_eq_iff _ listed]
    exact Registry.filter_tag_eq distinct tag
  have builtIn : mergeOrder.filterMap registry.get? =
      mergeOrder.flatMap fun tag => (registry.get? tag).toList :=
    List.filterMap_eq_flatMap_toList _ _
  unfold mergeTypes
  rw [arrange_rank bounded, builtIn]
  simp only [List.range_succ, List.range_zero, List.nil_append, List.flatMap_append,
    List.flatMap_singleton, ranked 0 _ rfl, ranked 1 _ rfl, ranked 2 _ rfl, ranked 3 _ rfl,
    mergeRank_eq_length_iff]
  simp [mergeOrder]

/-! ### The functions of the catalog -/

/-- Entries have distinct ids. -/
theorem nodup_entries : ((Folder.flatten entryFolders).map Entry.id).Nodup := by
  decide

/-- No entry has the id of a merge function. -/
theorem entry_ne_merge {entry : Entry} (member : entry ∈ Folder.flatten entryFolders)
    (tag : TypeTag) : entry.id ≠ mergeId tag := by
  have first : ∀ entry ∈ Folder.flatten entryFolders, entry.id.toList.head? = some 's' := by decide
  intro same
  have heads := first entry member
  rw [same, mergeId, String.toList_append] at heads
  simp at heads

/-- The functions of the catalog for a registry: those of the entries and the merge functions. -/
structure Stock (registry : Registry) (entries merges : List Function) : Prop where
  entries : entries.map Function.id = (Folder.flatten entryFolders).map Entry.id
  merges : List.Forall₂ Function.Merges (mergeTypes registry) merges

/-- The merge functions fill the last folder of the catalog. -/
theorem stock_folders (registry : Registry) (supply : IdSupply) :
    ∃ entries merges, Stock registry entries merges ∧
      Folder.flatten ((folders registry).run supply).1 = entries ++ merges ∧
        ((folders registry).run supply).1.getLast? = some ⟨"Merge Flow", merges⟩ := by
  have made : List.Forall₂ (fun (folder : Folder Entry) (made : Folder Function) =>
      made.content.map Function.id = folder.content.map Entry.id) entryFolders
      ((entryFolders.mapM Folder.ofEntries).run supply).1 := by
    refine Fresh.forall₂_mapM (fun folder supply => map_eq_of_forall₂ ?_) entryFolders supply
    exact Fresh.forall₂_mapM (fun entry supply => rfl) folder.content supply
  unfold folders
  rw [Fresh.run_pair]
  generalize ((entryFolders.mapM Folder.ofEntries).run supply).1 = entries at made
  refine ⟨Folder.flatten entries, _, ⟨?_, ?_⟩, ?_, List.getLast?_concat⟩
  · unfold Folder.flatten
    rw [List.map_flatMap, List.map_flatMap, List.flatMap_def, List.flatMap_def,
      map_eq_of_forall₂ made]
  · exact Fresh.forall₂_mapM (fun valueType supply => ⟨supply, rfl⟩) _ _
  · unfold Folder.flatten
    rw [List.flatMap_append, List.flatMap_singleton]

namespace Stock

variable {entries merges : List Function} {tag : TypeTag} {f : Function}

/-- A function with the id of a merge function merges the type registered under its tag. -/
theorem merges_of_id (stock : Stock registry entries merges) (distinct : registry.order.Nodup)
    (member : f ∈ entries ++ merges) (id : f.id = mergeId tag) :
    ∃ valueType, registry.get? tag = some valueType ∧ Function.Merges valueType f := by
  rcases List.mem_append.mp member with inEntries | inMerges
  · have listed : f.id ∈ (Folder.flatten entryFolders).map Entry.id :=
      stock.entries ▸ List.mem_map_of_mem inEntries
    obtain ⟨entry, inside, same⟩ := List.mem_map.mp listed
    exact absurd (same.trans id) (entry_ne_merge inside tag)
  · obtain ⟨place, inside, rfl⟩ := List.mem_iff_getElem.mp inMerges
    have within : place < (mergeTypes registry).length := stock.merges.length_eq ▸ inside
    have merging := stock.merges.get within inside
    have own := mergeId_injective (merging.id.symm.trans id)
    refine ⟨_, (Registry.get?_eq_some_iff distinct).mpr ⟨?_, own⟩, merging⟩
    exact (mergeTypes_perm registry).mem_iff.mp (List.get_mem _ _)

/-- **No two functions of the catalog have the same id.** -/
theorem nodup_ids (stock : Stock registry entries merges) (distinct : registry.order.Nodup) :
    ((entries ++ merges).map Function.id).Nodup := by
  have ids : merges.map Function.id =
      ((mergeTypes registry).map ValueType.tag).map mergeId := by
    rw [List.map_map]
    exact map_eq_of_forall₂ (stock.merges.imp fun _ _ merging => merging.id)
  have once : ((mergeTypes registry).map ValueType.tag).Nodup :=
    ((mergeTypes_perm registry).map ValueType.tag).nodup_iff.mpr distinct
  rw [List.map_append, stock.entries, ids]
  refine nodup_entries.append (once.map mergeId_injective) fun id first second => ?_
  obtain ⟨entry, inside, rfl⟩ := List.mem_map.mp first
  obtain ⟨tag, _, same⟩ := List.mem_map.mp second
  exact entry_ne_merge inside tag same.symm

/-- Every registered type has its merge function. -/
theorem exists_merge (stock : Stock registry entries merges) {valueType : ValueType}
    (member : valueType ∈ registry.types) :
    ∃ f ∈ entries ++ merges, f.id = mergeId valueType.tag := by
  obtain ⟨place, inside, rfl⟩ := List.mem_iff_getElem.mp
    ((mergeTypes_perm registry).mem_iff.mpr member)
  have within : place < merges.length := stock.merges.length_eq ▸ inside
  refine ⟨merges.get ⟨place, within⟩, List.mem_append_right _ (List.get_mem _ _), ?_⟩
  exact (stock.merges.get inside within).id

end Stock

/-- **The catalog finds every function by its id**, and the merge function of a type exactly if the
type is registered. The merge functions stand in the last folder, those of built-in tags first. -/
theorem find?_folders (recipe : Recipe) (supply : IdSupply) :
    let registry := recipe.registry
    let catalog := ((folders registry).run supply).1
    ((Folder.flatten catalog).map Function.id).Nodup ∧
    (∀ f ∈ Folder.flatten catalog, Function.find? catalog f.id = some f) ∧
    (∀ tag, (Function.find? catalog (mergeId tag)).isSome = true ↔ registry.contains tag = true) ∧
    (∀ tag f, Function.find? catalog (mergeId tag) = some f →
      f.anyInput = true ∧ ∃ valueType, registry.get? tag = some valueType ∧
        (f.run []).result = .ok [valueType.default]) ∧
    ∃ merges row, catalog.getLast? = some ⟨"Merge Flow", merges⟩ ∧
      List.Forall₂ Function.Merges row merges ∧ row.Perm registry.types ∧
        row = mergeOrder.filterMap registry.get? ++
          registry.types.filter fun valueType => valueType.tag ∉ mergeOrder := by
  have distinct := recipe.nodup_order
  obtain ⟨entries, merges, stock, functions, last⟩ := stock_folders recipe.registry supply
  dsimp only
  generalize recipe.registry = registry at distinct stock functions last ⊢
  generalize ((folders registry).run supply).1 = catalog at functions last ⊢
  have once : ((Folder.flatten catalog).map Function.id).Nodup := by
    rw [functions]
    exact stock.nodup_ids distinct
  have found : ∀ f ∈ Folder.flatten catalog, Function.find? catalog f.id = some f := fun f member =>
    find?_of_nodup_map once member
  have merging : ∀ tag f, Function.find? catalog (mergeId tag) = some f →
      ∃ valueType, registry.get? tag = some valueType ∧ Function.Merges valueType f := by
    intro tag f known
    have member : f ∈ entries ++ merges := functions ▸ List.mem_of_find?_eq_some known
    exact stock.merges_of_id distinct member (by simpa using List.find?_some known)
  refine ⟨once, found, fun tag => ⟨fun known => ?_, fun known => ?_⟩, fun tag f known => ?_,
    merges, _, last, stock.merges, mergeTypes_perm registry, mergeTypes_eq distinct⟩
  · obtain ⟨f, known⟩ := Option.isSome_iff_exists.mp known
    obtain ⟨valueType, present, _⟩ := merging tag f known
    exact Option.isSome_iff_exists.mpr ⟨valueType, present⟩
  · obtain ⟨valueType, present⟩ := Option.isSome_iff_exists.mp known
    obtain ⟨member, rfl⟩ := (Registry.get?_eq_some_iff distinct).mp present
    obtain ⟨f, inside, id⟩ := stock.exists_merge member
    rw [← id, found f (functions ▸ inside)]
    rfl
  · obtain ⟨valueType, present, merges⟩ := merging tag f known
    exact ⟨merges.anyInput, valueType, present, congrArg Outcome.result merges.run_nil⟩

end Catalog

end FlowGraph
