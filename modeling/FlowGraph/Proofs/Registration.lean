/-
**Registries, however they were made.**

A registry is made from the new one by registering types and merging registries. It can be laid out
in two ways: as one row of types, or as a table of types by tag beside a row of tags in the order of
registration. Both layouts show the same whatever was done to them. Merging is a union in which the
merged types win and the older tags come first, so registries form a monoid of idempotents.

* `Registry.get?_register`, `Registry.order_register`: one registration;
* `Registry.get?_merge`, `Registry.order_merge`: one merge;
* `Registry.types_eq`: the types are those that the tags in order resolve to, so a registry is known
  by its order and its look-up;
* `Ledger`: the layout with a table and a row of tags, which `Ledger.Keeps.register` and
  `Ledger.Keeps.merge` keep in step with the registry;
* `Recipe.registry_laws`: **every registry is coherent in both layouts, and merging is associative
  and idempotent with the new registry as its unit.**
-/

import Mathlib
import FlowGraph.Registry

namespace FlowGraph

theorem TypeTag.isControlFlow_iff {tag : TypeTag} :
    tag.isControlFlow = true ↔ tag = .controlFlow :=
  decide_eq_true_iff

/-- In a row with distinct keys a thing is found by its key. -/
theorem find?_of_nodup_map {α κ : Type} [DecidableEq κ] {key : α → κ} {row : List α}
    (once : (row.map key).Nodup) {a : α} (member : a ∈ row) :
    (row.find? fun b => key b = key a) = some a := by
  cases found : row.find? fun b => decide (key b = key a) with
  | none => simpa using List.find?_eq_none.mp found a member
  | some b =>
    have same : key b = key a := by simpa using List.find?_some found
    exact congrArg some
      (List.inj_on_of_nodup_map once (List.mem_of_find?_eq_some found) member same)

namespace Registry

variable {registry other third : Registry} {valueType : ValueType} {tag : TypeTag}

/-- The registered tags in the order of registration. -/
def order (registry : Registry) : List TypeTag :=
  registry.types.map ValueType.tag

/-! ### Looking up -/

@[simp] theorem get?_controlFlow (registry : Registry) :
    registry.get? .controlFlow = some .controlFlow := by
  simp [get?, types, ValueType.controlFlow]

theorem get?_of_ne (registry : Registry) (data : tag ≠ .controlFlow) :
    registry.get? tag = registry.others.find? fun valueType => valueType.tag = tag := by
  have other : decide (ValueType.controlFlow.tag = tag) = false := decide_eq_false data.symm
  simp [get?, types, other]

/-- The tags in order are those that a type is registered under. -/
theorem mem_order_iff : tag ∈ registry.order ↔ registry.contains tag = true := by
  simp [order, contains, get?, List.find?_isSome]

theorem get?_of_mem (distinct : registry.order.Nodup) (member : valueType ∈ registry.types) :
    registry.get? valueType.tag = some valueType :=
  find?_of_nodup_map distinct member

/-- **A type is found under its own tag** and under no other. -/
theorem get?_eq_some_iff (distinct : registry.order.Nodup) :
    registry.get? tag = some valueType ↔ valueType ∈ registry.types ∧ valueType.tag = tag := by
  constructor
  · intro found
    exact ⟨List.mem_of_find?_eq_some found, by simpa using List.find?_some found⟩
  · rintro ⟨member, rfl⟩
    exact get?_of_mem distinct member

/-- **The types are those that the tags in order resolve to.** -/
theorem types_eq (distinct : registry.order.Nodup) :
    registry.types = registry.order.filterMap registry.get? := by
  have resolved : ∀ valueType ∈ registry.types,
      (registry.get? ∘ ValueType.tag) valueType = some valueType := fun _ member =>
    get?_of_mem distinct member
  rw [order, List.filterMap_map, List.filterMap_congr resolved, List.filterMap_some]

/-- A registry is known by its order and its look-up. -/
theorem eq_of_order_of_get? (distinct : registry.order.Nodup) (order : registry.order = other.order)
    (same : ∀ tag, registry.get? tag = other.get? tag) : registry = other := by
  have types : registry.types = other.types := by
    rw [types_eq distinct, types_eq (order ▸ distinct), order, funext same]
  obtain ⟨row⟩ := registry
  obtain ⟨row'⟩ := other
  exact congrArg Registry.mk (List.tail_eq_of_cons_eq types)

/-! ### Registering a type -/

theorem map_tag_place (types : List ValueType) :
    (place valueType types).map ValueType.tag =
      if valueType.tag ∈ types.map ValueType.tag then types.map ValueType.tag
      else types.map ValueType.tag ++ [valueType.tag] := by
  induction types with
  | nil => rfl
  | cons first rest ih =>
    unfold place
    by_cases here : first.tag = valueType.tag
    · simp [here]
    · rw [if_neg here, List.map_cons, ih]
      simp only [List.map_cons, List.mem_cons, Ne.symm here, false_or]
      split <;> rfl

theorem find?_place (types : List ValueType) (tag : TypeTag) :
    ((place valueType types).find? fun found => found.tag = tag) =
      if valueType.tag = tag then some valueType else types.find? fun found => found.tag = tag := by
  induction types with
  | nil => by_cases sought : valueType.tag = tag <;> simp [place, sought]
  | cons first rest ih =>
    unfold place
    by_cases here : first.tag = valueType.tag
    · by_cases sought : valueType.tag = tag <;> simp [here, sought]
    · rw [if_neg here, List.find?_cons, ih, List.find?_cons]
      by_cases sought : valueType.tag = tag
      · simp [sought ▸ here, sought]
      · simp [sought]

/-- A type that claims the tag of control flow is not registered. -/
theorem register_of_eq (claims : valueType.tag = .controlFlow) :
    registry.register valueType = registry := by
  unfold register
  rw [if_pos (TypeTag.isControlFlow_iff.mpr claims)]

theorem register_of_ne (data : valueType.tag ≠ .controlFlow) :
    registry.register valueType = ⟨place valueType registry.others⟩ := by
  unfold register
  rw [if_neg (mt TypeTag.isControlFlow_iff.mp data)]

/-- A registered type is found under its tag, every other tag resolves as before. -/
theorem get?_register (data : valueType.tag ≠ .controlFlow) (tag : TypeTag) :
    (registry.register valueType).get? tag =
      if valueType.tag = tag then some valueType else registry.get? tag := by
  by_cases flow : tag = .controlFlow
  · rw [flow, get?_controlFlow, get?_controlFlow, if_neg data]
  · rw [get?_of_ne _ flow, get?_of_ne _ flow, register_of_ne data, find?_place]

/-- A new tag comes behind all others, a known one keeps its place. -/
theorem order_register (data : valueType.tag ≠ .controlFlow) :
    (registry.register valueType).order =
      if valueType.tag ∈ registry.order then registry.order
      else registry.order ++ [valueType.tag] := by
  have known : valueType.tag ∈ registry.order ↔
      valueType.tag ∈ registry.others.map ValueType.tag := by
    simp [order, types, ValueType.controlFlow, data]
  rw [register_of_ne data]
  simp only [known]
  simp only [order, types, List.map_cons, map_tag_place]
  split <;> rfl

theorem nodup_order_register (distinct : registry.order.Nodup) (valueType : ValueType) :
    (registry.register valueType).order.Nodup := by
  by_cases flow : valueType.tag = .controlFlow
  · rw [register_of_eq flow]
    exact distinct
  · rw [order_register flow]
    split
    · exact distinct
    · next fresh => exact List.concat_eq_append ▸ distinct.concat fresh

/-! ### Merging registries -/

/-- The types beside control flow have other tags, and no two of them have the same. -/
theorem nodup_others (distinct : registry.order.Nodup) :
    (∀ valueType ∈ registry.others, valueType.tag ≠ .controlFlow) ∧
      (registry.others.map ValueType.tag).Nodup := by
  obtain ⟨apart, once⟩ := List.nodup_cons.mp distinct
  exact ⟨fun valueType member same => apart (List.mem_map.mpr ⟨valueType, member, same⟩), once⟩

theorem get?_foldl_register {added : List ValueType}
    (data : ∀ valueType ∈ added, valueType.tag ≠ .controlFlow)
    (once : (added.map ValueType.tag).Nodup) (registry : Registry) (tag : TypeTag) :
    (added.foldl register registry).get? tag =
      (added.find? fun valueType => valueType.tag = tag).or (registry.get? tag) := by
  induction added generalizing registry with
  | nil => rfl
  | cons first rest ih =>
    obtain ⟨notLater, onceRest⟩ := List.nodup_cons.mp once
    rw [List.foldl_cons, ih (fun valueType member => data valueType (.tail _ member)) onceRest,
      get?_register (data first List.mem_cons_self), List.find?_cons]
    by_cases here : first.tag = tag
    · have absent : (rest.find? fun valueType => decide (valueType.tag = tag)) = none := by
        rw [List.find?_eq_none]
        intro valueType member same
        exact notLater
          (List.mem_map.mpr ⟨valueType, member, (of_decide_eq_true same).trans here.symm⟩)
      simp [here, absent]
    · simp [here]

theorem order_foldl_register {added : List ValueType}
    (data : ∀ valueType ∈ added, valueType.tag ≠ .controlFlow)
    (once : (added.map ValueType.tag).Nodup) (registry : Registry) :
    (added.foldl register registry).order =
      registry.order ++ (added.map ValueType.tag).filter (· ∉ registry.order) := by
  induction added generalizing registry with
  | nil => simp
  | cons first rest ih =>
    obtain ⟨notLater, onceRest⟩ := List.nodup_cons.mp once
    rw [List.foldl_cons, ih (fun valueType member => data valueType (.tail _ member)) onceRest,
      order_register (data first List.mem_cons_self), List.map_cons, List.filter_cons]
    by_cases known : first.tag ∈ registry.order
    · simp [known]
    · have same : (rest.map ValueType.tag).filter (· ∉ registry.order ++ [first.tag]) =
          (rest.map ValueType.tag).filter (· ∉ registry.order) := by
        refine List.filter_congr fun tag member => ?_
        have other : tag ≠ first.tag := fun same => notLater (same ▸ member)
        simp [other]
      rw [if_neg known, same]
      simp [known]

/-- **A tag resolves to the merged type if there is one**, and as before otherwise. -/
theorem get?_merge (distinct : other.order.Nodup) (tag : TypeTag) :
    (registry.merge other).get? tag = (other.get? tag).or (registry.get? tag) := by
  by_cases flow : tag = .controlFlow
  · simp [flow]
  · obtain ⟨data, once⟩ := nodup_others distinct
    rw [merge, get?_foldl_register data once, get?_of_ne other flow]

/-- **Merged tags that are new follow the old ones**, each row in its own order. -/
theorem order_merge (distinct : other.order.Nodup) :
    (registry.merge other).order =
      registry.order ++ other.order.filter (· ∉ registry.order) := by
  obtain ⟨data, once⟩ := nodup_others distinct
  have first : ValueType.controlFlow.tag ∈ registry.order := List.mem_cons_self
  rw [merge, order_foldl_register data once, show other.order =
    ValueType.controlFlow.tag :: other.others.map ValueType.tag from rfl, List.filter_cons]
  simp [first]

theorem nodup_order_merge (distinct : registry.order.Nodup) (distinct' : other.order.Nodup) :
    (registry.merge other).order.Nodup := by
  rw [order_merge distinct']
  refine distinct.append (distinct'.filter _) fun tag old new => ?_
  exact of_decide_eq_true (List.mem_filter.mp new).2 old

/-! ### Laws of merging -/

theorem merge_assoc (one : registry.order.Nodup) (two : other.order.Nodup)
    (three : third.order.Nodup) :
    (registry.merge other).merge third = registry.merge (other.merge third) := by
  have later := nodup_order_merge two three
  refine eq_of_order_of_get? (nodup_order_merge (nodup_order_merge one two) three) ?_ fun tag => ?_
  · have same : third.order.filter (· ∉ registry.order ++ other.order.filter (· ∉ registry.order)) =
        (third.order.filter (· ∉ other.order)).filter (· ∉ registry.order) := by
      rw [List.filter_filter]
      refine List.filter_congr fun tag _ => ?_
      by_cases old : tag ∈ registry.order <;> simp [old]
    rw [order_merge three, order_merge two, order_merge later, order_merge three,
      List.filter_append, same, List.append_assoc]
  · rw [get?_merge three, get?_merge two, get?_merge later, get?_merge three, Option.or_assoc]

theorem new_merge (distinct : registry.order.Nodup) : new.merge registry = registry := by
  refine eq_of_order_of_get? (nodup_order_merge (List.nodup_singleton _) distinct) ?_ fun tag => ?_
  · have apart : ∀ tag ∈ registry.others.map ValueType.tag, tag ≠ TypeTag.controlFlow := by
      intro tag member same
      obtain ⟨valueType, inside, rfl⟩ := List.mem_map.mp member
      exact (nodup_others distinct).1 valueType inside same
    have kept : (registry.others.map ValueType.tag).filter (· ∉ new.order) =
        registry.others.map ValueType.tag := by
      refine List.filter_eq_self.mpr fun tag member => ?_
      simpa [order, new, types, ValueType.controlFlow] using apart tag member
    rw [order_merge distinct, show registry.order =
      ValueType.controlFlow.tag :: registry.others.map ValueType.tag from rfl, List.filter_cons,
      kept]
    simp [order, new, types]
  · rw [get?_merge distinct]
    by_cases flow : tag = .controlFlow
    · simp [flow]
    · rw [get?_of_ne new flow]
      simp [new]

theorem merge_new (registry : Registry) : registry.merge new = registry := rfl

theorem merge_self (distinct : registry.order.Nodup) : registry.merge registry = registry := by
  refine eq_of_order_of_get? (nodup_order_merge distinct distinct) ?_ fun tag => ?_
  · have nothing : registry.order.filter (· ∉ registry.order) = [] :=
      List.filter_eq_nil_iff.mpr fun tag member => by simpa using member
    rw [order_merge distinct, nothing, List.append_nil]
  · rw [get?_merge distinct, Option.or_self]

end Registry

/-! ### What a registry shows -/

/-- What a registry shows, whatever its layout. -/
@[ext]
structure Listing where
  /-- The tags in the order of registration. -/
  order : List TypeTag
  /-- The type stored under a tag. -/
  get? : TypeTag → Option ValueType
  /-- The types in the order of registration. -/
  types : List ValueType
  /-- The number of types stored. -/
  size : Nat

/-- The tags in order are the stored ones, each of them once; control flow comes first and is the
built-in type; the types listed are all types stored, each of them under its own tag. -/
structure Listing.Coherent (listing : Listing) : Prop where
  distinct : listing.order.Nodup
  stored : ∀ tag, tag ∈ listing.order ↔ (listing.get? tag).isSome = true
  first : listing.order.head? = some .controlFlow
  builtIn : listing.get? .controlFlow = some .controlFlow
  count : listing.size = listing.types.length
  listed : listing.types.map ValueType.tag = listing.order
  keyed : ∀ tag valueType, listing.get? tag = some valueType ↔
    valueType ∈ listing.types ∧ valueType.tag = tag

/-- What a registry shows. -/
def Registry.listing (registry : Registry) : Listing :=
  ⟨registry.order, registry.get?, registry.types, registry.size⟩

theorem Registry.coherent_listing {registry : Registry} (distinct : registry.order.Nodup) :
    registry.listing.Coherent where
  distinct := distinct
  stored _ := mem_order_iff
  first := rfl
  builtIn := registry.get?_controlFlow
  count := rfl
  listed := rfl
  keyed _ _ := get?_eq_some_iff distinct

/-! ### A table and a row of tags -/

instance TypeTag.hashable : Hashable TypeTag :=
  ⟨fun tag => hash tag.name⟩

/-- A registry laid out as a table of types and the row of their tags. -/
structure Ledger where
  /-- The types by tag. -/
  stored : Std.HashMap TypeTag ValueType
  /-- The tags in the order of registration. -/
  order : List TypeTag

namespace Ledger

/-- The ledger of control flow alone. -/
def new : Ledger :=
  ⟨(∅ : Std.HashMap TypeTag ValueType).insert .controlFlow .controlFlow, [.controlFlow]⟩

/-- The types in the order of registration. -/
def types (ledger : Ledger) : List ValueType :=
  ledger.order.filterMap (ledger.stored[·]?)

/-- Registers a type. A type that claims the tag of control flow is ignored. -/
def register (ledger : Ledger) (valueType : ValueType) : Ledger :=
  if valueType.tag.isControlFlow then ledger
  else
    { stored := ledger.stored.insert valueType.tag valueType
      order := if valueType.tag ∈ ledger.stored then ledger.order
        else ledger.order ++ [valueType.tag] }

/-- Registers the type that another ledger has under a tag. -/
def adopt (other ledger : Ledger) (tag : TypeTag) : Ledger :=
  match other.stored[tag]? with
  | some valueType => if tag.isControlFlow then ledger else ledger.register valueType
  | none => ledger

/-- Registers every type of another ledger, in its order. -/
def merge (ledger other : Ledger) : Ledger :=
  other.order.foldl other.adopt ledger

/-- What a ledger shows. -/
def listing (ledger : Ledger) : Listing :=
  ⟨ledger.order, (ledger.stored[·]?), ledger.types, ledger.stored.size⟩

/-- The two tables of a ledger hold what a registry holds. -/
structure Keeps (ledger : Ledger) (registry : Registry) : Prop where
  order : ledger.order = registry.order
  stored : ∀ tag, ledger.stored[tag]? = registry.get? tag

namespace Keeps

variable {ledger ledger' : Ledger} {registry other : Registry}

theorem new : Ledger.new.Keeps .new where
  order := rfl
  stored tag := by
    by_cases flow : tag = .controlFlow
    · simp [Ledger.new, flow]
    · rw [Registry.get?_of_ne _ flow]
      simp [Ledger.new, Registry.new, Ne.symm flow]

theorem mem_stored (keeps : ledger.Keeps registry) (tag : TypeTag) :
    tag ∈ ledger.stored ↔ tag ∈ registry.order := by
  rw [Registry.mem_order_iff, Registry.contains, ← keeps.stored,
    Std.HashMap.mem_iff_isSome_getElem?]

/-- Registering keeps the table and the row of tags in step. -/
theorem register (keeps : ledger.Keeps registry) (valueType : ValueType) :
    (ledger.register valueType).Keeps (registry.register valueType) := by
  unfold Ledger.register
  by_cases flow : valueType.tag = .controlFlow
  · rw [if_pos (TypeTag.isControlFlow_iff.mpr flow), Registry.register_of_eq flow]
    exact keeps
  · rw [if_neg (mt TypeTag.isControlFlow_iff.mp flow)]
    constructor
    · rw [Registry.order_register flow, ← keeps.order]
      simp only [keeps.mem_stored, keeps.order]
    · intro tag
      rw [Registry.get?_register flow, ← keeps.stored, Std.HashMap.getElem?_insert]
      simp

/-- **Merging keeps the table and the row of tags in step.** -/
theorem merge (keeps : ledger.Keeps registry) (keeps' : ledger'.Keeps other)
    (distinct : other.order.Nodup) : (ledger.merge ledger').Keeps (registry.merge other) := by
  -- The other ledger has each of its types under its own tag.
  have adopts : ∀ valueType ∈ other.others, ∀ before : Ledger,
      ledger'.adopt before valueType.tag = before.register valueType := by
    intro valueType member before
    have data := (Registry.nodup_others distinct).1 valueType member
    unfold adopt
    rw [keeps'.stored, Registry.get?_of_mem distinct (List.mem_cons_of_mem _ member)]
    exact if_neg (mt TypeTag.isControlFlow_iff.mp data)
  have general : ∀ added : List ValueType, (∀ valueType ∈ added, valueType ∈ other.others) →
      ∀ {ledger registry}, Keeps ledger registry →
        ((added.map ValueType.tag).foldl ledger'.adopt ledger).Keeps
          (added.foldl Registry.register registry) := by
    intro added
    induction added with
    | nil => exact fun _ _ _ keeps => keeps
    | cons first rest ih =>
      intro inside ledger registry keeps
      rw [List.map_cons, List.foldl_cons, List.foldl_cons, adopts first (inside first (.head _))]
      exact ih (fun valueType member => inside valueType (.tail _ member)) (keeps.register first)
  have start : ledger'.adopt ledger .controlFlow = ledger := by
    unfold adopt
    rw [keeps'.stored, Registry.get?_controlFlow]
    rfl
  unfold Ledger.merge
  rw [keeps'.order, show other.order = .controlFlow :: other.others.map ValueType.tag from rfl,
    List.foldl_cons, start]
  exact general other.others (fun _ member => member) keeps

/-- **A ledger shows what the registry shows that it keeps.** -/
theorem listing_eq (keeps : ledger.Keeps registry) (distinct : registry.order.Nodup) :
    ledger.listing = registry.listing := by
  have keys : ledger.stored.keys.Perm registry.order := by
    refine (List.perm_ext_iff_of_nodup ?_ distinct).mpr fun tag => ?_
    · exact Std.HashMap.nodup_keys
    · rw [Std.HashMap.mem_keys, keeps.mem_stored]
  ext1
  · exact keeps.order
  · funext tag
    exact keeps.stored tag
  · show ledger.order.filterMap _ = registry.types
    rw [Registry.types_eq distinct, keeps.order, funext keeps.stored]
  · show ledger.stored.size = registry.types.length
    rw [← Std.HashMap.length_keys, keys.length_eq, Registry.order, List.length_map]

end Keeps

end Ledger

/-! ### Making registries -/

/-- How a registry is made. -/
inductive Recipe where
  | new
  | register (before : Recipe) (valueType : ValueType)
  | merge (before other : Recipe)

namespace Recipe

/-- The registry that is made. -/
def registry : Recipe → Registry
  | new => .new
  | register before valueType => before.registry.register valueType
  | merge before other => before.registry.merge other.registry

/-- The same in the layout with a table and a row of tags. -/
def ledger : Recipe → Ledger
  | new => .new
  | register before valueType => before.ledger.register valueType
  | merge before other => before.ledger.merge other.ledger

theorem nodup_order (recipe : Recipe) : recipe.registry.order.Nodup := by
  induction recipe with
  | new => exact List.nodup_singleton _
  | register before valueType ih => exact Registry.nodup_order_register ih valueType
  | merge before other ih ih' => exact Registry.nodup_order_merge ih ih'

theorem keeps (recipe : Recipe) : recipe.ledger.Keeps recipe.registry := by
  induction recipe with
  | new => exact .new
  | register before valueType ih => exact ih.register valueType
  | merge before other ih ih' => exact ih.merge ih' other.nodup_order

/-- **Registries are coherent however they were made**, in both layouts, and merging them is a union
in which the merged types win: it is associative and idempotent, with the new registry as unit. -/
theorem registry_laws (a b c : Recipe) :
    (a.registry.listing.Coherent ∧ a.ledger.listing = a.registry.listing) ∧
    (∀ tag, tag ≠ .controlFlow → (a.registry.merge b.registry).get? tag =
      if b.registry.contains tag then b.registry.get? tag else a.registry.get? tag) ∧
    (a.registry.merge b.registry).order =
      a.registry.order ++ b.registry.order.filter (· ∉ a.registry.order) ∧
    (a.registry.merge b.registry).merge c.registry =
      a.registry.merge (b.registry.merge c.registry) ∧
    Registry.new.merge a.registry = a.registry ∧ a.registry.merge .new = a.registry ∧
    a.registry.merge a.registry = a.registry := by
  refine ⟨⟨Registry.coherent_listing a.nodup_order, a.keeps.listing_eq a.nodup_order⟩,
    fun tag _ => ?_, Registry.order_merge b.nodup_order,
    Registry.merge_assoc a.nodup_order b.nodup_order c.nodup_order,
    Registry.new_merge a.nodup_order, Registry.merge_new _, Registry.merge_self a.nodup_order⟩
  rw [Registry.get?_merge b.nodup_order, Registry.contains]
  cases b.registry.get? tag <;> rfl

end Recipe

end FlowGraph
