/-
**Values by slot.**

The values that a user has set by hand on the inputs of a node: at most one value for each slot,
kept in ascending order of the slots.

* `Slots.get?_insert`, `Slots.get?_erase`: what the operations do to the value of a slot.
-/

import FlowGraph.Value

namespace FlowGraph

/-- Values by slot, in strictly ascending order of the slots. -/
structure Slots where
  entries : List (Nat × Value)
  sorted : entries.Pairwise fun a b => a.1 < b.1
deriving DecidableEq

namespace Slots

/-- No values. -/
def empty : Slots :=
  ⟨[], .nil⟩

/-- The value of one slot. -/
def single (slot : Nat) (value : Value) : Slots :=
  ⟨[(slot, value)], List.pairwise_singleton ..⟩

/-- The value of a slot. -/
def get? (slots : Slots) (slot : Nat) : Option Value :=
  slots.entries.lookup slot

/-! ### Setting a value -/

/-- Puts a value among ascending entries, in place of the value of the same slot. -/
def insertEntry (slot : Nat) (value : Value) : List (Nat × Value) → List (Nat × Value)
  | [] => [(slot, value)]
  | entry :: rest =>
    if slot < entry.1 then (slot, value) :: entry :: rest
    else if slot = entry.1 then (slot, value) :: rest
    else entry :: insertEntry slot value rest

/-- The slots after an insertion are the old ones and the new one. -/
theorem slot_of_mem_insertEntry {slot : Nat} {value : Value} {entries : List (Nat × Value)}
    {entry : Nat × Value} (member : entry ∈ insertEntry slot value entries) :
    entry.1 = slot ∨ entry ∈ entries := by
  induction entries with
  | nil => simp_all [insertEntry]
  | cons first rest ih =>
    simp only [insertEntry] at member
    split at member
    · rcases List.mem_cons.mp member with rfl | older
      · exact .inl rfl
      · exact .inr older
    · split at member
      · rcases List.mem_cons.mp member with rfl | older
        · exact .inl rfl
        · exact .inr (List.mem_cons_of_mem _ older)
      · rcases List.mem_cons.mp member with rfl | later
        · exact .inr List.mem_cons_self
        · exact (ih later).imp_right (List.mem_cons_of_mem _)

/-- An insertion keeps the entries ascending. -/
theorem sorted_insertEntry {slot : Nat} {value : Value} {entries : List (Nat × Value)}
    (sorted : entries.Pairwise fun a b => a.1 < b.1) :
    (insertEntry slot value entries).Pairwise fun a b => a.1 < b.1 := by
  induction entries with
  | nil => simp [insertEntry]
  | cons first rest ih =>
    obtain ⟨below, sortedRest⟩ := List.pairwise_cons.mp sorted
    simp only [insertEntry]
    split
    · next less =>
      refine List.pairwise_cons.mpr ⟨fun entry member => ?_, sorted⟩
      rcases List.mem_cons.mp member with rfl | later
      · exact less
      · exact Nat.lt_trans less (below entry later)
    · split
      · next equal =>
        refine List.pairwise_cons.mpr ⟨fun entry member => ?_, sortedRest⟩
        simpa [equal] using below entry member
      · refine List.pairwise_cons.mpr ⟨fun entry member => ?_, ih sortedRest⟩
        rcases slot_of_mem_insertEntry member with same | older
        · omega
        · exact below entry older

/-- Sets the value of a slot. -/
def insert (slots : Slots) (slot : Nat) (value : Value) : Slots :=
  ⟨insertEntry slot value slots.entries, sorted_insertEntry slots.sorted⟩

/-- Sets the values of several slots; of several values for one slot the last stays. -/
def insertAll (slots : Slots) (entries : List (Nat × Value)) : Slots :=
  entries.foldl (fun slots entry => slots.insert entry.1 entry.2) slots

/-- The values of the given slots; of several values for one slot the last stays. -/
def ofList (entries : List (Nat × Value)) : Slots :=
  empty.insertAll entries

/-! ### Clearing a value -/

/-- Clears the value of a slot. -/
def erase (slots : Slots) (slot : Nat) : Slots :=
  ⟨slots.entries.filter fun entry => entry.1 ≠ slot, slots.sorted.filter _⟩

/-! ### Laws -/

/-- Looking a slot up in a row of entries. -/
theorem lookup_entry (wanted slot : Nat) (value : Value) (rest : List (Nat × Value)) :
    ((slot, value) :: rest).lookup wanted =
      if wanted = slot then some value else rest.lookup wanted := by
  by_cases same : wanted = slot
  · simp [same]
  · have : (wanted == slot) = false := by simpa using same
    rw [List.lookup_cons, this, if_neg same]

/-- An insertion changes the value of its own slot only. -/
theorem lookup_insertEntry (slot : Nat) (value : Value) (entries : List (Nat × Value))
    (wanted : Nat) :
    (insertEntry slot value entries).lookup wanted =
      if wanted = slot then some value else entries.lookup wanted := by
  induction entries with
  | nil => rw [insertEntry, lookup_entry]
  | cons first rest ih =>
    obtain ⟨key, old⟩ := first
    simp only [insertEntry]
    split
    · rw [lookup_entry]
    · split
      · next equal =>
        rw [lookup_entry, lookup_entry, equal]
        split <;> rfl
      · rw [lookup_entry, lookup_entry, ih]
        grind

/-- Leaving a slot out changes the value of that slot only. -/
theorem lookup_filter_slot (slot : Nat) (entries : List (Nat × Value)) (wanted : Nat) :
    (entries.filter fun entry => entry.1 ≠ slot).lookup wanted =
      if wanted = slot then none else entries.lookup wanted := by
  induction entries with
  | nil => simp
  | cons first rest ih =>
    obtain ⟨key, old⟩ := first
    by_cases gone : key = slot
    · rw [List.filter_cons_of_neg (by simpa using gone), ih, lookup_entry, gone]
      grind
    · rw [List.filter_cons_of_pos (by simpa using gone), lookup_entry, ih, lookup_entry]
      grind

@[simp] theorem get?_empty (slot : Nat) : empty.get? slot = none := rfl

/-- Setting a value changes that slot and no other. -/
@[simp] theorem get?_insert (slots : Slots) (slot : Nat) (value : Value) (wanted : Nat) :
    (slots.insert slot value).get? wanted =
      if wanted = slot then some value else slots.get? wanted :=
  lookup_insertEntry slot value slots.entries wanted

/-- Clearing a value changes that slot and no other. -/
@[simp] theorem get?_erase (slots : Slots) (slot wanted : Nat) :
    (slots.erase slot).get? wanted = if wanted = slot then none else slots.get? wanted :=
  lookup_filter_slot slot slots.entries wanted

end Slots

end FlowGraph
