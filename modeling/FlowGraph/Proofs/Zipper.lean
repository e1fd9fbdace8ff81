/-
**A history is a bounded zipper.**

A history keeps texts in one row and the place of the current one as a number. Seen from the current
snapshot it is a zipper of records: those of the past, the present one, and those of the future.
Every move of a history is the move of this zipper that one expects, and gives the same answer, in
whatever way decimals are read when a snapshot is restored.

* `Zipper`, `Zipper.act`: the zipper and its moves;
* `History.Shows`: a history stores a zipper;
* `History.Shows.act`: **one move**;
* `History.run_zipper`: **every row of moves** on a new history.
-/

import FlowGraph.History
import Mathlib.Data.List.DropRight

namespace FlowGraph

/-! ### Moves and their answers -/

/-- What one does with a history. -/
inductive Move where
  | push (codec : Codec) (f : Function)
  | undo (codec : Codec)
  | redo (codec : Codec)
  | current (codec : Codec)
  | clear

/-- What one gets back. -/
inductive Answer where
  | done
  | refused (error : CodecError)
  /-- There is no snapshot to go to. -/
  | nothing
  /-- The function of a snapshot, if the snapshot can still be read. -/
  | restored (function? : Option (Fresh Function))
  /-- The place of the snapshot is outside the history. -/
  | outOfRange

/-- The answers to a row of moves, and what they leave. -/
def runMoves {State : Type} (act : State → Move → Answer × State) :
    State → List Move → List Answer × State
  | state, [] => ([], state)
  | state, move :: moves =>
    let first := act state move
    let later := runMoves act first.2 moves
    (first.1 :: later.1, later.2)

/-- Two systems that answer every move alike, answer every row of moves alike. -/
theorem runMoves_alike {State Other : Type} {act : State → Move → Answer × State}
    {actOther : Other → Move → Answer × Other} (Related : State → Other → Prop)
    (step : ∀ state other move, Related state other →
      (act state move).1 = (actOther other move).1 ∧
        Related (act state move).2 (actOther other move).2)
    {state : State} {other : Other} (related : Related state other) (moves : List Move) :
    (runMoves act state moves).1 = (runMoves actOther other moves).1 ∧
      Related (runMoves act state moves).2 (runMoves actOther other moves).2 := by
  induction moves generalizing state other with
  | nil => exact ⟨rfl, related⟩
  | cons move moves ih =>
    obtain ⟨same, next⟩ := step state other move related
    obtain ⟨answers, last⟩ := ih next
    exact ⟨congrArg₂ List.cons same answers, last⟩

namespace History

variable [Json.DecimalReading]

/-- The function of the current snapshot. -/
def read (h : History) (codec : Codec) : Answer :=
  match h.snapshot? with
  | some snapshot => .restored (restore? codec snapshot)
  | none => .outOfRange

/-- Goes to another snapshot and reads it. -/
def visit (h : History) (codec : Codec) : Option History → Answer × History
  | some moved => (moved.read codec, moved)
  | none => (.nothing, h)

/-- A move of a history. -/
def act (h : History) : Move → Answer × History
  | .push codec f =>
    match h.push codec f with
    | .ok pushed => (.done, pushed)
    | .error error => (.refused error, h)
  | .undo codec => h.visit codec h.undo?
  | .redo codec => h.visit codec h.redo?
  | .current codec => h.visit codec (if h.snapshots.isEmpty then none else some h)
  | .clear => (.done, h.clear)

end History

/-! ### Zippers -/

/-- Records around a present one, if there are any; oldest first. -/
inductive Zipper where
  | blank
  | focus (past : List Record) (present : Record) (future : List Record)

namespace Zipper

/-- The records before the present one. -/
def past : Zipper → List Record
  | blank => []
  | focus past _ _ => past

/-- The present record, if there is one. -/
def present? : Zipper → Option Record
  | blank => none
  | focus _ present _ => some present

/-- The records after the present one. -/
def future : Zipper → List Record
  | blank => []
  | focus _ _ future => future

/-- All records. -/
def records (z : Zipper) : List Record :=
  z.past ++ z.present?.toList ++ z.future

section Parts

variable (before : List Record) (r : Record) (after : List Record)

@[simp] theorem past_focus : (focus before r after).past = before := rfl

@[simp] theorem future_focus : (focus before r after).future = after := rfl

@[simp] theorem present?_focus : (focus before r after).present? = some r := rfl

@[simp] theorem records_focus : (focus before r after).records = before ++ [r] ++ after := rfl

end Parts

/-- A new present record. The last one joins the past, of which only the newest records are kept,
and the future is gone. -/
def push (capacity : Nat) (z : Zipper) (r : Record) : Zipper :=
  focus ((z.past ++ z.present?.toList).rtake (capacity - 1)) r []

/-- One record back. -/
def undo? : Zipper → Option Zipper
  | blank => none
  | focus past present future =>
    past.getLast?.map fun last => focus past.dropLast last (present :: future)

/-- One record forward. -/
def redo? : Zipper → Option Zipper
  | blank => none
  | focus past present future =>
    future.head?.map fun next => focus (past ++ [present]) next future.tail

theorem undo?_eq_none_iff (z : Zipper) : z.undo? = none ↔ z.past = [] := by
  cases z with
  | blank => exact ⟨fun _ => rfl, fun _ => rfl⟩
  | focus past present future => simp [undo?]

theorem redo?_eq_none_iff (z : Zipper) : z.redo? = none ↔ z.future = [] := by
  cases z with
  | blank => exact ⟨fun _ => rfl, fun _ => rfl⟩
  | focus past present future => simp [redo?]

variable [Json.DecimalReading]

/-- Restores the present record: it is read from its text, and what is read is decoded. -/
def read (codec : Codec) : Zipper → Answer
  | blank => .nothing
  | focus _ present _ =>
    match Record.parse? present.text with
    | some r => .restored (some do return (← codec.decode r).function)
    | none => .restored none

/-- The present record is restored as the snapshot of it is. -/
theorem read_focus (codec : Codec) (past : List Record) (present : Record)
    (future : List Record) :
    (focus past present future).read codec = .restored (History.restore? codec present.text) := by
  unfold read History.restore?
  dsimp only
  cases Record.parse? present.text <;> rfl

/-- Goes to another record and restores it. -/
def visit (z : Zipper) (codec : Codec) : Option Zipper → Answer × Zipper
  | some moved => (moved.read codec, moved)
  | none => (.nothing, z)

/-- A move of a zipper. -/
def act (capacity : Nat) (z : Zipper) : Move → Answer × Zipper
  | .push codec f =>
    match codec.encode f .withSignature with
    | .ok r => (.done, z.push capacity r)
    | .error error => (.refused error, z)
  | .undo codec => z.visit codec z.undo?
  | .redo codec => z.visit codec z.redo?
  | .current codec => (z.read codec, z)
  | .clear => (.done, blank)

end Zipper

/-! ### Histories that store zippers -/

namespace History

/-- A history stores the texts of the records of a zipper, and the place of the present one. -/
structure Shows (capacity : Nat) (h : History) (z : Zipper) : Prop where
  snapshots : h.snapshots = z.records.map Record.text
  current : h.current = z.past.length
  keeps : h.capacity = capacity
  bounded : z.records.length ≤ capacity
  roomy : 1 ≤ capacity

variable {capacity : Nat} {h : History} {z : Zipper}

theorem shows_ofSettings (settings : HistorySettings) :
    Shows (max 1 settings.maxSnapshots) (ofSettings settings) .blank where
  snapshots := rfl
  current := rfl
  keeps := rfl
  bounded := Nat.zero_le _
  roomy := Nat.le_max_left ..

namespace Shows

theorem length_eq (shown : Shows capacity h z) : h.snapshots.length = z.records.length := by
  rw [shown.snapshots, List.length_map]

theorem canUndo_iff (shown : Shows capacity h z) : h.canUndo = true ↔ z.past ≠ [] := by
  unfold canUndo
  rw [shown.current, decide_eq_true_iff, List.length_pos_iff]

theorem canRedo_iff (shown : Shows capacity h z) : h.canRedo = true ↔ z.future ≠ [] := by
  unfold canRedo
  rw [shown.current, shown.length_eq, decide_eq_true_iff, ← List.length_pos_iff]
  cases z with
  | blank => simp [Zipper.records, Zipper.past, Zipper.present?, Zipper.future]
  | focus past present future =>
    simp only [Zipper.records_focus, Zipper.past_focus, Zipper.future_focus, List.length_append,
      List.length_singleton]
    omega

theorem undo?_eq_none_iff (shown : Shows capacity h z) : h.undo? = none ↔ z.past = [] := by
  rw [← not_iff_not, ← ne_eq z.past, ← shown.canUndo_iff]
  simp [History.undo?]

theorem redo?_eq_none_iff (shown : Shows capacity h z) : h.redo? = none ↔ z.future = [] := by
  rw [← not_iff_not, ← ne_eq z.future, ← shown.canRedo_iff]
  simp [History.redo?]

/-- The current snapshot is the text of the present record. -/
theorem snapshot?_eq (shown : Shows capacity h z) : h.snapshot? = z.present?.map Record.text := by
  unfold snapshot?
  rw [shown.snapshots, shown.current, List.getElem?_map]
  cases z with
  | blank => rfl
  | focus past present future => simp

/-- The place of the current snapshot is in range. -/
theorem current_lt (shown : Shows capacity h z) (stored : h.snapshots ≠ []) :
    h.current < h.snapshots.length := by
  have found := shown.snapshot?_eq
  rw [shown.snapshots] at stored
  cases z with
  | blank => exact absurd rfl stored
  | focus past present future => exact (List.getElem?_eq_some_iff.mp found).1

/-- **A push**: the new snapshot is never the one that goes, since there is room for one. -/
theorem push (shown : Shows capacity h z) (r : Record) :
    Shows capacity (trim (h.snapshots.take (h.current + 1) ++ [r.text]) h.capacity)
      (z.push capacity r) := by
  have roomy := shown.roomy
  have kept : h.snapshots.take (h.current + 1) =
      (z.past ++ z.present?.toList).map Record.text := by
    rw [shown.snapshots, shown.current]
    cases z with
    | blank => rfl
    | focus past present future =>
      rw [← List.map_take]
      exact congrArg (List.map Record.text) (List.take_left' List.length_append)
  have newest : ∀ before : List Record,
      trim (before.map Record.text ++ [r.text]) capacity =
        ⟨((before.rtake (capacity - 1)) ++ [r]).map Record.text,
          (before.rtake (capacity - 1)).length, capacity⟩ := by
    intro before
    have dropped : before.length + 1 - capacity = before.length - (capacity - 1) := by omega
    have inside : before.length - (capacity - 1) ≤ (before.map Record.text).length := by
      rw [List.length_map]
      exact Nat.sub_le ..
    simp only [trim, List.length_append, List.length_map, List.length_singleton, dropped]
    rw [List.drop_append_of_le_length inside, ← List.map_drop, List.map_append]
    simp [List.rtake]
  rw [kept, shown.keeps, newest]
  refine ⟨?_, rfl, rfl, ?_, roomy⟩
  · simp [Zipper.push]
  · simp only [Zipper.push, Zipper.records_focus, List.append_nil, List.length_append,
      List.length_singleton, List.rtake, List.length_drop]
    omega

variable [Json.DecimalReading]

/-- What is read is the present record. -/
theorem read_focus {past : List Record} {present : Record} {future : List Record}
    (shown : Shows capacity h (.focus past present future)) (codec : Codec) :
    h.read codec = (Zipper.focus past present future).read codec := by
  unfold History.read
  rw [shown.snapshot?_eq, Zipper.present?_focus, Option.map_some, Zipper.read_focus]

/-- Another one of the records becomes the present one. -/
theorem refocus (shown : Shows capacity h z) {past : List Record} {present : Record}
    {future : List Record} (same : (Zipper.focus past present future).records = z.records)
    {place : Nat} (there : place = past.length) (codec : Codec) :
    let moved := { h with current := place }
    moved.read codec = (Zipper.focus past present future).read codec ∧
      Shows capacity moved (.focus past present future) := by
  intro moved
  have next : Shows capacity moved (.focus past present future) :=
    ⟨same ▸ shown.snapshots, there, shown.keeps, same ▸ shown.bounded, shown.roomy⟩
  exact ⟨next.read_focus codec, next⟩

theorem undo (shown : Shows capacity h z) (codec : Codec) :
    (h.visit codec h.undo?).1 = (z.visit codec z.undo?).1 ∧
      Shows capacity (h.visit codec h.undo?).2 (z.visit codec z.undo?).2 := by
  unfold undo?
  split
  · next older =>
    cases z with
    | blank => exact absurd rfl (shown.canUndo_iff.mp older)
    | focus past present future =>
      obtain ⟨before, last, rfl⟩ :=
        (List.eq_nil_or_concat' past).resolve_left (shown.canUndo_iff.mp older)
      have moved : (Zipper.focus (before ++ [last]) present future).undo? =
          some (.focus before last (present :: future)) := by
        simp [Zipper.undo?]
      rw [moved]
      exact shown.refocus (by simp) (by simp [shown.current]) codec
  · next oldest =>
    have stays : z.undo? = none :=
      z.undo?_eq_none_iff.mpr (not_not.mp fun past => oldest (shown.canUndo_iff.mpr past))
    rw [stays]
    exact ⟨rfl, shown⟩

theorem redo (shown : Shows capacity h z) (codec : Codec) :
    (h.visit codec h.redo?).1 = (z.visit codec z.redo?).1 ∧
      Shows capacity (h.visit codec h.redo?).2 (z.visit codec z.redo?).2 := by
  unfold redo?
  split
  · next newer =>
    cases z with
    | blank => exact absurd rfl (shown.canRedo_iff.mp newer)
    | focus past present future =>
      obtain ⟨next, later, rfl⟩ := List.exists_cons_of_ne_nil (shown.canRedo_iff.mp newer)
      exact shown.refocus (by simp) (by simp [shown.current]) codec
  · next newest =>
    have stays : z.redo? = none :=
      z.redo?_eq_none_iff.mpr (not_not.mp fun future => newest (shown.canRedo_iff.mpr future))
    rw [stays]
    exact ⟨rfl, shown⟩

theorem read (shown : Shows capacity h z) (codec : Codec) :
    h.visit codec (if h.snapshots.isEmpty then none else some h) = (z.read codec, h) := by
  rw [shown.snapshots]
  cases z with
  | blank => rfl
  | focus past present future =>
    have stored : ((Zipper.focus past present future).records.map Record.text).isEmpty ≠ true := by
      simp
    rw [if_neg stored, visit, shown.read_focus codec]

/-- **One move** of a history is a move of its zipper. -/
theorem act (shown : Shows capacity h z) (move : Move) :
    (h.act move).1 = (z.act capacity move).1 ∧
      Shows capacity (h.act move).2 (z.act capacity move).2 := by
  cases move with
  | push codec f =>
    unfold History.act Zipper.act History.push
    dsimp only
    cases codec.encode f .withSignature with
    | error error => exact ⟨rfl, shown⟩
    | ok r => exact ⟨rfl, shown.push r⟩
  | undo codec => exact shown.undo codec
  | redo codec => exact shown.redo codec
  | current codec =>
    have same : h.act (.current codec) = (z.read codec, h) := shown.read codec
    rw [same]
    exact ⟨rfl, shown⟩
  | clear => exact ⟨rfl, rfl, rfl, shown.keeps, Nat.zero_le _, shown.roomy⟩

end Shows

variable [Json.DecimalReading]

/-- **A history is a bounded zipper.** From a new history on, every row of moves is answered as the
zipper answers it, and leaves a history that stores the zipper: its length is within bounds, the
place of the current snapshot is in range, and one can go back or forward exactly when there is a
past or a future. -/
theorem run_zipper (settings : HistorySettings) (moves : List Move) :
    let capacity := max 1 settings.maxSnapshots
    let (answers, h) := runMoves act (ofSettings settings) moves
    let (expected, z) := runMoves (Zipper.act capacity) .blank moves
    answers = expected ∧ Shows capacity h z ∧
      h.snapshots.length = (z.past ++ z.present?.toList ++ z.future).length ∧
      h.snapshots.length ≤ capacity ∧ (h.snapshots ≠ [] → h.current < h.snapshots.length) ∧
      (h.canUndo = true ↔ z.past ≠ []) ∧ (h.undo? = none ↔ z.past = []) ∧
      (h.canRedo = true ↔ z.future ≠ []) ∧ (h.redo? = none ↔ z.future = []) := by
  obtain ⟨same, shown⟩ := runMoves_alike (Shows (max 1 settings.maxSnapshots))
    (fun h z move shown => shown.act move) (shows_ofSettings settings) moves
  exact ⟨same, shown, shown.length_eq, shown.length_eq ▸ shown.bounded, shown.current_lt,
    shown.canUndo_iff, shown.undo?_eq_none_iff, shown.canRedo_iff, shown.redo?_eq_none_iff⟩

end History

end FlowGraph
