/-
**Undo history.**

A history keeps the texts of the records of past states, one of which is the current one. A new
snapshot drops those that were undone and, when there are too many, the oldest. Restoring a snapshot
reads its record again and decodes it.
-/

import FlowGraph.Form.Record
import FlowGraph.Record.Decode

namespace FlowGraph

/-- Snapshots, oldest first, and the place of the current one. -/
structure History where
  snapshots : List String
  current : Nat
  /-- The largest number of snapshots to keep. -/
  capacity : Nat
deriving DecidableEq

namespace History

/-- An empty history; it keeps one snapshot at least. -/
def ofSettings (settings : HistorySettings) : History :=
  ⟨[], 0, max 1 settings.maxSnapshots⟩

/-- Keeps the newest snapshots only, the last of which is current. -/
def trim (snapshots : List String) (capacity : Nat) : History :=
  let kept := snapshots.drop (snapshots.length - capacity)
  ⟨kept, kept.length - 1, capacity⟩

/-- Adds the record of a function as the current snapshot. -/
def push (h : History) (codec : Codec) (f : Function) : Except CodecError History := do
  let r ← codec.encode f .withSignature
  return trim (h.snapshots.take (h.current + 1) ++ [r.text]) h.capacity

/-- Whether there is an older snapshot. -/
def canUndo (h : History) : Bool :=
  0 < h.current

/-- Whether there is a newer snapshot. -/
def canRedo (h : History) : Bool :=
  h.current + 1 < h.snapshots.length

/-- The history with the next older snapshot current. -/
def undo? (h : History) : Option History :=
  if h.canUndo then some { h with current := h.current - 1 } else none

/-- The history with the next newer snapshot current. -/
def redo? (h : History) : Option History :=
  if h.canRedo then some { h with current := h.current + 1 } else none

/-- The current snapshot. -/
def snapshot? (h : History) : Option String :=
  h.snapshots[h.current]?

/-- The function of a snapshot, if the snapshot can still be read. -/
def restore? [Json.DecimalReading] (codec : Codec) (snapshot : String) : Option (Fresh Function) :=
  (Record.parse? snapshot).map fun r => do
    let decoded ← codec.decode r
    return decoded.function

/-- The history without snapshots. -/
def clear (h : History) : History :=
  ⟨[], 0, h.capacity⟩

/-- The number of bytes kept. -/
def storedSize (h : History) : Nat :=
  h.snapshots.foldl (fun size snapshot => size + snapshot.utf8ByteSize) 0

end History

end FlowGraph
