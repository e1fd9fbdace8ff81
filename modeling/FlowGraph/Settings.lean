/-
**Layout and history settings.**

Where the nodes of a new composite stand, how wide functions are drawn, and how many snapshots a
history keeps.
-/

namespace FlowGraph

/-- A point of the editor's canvas. -/
structure Position where
  x : Float
  y : Float
deriving DecidableEq

namespace Position

/-- Moves a coordinate into the range from zero to `high`; `NaN` stays. -/
def clampCoordinate (high x : Float) : Float :=
  if x < 0.0 then 0.0 else if high < x then high else x

/-- Moves both coordinates into the range from zero to `high`. -/
def clamp (high : Float) (p : Position) : Position :=
  ⟨clampCoordinate high p.x, clampCoordinate high p.y⟩

end Position

/-- The layout of a new composite. -/
structure Layout where
  nodeWidth : Float := 150.0
  sideLength : Float := 2000.0
  inputPosition : Position := ⟨700.0, 1050.0⟩
  outputPosition : Position := ⟨1300.0, 950.0⟩
deriving DecidableEq

namespace Layout

/-- The default layout. -/
def standard : Layout := {}

/-- Where a node stands when nobody says otherwise: the middle of the canvas. -/
def nodePosition : Position :=
  ⟨1000.0, 1000.0⟩

end Layout

/-- The settings of a history. -/
structure HistorySettings where
  maxSnapshots : Nat := 100
  /-- How hard a host that compresses stored snapshots should try. -/
  compressionLevel : Int := 3
deriving DecidableEq

/-- The default settings of a history. -/
def HistorySettings.standard : HistorySettings := {}

end FlowGraph
