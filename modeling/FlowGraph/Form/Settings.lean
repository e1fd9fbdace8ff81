/-
**JSON forms of settings.**

A missing field takes its default.
-/

import FlowGraph.Form.Basic

namespace FlowGraph

namespace Form

/-- The layout of a new composite. -/
def ofLayout (layout : Layout) : Json :=
  .obj [("nodeWidth", .ofFloat layout.nodeWidth),
    ("editorSideLength", .ofFloat layout.sideLength),
    ("inputNodePosition", ofPosition layout.inputPosition),
    ("outputNodePosition", ofPosition layout.outputPosition)]

/-- Reads a layout. -/
def readLayout [Json.DecimalReading] : Json.Reader Layout := fun room doc => do
  let found ← Json.Reader.fields
    ["nodeWidth", "editorSideLength", "inputNodePosition", "outputNodePosition"] [] room doc
  let nodeWidth ← found.withDefault "nodeWidth" Layout.standard.nodeWidth .float
  let sideLength ← found.withDefault "editorSideLength" Layout.standard.sideLength .float
  let inputPosition ←
    found.withDefault "inputNodePosition" Layout.standard.inputPosition readPosition
  let outputPosition ←
    found.withDefault "outputNodePosition" Layout.standard.outputPosition readPosition
  return ⟨nodeWidth, sideLength, inputPosition, outputPosition⟩

/-- The settings of a history. -/
def ofHistorySettings (settings : HistorySettings) : Json :=
  .obj [("maxSnapshots", .ofNat settings.maxSnapshots),
    ("compressionLevel", .int settings.compressionLevel)]

/-- Reads the settings of a history; the compression level has thirty-two bits. -/
def readHistorySettings : Json.Reader HistorySettings := fun room doc => do
  let found ← Json.Reader.fields ["maxSnapshots", "compressionLevel"] [] room doc
  let maxSnapshots ←
    found.withDefault "maxSnapshots" HistorySettings.standard.maxSnapshots .nat
  let compressionLevel ←
    found.withDefault "compressionLevel" HistorySettings.standard.compressionLevel
      (.intBetween (-2147483648) 2147483647)
  return ⟨maxSnapshots, compressionLevel⟩

end Form

end FlowGraph
