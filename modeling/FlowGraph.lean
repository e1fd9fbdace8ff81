import FlowGraph.Blueprint
import FlowGraph.Catalog
import FlowGraph.Form.Event
import FlowGraph.Form.Settings
import FlowGraph.Function.Connect
import FlowGraph.History
import FlowGraph.Run.Evaluate
import FlowGraph.Validation
import FlowGraph.Proofs.Feeds
import FlowGraph.Proofs.Moments
import FlowGraph.Proofs.Story
import FlowGraph.Proofs.Alike
import FlowGraph.Proofs.Nesting
import FlowGraph.Proofs.Indices
import FlowGraph.Proofs.Positions
import FlowGraph.Proofs.Composite
import FlowGraph.Proofs.CleanReport
import FlowGraph.Proofs.Availability
import FlowGraph.Proofs.Dataflow
import FlowGraph.Proofs.Progress
import FlowGraph.Proofs.TypePreservation
import FlowGraph.Proofs.Trace
import FlowGraph.Proofs.Failure
import FlowGraph.Proofs.Renaming
import FlowGraph.Proofs.Payloads
import FlowGraph.Proofs.RoundTrip
import FlowGraph.Proofs.Persistence
import FlowGraph.Proofs.Editing
import FlowGraph.Proofs.Decimals
import FlowGraph.Proofs.Replacement
import FlowGraph.Proofs.Zipper
import FlowGraph.Proofs.Shortest
import FlowGraph.Proofs.NumberText
import FlowGraph.Proofs.JsonText
import FlowGraph.Proofs.RecordText
import FlowGraph.Proofs.Snapshots
import FlowGraph.Proofs.Correspondence
import FlowGraph.Proofs.Relevance
import FlowGraph.Proofs.Removal
import FlowGraph.Proofs.Wrapping
import FlowGraph.Proofs.Normalisation
import FlowGraph.Proofs.Timetable
import FlowGraph.Proofs.Gating
import FlowGraph.Proofs.Passes
import FlowGraph.Proofs.Schedule
import FlowGraph.Proofs.Inert
import FlowGraph.Proofs.Connecting
import FlowGraph.Proofs.ReportEntries
import FlowGraph.Proofs.Building
import FlowGraph.Proofs.Placement
import FlowGraph.Proofs.CleanRecords
import FlowGraph.Proofs.Lookup
import FlowGraph.Proofs.Registration
import FlowGraph.Proofs.Pools
