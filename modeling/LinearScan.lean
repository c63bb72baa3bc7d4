import LinearScan.Table
import LinearScan.Fault
import LinearScan.Position
import LinearScan.Program
import LinearScan.Tree
import LinearScan.Graph.Basic
import LinearScan.Graph.Insert
import LinearScan.Notes
import LinearScan.Ir
import LinearScan.Import
import LinearScan.Record
import LinearScan.Alike
import LinearScan.Render.Names
import LinearScan.Render.Printable
import LinearScan.Render.Quoted
import LinearScan.Render.Record
import LinearScan.Render.Dump
import LinearScan.Allocator.Basic
import LinearScan.Allocator.Release
import LinearScan.Allocator.Activate
import LinearScan.Scan.Lives
import LinearScan.Scan.Step
import LinearScan.Scan.Blocks
import LinearScan.Scan.Edges
import LinearScan.Scan.Basic
import LinearScan.Assembly
import LinearScan.Render.Assembly
import LinearScan.Compile
import LinearScan.Samples
import LinearScan.Graph.Sketch
import LinearScan.Measure
import LinearScan.Demo
import LinearScan.Main
import LinearScan.Proofs.Steps
import LinearScan.Proofs.Links
import LinearScan.Proofs.Forest
import LinearScan.Proofs.Imported
import LinearScan.Proofs.Comparison
import LinearScan.Proofs.Effects
import LinearScan.Proofs.Moves
import LinearScan.Proofs.Frame
import LinearScan.Proofs.Orderly
import LinearScan.Proofs.Order
import LinearScan.Proofs.Boundaries
import LinearScan.Proofs.Survey
import LinearScan.Proofs.Run
import LinearScan.Proofs.EdgeResolution
import LinearScan.Proofs.Recorded
import LinearScan.Proofs.RegisterFile
import LinearScan.Proofs.Trace
import LinearScan.Proofs.Layout
import LinearScan.Proofs.Reading
import LinearScan.Proofs.Simulation
import LinearScan.Proofs.Splitting
import LinearScan.Proofs.Seams
import LinearScan.Proofs.Spans
import LinearScan.Proofs.Acceptance
import LinearScan.Proofs.Faults
import LinearScan.Proofs.EntrySets
import LinearScan.Proofs.StraightLine
import LinearScan.Proofs.RegisterMachine
import LinearScan.Proofs.Detours
import LinearScan.Proofs.Temporaries
import LinearScan.Proofs.Keeping
import LinearScan.Proofs.Safekeeping
import LinearScan.Proofs.Occupancy
import LinearScan.Proofs.Placement
import LinearScan.Proofs.Backing
import LinearScan.Proofs.Soundness
import LinearScan.Proofs.Assignment
import LinearScan.Proofs.Flattening
import LinearScan.Proofs.Origins
import LinearScan.Proofs.Trimming
import LinearScan.Proofs.Mirroring
import LinearScan.Proofs.MirroredScan
import LinearScan.Proofs.Stacking
import LinearScan.Proofs.Verdicts
import LinearScan.Proofs.Constants
import LinearScan.Proofs.Recompiling
import LinearScan.Proofs.Visits
import LinearScan.Proofs.Reloads
import LinearScan.Proofs.JumpFree
import LinearScan.Proofs.Victims
import LinearScan.Proofs.Crowding
import LinearScan.Proofs.Progress
import LinearScan.Proofs.Flat
import LinearScan.Proofs.ThreeAddress
import LinearScan.Proofs.Targets
import LinearScan.Proofs.Eviction
import LinearScan.Proofs.Expressions
import LinearScan.Proofs.Fitting
import LinearScan.Proofs.Evaluation
import LinearScan.Proofs.Homes
import LinearScan.Proofs.Provenance
import LinearScan.Proofs.EarlyRelease
import LinearScan.Proofs.BlockList
import LinearScan.Proofs.Releasing
import LinearScan.Proofs.NextUses
import LinearScan.Proofs.Leftovers
import LinearScan.Proofs.Identity
import LinearScan.Proofs.Labels
import LinearScan.Proofs.Drafts
import LinearScan.Proofs.LoopShape
import LinearScan.Proofs.Postorder
import LinearScan.Proofs.Traversals
