import LockOrder.Main
import LockOrder.Recorder.Finish
import LockOrder.Proofs.Digraph.Reach
import LockOrder.Proofs.Digraph.Walk
import LockOrder.Proofs.Digraph.Components
import LockOrder.Proofs.Digraph.Cycles
import LockOrder.Proofs.Dictionary
import LockOrder.Proofs.StringTable
import LockOrder.Proofs.Recorder.Evidence
import LockOrder.Proofs.Recorder.Ledger
import LockOrder.Proofs.Recorder.Classes
import LockOrder.Proofs.Recorder.Replay
import LockOrder.Proofs.Recorder.Finish
import LockOrder.Proofs.Recorder.Deadlock
import LockOrder.Proofs.Json.Reader
import LockOrder.Proofs.Text.Decimal
import LockOrder.Proofs.Json.Number
import LockOrder.Proofs.Stack.Json
import LockOrder.Proofs.Graph.Json
import LockOrder.Proofs.Graph.Basic
import LockOrder.Proofs.Base64
import LockOrder.Proofs.Dump
import LockOrder.Proofs.Graph.Sound
import LockOrder.Proofs.Report.Script
import LockOrder.Proofs.Report.Tour
import LockOrder.Proofs.Report.Text
import LockOrder.Proofs.Digraph.Order
import LockOrder.Proofs.Graph.Restrict
import LockOrder.Proofs.Graph.CycleGraph
import LockOrder.Proofs.Digraph.Exclusion
import LockOrder.Proofs.Report.FirstSeen
import LockOrder.Proofs.Report.CallGraph
import LockOrder.Proofs.CommandLine
import LockOrder.Proofs.Recorder.Interleaving
import LockOrder.Proofs.Recorder.Canonical
import LockOrder.Proofs.Stack.Growth
import LockOrder.Proofs.Report.Growth
import LockOrder.Proofs.Recorder.Sound
import LockOrder.Proofs.Report.Projection
import LockOrder.Proofs.Json.Syntax
import LockOrder.Proofs.Json.Form
import LockOrder.Proofs.Json.Record
import LockOrder.Proofs.Graph.Decoding
import LockOrder.Proofs.Digraph.ClosedWalk
import LockOrder.Proofs.Report.Drawing
import LockOrder.Proofs.Graph.Edit
import LockOrder.Proofs.EdgeId
import LockOrder.Proofs.Digraph.Avoiding
import LockOrder.Proofs.CommandLine.Exclusion
import LockOrder.Proofs.Report.Calls
import LockOrder.Proofs.Report.Acquisitions
import LockOrder.Proofs.Report.Quotient
import LockOrder.Proofs.Graph.Projection
import LockOrder.Proofs.Graph.Check
import LockOrder.Proofs.Recorder.Tally
import LockOrder.Proofs.Recorder.Held
import LockOrder.Proofs.Recorder.MayAcquire
import LockOrder.Proofs.Report.Start
import LockOrder.Proofs.Json.Datum
import LockOrder.Proofs.Stack.Decoding
import LockOrder.Proofs.Stack.Rendering
import LockOrder.Proofs.Recorder.Warnings
import LockOrder.Proofs.Recorder.Coherent
import LockOrder.Proofs.Recorder.Checked
