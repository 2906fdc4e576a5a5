import EventRecorder.Action
import EventRecorder.Loader
import EventRecorder.Platform.Simulated
import EventRecorder.Platform.TimeOnly
import EventRecorder.Proofs.Arena.Geometry
import EventRecorder.Proofs.Arena.Openings
import EventRecorder.Proofs.Arena.Order
import EventRecorder.Proofs.Arena.Twins
import EventRecorder.Proofs.Arena.Words
import EventRecorder.Proofs.Bits
import EventRecorder.Proofs.Block.Clock
import EventRecorder.Proofs.Block.Header
import EventRecorder.Proofs.Block.Task
import EventRecorder.Proofs.Bytes
import EventRecorder.Proofs.Checked.Arena
import EventRecorder.Proofs.Checked.Claims
import EventRecorder.Proofs.Checked.Inserts
import EventRecorder.Proofs.Checked.Log
import EventRecorder.Proofs.Checked.Runs
import EventRecorder.Proofs.Checked.Sessions
import EventRecorder.Proofs.Formats
import EventRecorder.Proofs.Hooks.Events
import EventRecorder.Proofs.Hooks.Folding
import EventRecorder.Proofs.Hooks.Marking
import EventRecorder.Proofs.Hooks.Refolding
import EventRecorder.Proofs.Hooks.Unfolding
import EventRecorder.Proofs.Ledger.Actions
import EventRecorder.Proofs.Ledger.Basic
import EventRecorder.Proofs.Ledger.Contents
import EventRecorder.Proofs.Ledger.Effects
import EventRecorder.Proofs.Ledger.Frames
import EventRecorder.Proofs.Ledger.Headers
import EventRecorder.Proofs.Ledger.History
import EventRecorder.Proofs.Ledger.Induction
import EventRecorder.Proofs.Ledger.Inscriptions
import EventRecorder.Proofs.Ledger.Marks
import EventRecorder.Proofs.Ledger.Observers
import EventRecorder.Proofs.Ledger.Overlaps
import EventRecorder.Proofs.Ledger.Placement
import EventRecorder.Proofs.Ledger.Provenance
import EventRecorder.Proofs.Ledger.Records
import EventRecorder.Proofs.Ledger.Refusals
import EventRecorder.Proofs.Ledger.Settled
import EventRecorder.Proofs.Ledger.Sharing
import EventRecorder.Proofs.Ledger.Stacks
import EventRecorder.Proofs.Ledger.Stamps
import EventRecorder.Proofs.Ledger.Step
import EventRecorder.Proofs.Ledger.Tails
import EventRecorder.Proofs.Ledger.Tiling
import EventRecorder.Proofs.Ledger.Wraparound
import EventRecorder.Proofs.Loader.Depot
import EventRecorder.Proofs.Loader.Lifecycle
import EventRecorder.Proofs.Log.Readers
import EventRecorder.Proofs.PacketFilter
import EventRecorder.Proofs.PidSet
import EventRecorder.Proofs.Rates.Cells
import EventRecorder.Proofs.Rates.Lanes
import EventRecorder.Proofs.Rates.Ratings
import EventRecorder.Proofs.Rates.Readings
import EventRecorder.Proofs.Rates.Scale
import EventRecorder.Proofs.Record.Head
import EventRecorder.Proofs.Record.Merge
import EventRecorder.Proofs.Record.Pairing
import EventRecorder.Proofs.Record.Split
import EventRecorder.Proofs.Sessions.Agreement
import EventRecorder.Proofs.Sessions.Alike
import EventRecorder.Proofs.Sessions.Failures
import EventRecorder.Proofs.Sessions.Flushes
import EventRecorder.Proofs.Sessions.Journal
import EventRecorder.Proofs.Sessions.Names
import EventRecorder.Proofs.Sessions.Restart
import EventRecorder.Proofs.Verdicts
