import Retrace.CallTree.Tracker
import Retrace.CallTree.Render
import Retrace.CallTree.Document
import Retrace.Main
import Retrace.Proofs.History.Basic
import Retrace.Proofs.History.UndoLog
import Retrace.Proofs.CallTree.Arena
import Retrace.Proofs.Trace.Stops
import Retrace.Proofs.Trace.Walk
import Retrace.Proofs.Trace.Ending
import Retrace.Proofs.Session.Gathered
import Retrace.Proofs.Trace.Reading
import Retrace.Proofs.Playback.Touch
import Retrace.Proofs.Session.Playing
import Retrace.Proofs.Session.Operation
import Retrace.Proofs.Session.Captures
import Retrace.Proofs.CallTree.Forest
import Retrace.Proofs.CallTree.Growth
import Retrace.Proofs.CallTree.Plan
import Retrace.Proofs.CallTree.Walk
import Retrace.Proofs.Playback.SoleLoop
import Retrace.Proofs.Session.Completion
import Retrace.Proofs.Session.CallForest
import Retrace.Proofs.Session.Effect
import Retrace.Proofs.Session.Reconstruction
import Retrace.Proofs.Playback.Interleaving
import Retrace.Proofs.Playback.Instant
import Retrace.Proofs.Playback.Order
import Retrace.Proofs.Playback.Patience
import Retrace.Proofs.Playback.Renewal
import Retrace.Proofs.Playback.Lockstep
import Retrace.Proofs.Trace.Onward
import Retrace.Proofs.Session.Configured
import Retrace.Proofs.Session.Renewal
import Retrace.Proofs.Session.Unnamed
import Retrace.Proofs.Playback.Reports
import Retrace.Proofs.Playback.Results
import Retrace.Proofs.Session.FailedStep
import Retrace.Proofs.Session.Restart
import Retrace.Proofs.Playback.Agreement
import Retrace.Proofs.Session.FailedRun
import Retrace.Proofs.Playback.Displays
import Retrace.Proofs.Session.Forward
import Retrace.Proofs.Session.Observers
import Retrace.Proofs.Session.Lock
import Retrace.Proofs.Session.Advance
import Retrace.Proofs.Session.Navigation
import Retrace.Proofs.Json.Lexing
import Retrace.Proofs.Json.Assembly
import Retrace.Proofs.Json.Decoding
import Retrace.Proofs.Trace.Completed
import Retrace.Proofs.Trace.Document
import Retrace.Proofs.CommandLine.Replay
import Retrace.Proofs.Config.RoundTrip
import Retrace.Proofs.CallTree.Enclosing
import Retrace.Proofs.CallTree.Settled
import Retrace.Proofs.CallTree.Preorder
import Retrace.Proofs.CallTree.Intervals
import Retrace.Proofs.Session.CallIntervals
import Retrace.Proofs.CallTree.CallStack
import Retrace.Proofs.Trace.LineStep
import Retrace.Proofs.Trace.LineRuns
import Retrace.Proofs.Session.LineRuns
import Retrace.Proofs.History.Checkpoints
import Retrace.Proofs.Session.LimitWarning
import Retrace.Proofs.Session.Retention
import Retrace.Proofs.Trace.LineFlag
import Retrace.Proofs.Trace.FirstError
import Retrace.Proofs.Session.ReturnValues
import Retrace.Proofs.Session.Budget
import Retrace.Proofs.CallTree.Drawing
import Retrace.Proofs.CallTree.Legibility
import Retrace.Proofs.CallTree.Document
import Retrace.Proofs.ValueText
import Retrace.Proofs.Session.Tempo
