import StepSignal.Archive.Folder
import StepSignal.Calculus.Extrema
import StepSignal.Calculus.Rolling
import StepSignal.Fault.Message
import StepSignal.Hashing
import StepSignal.OuterJoin
import StepSignal.Proofs.AdjacentSquash
import StepSignal.Proofs.NestedWindows
import StepSignal.Proofs.OuterJoin
import StepSignal.Proofs.NestedSquash
import StepSignal.Proofs.Refit
import StepSignal.Proofs.Runs
import StepSignal.Proofs.SignalWindows
import StepSignal.Proofs.SplitSignals
import StepSignal.Proofs.SquashContent
import StepSignal.Proofs.Validity
import StepSignal.Proofs.EdgeRules
import StepSignal.Scalar.Exact
import StepSignal.Settings
import StepSignal.Proofs.OpeningRows
import StepSignal.Proofs.RepeatedWindow
import StepSignal.Proofs.Archive.Misreading
import StepSignal.Proofs.Archive.TextRoundTrip
import StepSignal.Proofs.Alignment.Correlation
import StepSignal.Proofs.Alignment.Delay
import StepSignal.Proofs.Alignment.Grid
import StepSignal.Proofs.Alignment.Shift
import StepSignal.Proofs.WindowInEffect
import StepSignal.Proofs.JoinedNames
import StepSignal.Proofs.Alignment.Cap
import StepSignal.Proofs.Alignment.Resolution
import StepSignal.Proofs.ClippedRange
import StepSignal.Proofs.RefitInEffect
import StepSignal.Proofs.RepeatedRefit
import StepSignal.Proofs.Lookup
import StepSignal.Proofs.AnyColumn
import StepSignal.Proofs.Occurrences
import StepSignal.Proofs.SingleColumn
import StepSignal.Proofs.Alignment.Resampling
import StepSignal.Proofs.Alignment.SelfAlignment
import StepSignal.Proofs.Calculus.AdjacentAreas
import StepSignal.Proofs.Calculus.Tunnel
import StepSignal.Proofs.Agreement
import StepSignal.Proofs.Calculus.Derivative
import StepSignal.Proofs.Calculus.Rolling
import StepSignal.Proofs.TaskSelection
import StepSignal.Proofs.Hashing
import StepSignal.Proofs.Archive.Folder
