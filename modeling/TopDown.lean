import TopDown.Event
import TopDown.Grammar.Reader
import TopDown.Interchange
import TopDown.NameTable
import TopDown.SymbolSet
import TopDown.Proofs.Derivation
import TopDown.Proofs.FirstSets
import TopDown.Proofs.FollowSets
import TopDown.Proofs.Settling
import TopDown.Proofs.LeastSets
import TopDown.Proofs.PassCounts
import TopDown.Proofs.Filling
import TopDown.Proofs.Reachability
import TopDown.Proofs.Classification
import TopDown.Proofs.Machine
import TopDown.Proofs.Replay
import TopDown.Proofs.Soundness
import TopDown.Proofs.Prediction
import TopDown.Proofs.Completeness
import TopDown.Proofs.Termination
import TopDown.Proofs.Adjacency
import TopDown.Proofs.Conflicts
import TopDown.Proofs.Overlap
import TopDown.Proofs.Leftmost
import TopDown.Proofs.Ll1
import TopDown.Proofs.Detection
import TopDown.Proofs.ErrorReports
import TopDown.Proofs.StepLimit
import TopDown.Proofs.OneAhead
import TopDown.Proofs.Building
import TopDown.Proofs.Layout
import TopDown.Proofs.Lines
import TopDown.Proofs.RoundTrip
import TopDown.Proofs.Renaming
import TopDown.Proofs.RenamedSets
import TopDown.Proofs.RenamedTables
import TopDown.Proofs.OrderIndependence
import TopDown.Proofs.Rerooting
import TopDown.Proofs.Spans
import TopDown.Proofs.InRange
import TopDown.Proofs.WellBuilt
