import Precedence.Traversal.Recorder
import Precedence.Traversal.Search
import Precedence.Traversal.Operation
import Precedence.Registry.History
import Precedence.Resolution.Basic
import Precedence.Resolution.Account
import Precedence.Manifest.Declaration
import Precedence.Manifest.Names
import Precedence.Manifest.Options
import Precedence.Proofs.Traversal.Recursion
import Precedence.Proofs.Resolution.Ordering
import Precedence.Proofs.Registry.Queries
import Precedence.Proofs.Traversal.Reading
import Precedence.Proofs.Graph.Marks
import Precedence.Proofs.Traversal.Interruption
import Precedence.Proofs.Graph.Forest
import Precedence.Proofs.Traversal.Nesting
import Precedence.Proofs.Graph.WellFormed
import Precedence.Proofs.Traversal.Survey
import Precedence.Proofs.Traversal.Classification
import Precedence.Proofs.Traversal.Spanning
import Precedence.Proofs.Traversal.Extent
import Precedence.Proofs.Graph.Widening
import Precedence.Proofs.Traversal.Chronicle
import Precedence.Proofs.Traversal.Fields
import Precedence.Proofs.Traversal.Intervals
import Precedence.Proofs.Traversal.Renumbering
import Precedence.Proofs.Resolution.Interleaving
import Precedence.Proofs.Traversal.Postorder
import Precedence.Proofs.Resolution.Unwinding
import Precedence.Proofs.Resolution.StartOrder
import Precedence.Proofs.Resolution.Extension
import Precedence.Proofs.Graph.Erasure
import Precedence.Proofs.Traversal.Stranding
import Precedence.Proofs.Registry.Integrity
import Precedence.Proofs.Resolution.Bounds
import Precedence.Proofs.Resolution.Redundancy
import Precedence.Proofs.Resolution.Sorted
import Precedence.Proofs.Traversal.Residue
import Precedence.Proofs.Traversal.Rounds
import Precedence.Proofs.Resolution.Siblings
import Precedence.Proofs.Resolution.Ties
import Precedence.Proofs.Resolution.Verdict
import Precedence.Proofs.Traversal.Dangling
import Precedence.Proofs.Registry.Replay
import Precedence.Proofs.Manifest.RoundTrip
import Precedence.Proofs.Manifest.Keys
