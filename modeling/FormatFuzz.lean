import FormatFuzz.Fuzz.Config
import FormatFuzz.Proofs.Invalidation
import FormatFuzz.Proofs.Reading
import FormatFuzz.Proofs.Reachable
import FormatFuzz.Tree.Describe
import FormatFuzz.Proofs.Freshness
import FormatFuzz.Proofs.Moorings
import FormatFuzz.Proofs.Restoration
import FormatFuzz.Proofs.Tracking
import FormatFuzz.Proofs.Coverage
import FormatFuzz.Proofs.Annotations
import FormatFuzz.Proofs.Nesting
import FormatFuzz.Proofs.Lengths
import FormatFuzz.Proofs.Inverses
import FormatFuzz.Proofs.TwosComplement
import FormatFuzz.Proofs.Chronicles
import FormatFuzz.Proofs.Portraits
import FormatFuzz.Proofs.Assembly
import FormatFuzz.Proofs.Addresses
import FormatFuzz.Proofs.Offsets
import FormatFuzz.Proofs.Failures
import FormatFuzz.Proofs.Histories
import FormatFuzz.Proofs.Indexing
import FormatFuzz.Proofs.Aftermath
import FormatFuzz.Proofs.Correspondence
import FormatFuzz.Proofs.Sweeps
import FormatFuzz.Proofs.Candidates
import FormatFuzz.Proofs.Survivals
import FormatFuzz.Proofs.Overrides
import FormatFuzz.Proofs.Reports
import FormatFuzz.Proofs.Defaults
import FormatFuzz.Proofs.Repeats
import FormatFuzz.Proofs.Exhaustion
import FormatFuzz.Proofs.Brackets
import FormatFuzz.Proofs.Descent
