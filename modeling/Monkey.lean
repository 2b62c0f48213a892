import Monkey.Main
import Monkey.Proofs.Confinement
import Monkey.Proofs.RoundTrip
import Monkey.Proofs.Signals
import Monkey.Proofs.Truncation
import Monkey.Proofs.Matching
import Monkey.Proofs.Partition
import Monkey.Proofs.Writing
import Monkey.Proofs.Verdict
import Monkey.Proofs.Completions
import Monkey.Proofs.Simulation
import Monkey.Proofs.Meaning
import Monkey.Proofs.Viability
import Monkey.Proofs.Lines
import Monkey.Proofs.Conversation
import Monkey.Proofs.Faults
import Monkey.Proofs.Clearing
import Monkey.Proofs.Objects
import Monkey.Proofs.Unused
import Monkey.Proofs.Identity
import Monkey.Proofs.Repetition
import Monkey.Proofs.Scoping
import Monkey.Proofs.Recovery
import Monkey.Proofs.Checked
import Monkey.Proofs.Effort
import Monkey.Proofs.Depth
import Monkey.Proofs.Evaluation
import Monkey.Proofs.Layers
import Monkey.Proofs.Hashes
import Monkey.Proofs.Arithmetic
import Monkey.Proofs.Readback
import Monkey.Proofs.Nesting
import Monkey.Proofs.Mapping
