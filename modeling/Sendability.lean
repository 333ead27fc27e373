import Sendability.IR.Builder
import Sendability.Main
import Sendability.Proofs.StateView
import Sendability.Proofs.StateChanges
import Sendability.Proofs.Joining
import Sendability.Proofs.Sameness
import Sendability.Proofs.Passage
import Sendability.Proofs.FlowGraph
import Sendability.Proofs.Worklist
import Sendability.Proofs.DataFlow
import Sendability.Proofs.Schedules
import Sendability.Proofs.Grouping
import Sendability.Proofs.PathSoundness
import Sendability.Proofs.Potential
import Sendability.Proofs.Divergence
import Sendability.Proofs.Congruence
import Sendability.Proofs.Instances
import Sendability.Proofs.Provenance
import Sendability.Proofs.Representation
import Sendability.Proofs.Safety
import Sendability.Proofs.Transparency
import Sendability.Proofs.PlainRegions
import Sendability.Proofs.Refinement
import Sendability.Proofs.Productions
import Sendability.Proofs.Elaboration
import Sendability.Proofs.Writing
import Sendability.Proofs.RoundTrip
import Sendability.Proofs.Relabelling
import Sendability.Proofs.Exposure
import Sendability.Proofs.Symmetry
import Sendability.Proofs.Decoding
import Sendability.Proofs.Verdict
import Sendability.Proofs.Coarsening
import Sendability.Proofs.Monotonicity
import Sendability.Proofs.Collation
import Sendability.Proofs.Definedness
import Sendability.Proofs.Inference
import Sendability.Proofs.Excerpts
import Sendability.Proofs.Locating
import Sendability.Proofs.RecordLaws
import Sendability.Proofs.Balance
import Sendability.Proofs.UnionOrder
import Sendability.Proofs.Lockstep
import Sendability.Proofs.Invisibility
