import Sequitur.Main
import Sequitur.Proof.Dependence
import Sequitur.Workload
import Sequitur.Proofs.Place
import Sequitur.Proofs.Instance
import Sequitur.Proofs.Meetings
import Sequitur.Proofs.Replacement
import Sequitur.Proofs.Script
import Sequitur.Proofs.Tables
import Sequitur.Proofs.History
import Sequitur.Proofs.Printable
import Sequitur.Proofs.Recognition
import Sequitur.Proofs.Reading
import Sequitur.Proofs.Printing
import Sequitur.Proofs.Expansion
import Sequitur.Proofs.Writing
import Sequitur.Proofs.Assembly
import Sequitur.Proofs.Registration
import Sequitur.Proofs.Standing
import Sequitur.Proofs.Examination
import Sequitur.Proofs.Progress
import Sequitur.Proofs.Inference
import Sequitur.Proofs.Soundness
import Sequitur.Proofs.Circularity
import Sequitur.Proofs.Dependence
import Sequitur.Proofs.Confinement
import Sequitur.Proofs.FreeVariables
import Sequitur.Proofs.Occurrence
import Sequitur.Proofs.Moments
import Sequitur.Proofs.Transcript
import Sequitur.Proofs.Completion
import Sequitur.Proofs.Breakdown
import Sequitur.Proofs.Quantification
import Sequitur.Proofs.Freshness
import Sequitur.Proofs.Scopes
import Sequitur.Proofs.Verdict
import Sequitur.Proofs.Residue
import Sequitur.Proofs.Provenance
import Sequitur.Proofs.Generalization
import Sequitur.Proofs.Repetition
import Sequitur.Proofs.Rearrangement
import Sequitur.Proofs.Renumbering
import Sequitur.Proofs.Comparison
import Sequitur.Proofs.Instantiation
import Sequitur.Proofs.Capture
import Sequitur.Proofs.Specialization
import Sequitur.Proofs.Origins
import Sequitur.Proofs.Application
import Sequitur.Proofs.Deduction
import Sequitur.Proofs.Outline
import Sequitur.Proofs.Nesting
import Sequitur.Proofs.Solution
import Sequitur.Proofs.Sharing
import Sequitur.Proofs.Workload
