import ScriptFront.Main
import ScriptFront.Proofs.Bound
import ScriptFront.Proofs.Derivation
import ScriptFront.Proofs.Soundness
import ScriptFront.Proofs.Completeness
import ScriptFront.Proofs.Nesting
import ScriptFront.Proofs.Relocation
import ScriptFront.Proofs.Acceptance
import ScriptFront.Proofs.RoundTrip
import ScriptFront.Proofs.Resynchronisation
import ScriptFront.Proofs.Operation
import ScriptFront.Proofs.Tokenization
import ScriptFront.Proofs.Concatenation
import ScriptFront.Proofs.Layout
import ScriptFront.Proofs.Truthfulness
import ScriptFront.Proofs.Session
import ScriptFront.Proofs.Chronology
import ScriptFront.Proofs.Provenance
import ScriptFront.Proofs.Unambiguity
import ScriptFront.Proofs.Progress
import ScriptFront.Proofs.Tally
import ScriptFront.Proofs.Caret
import ScriptFront.Proofs.FileMode
import ScriptFront.Proofs.Arguments
import ScriptFront.Proofs.Command
import ScriptFront.Proofs.Legibility
