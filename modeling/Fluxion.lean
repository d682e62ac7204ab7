import Fluxion.Session
import Fluxion.Trace.Log
import Fluxion.CommandLine
import Fluxion.Server.Launch
import Fluxion.Main
import Fluxion.Proofs.Division.Inverse
import Fluxion.Proofs.Division.Restored
import Fluxion.Proofs.Differentiation
import Fluxion.Proofs.Distribute.Flat
import Fluxion.Proofs.Distribute.Ring
import Fluxion.Proofs.Evaluate.Simplified
import Fluxion.Proofs.NormalForm
import Fluxion.Proofs.Failure
import Fluxion.Proofs.Overflow
import Fluxion.Proofs.Trace
import Fluxion.Proofs.Encoding
import Fluxion.Proofs.Renaming
import Fluxion.Proofs.Derive.Depth
import Fluxion.Proofs.Reader
import Fluxion.Proofs.Tool
import Fluxion.Proofs.Term.Monomial
import Fluxion.Proofs.Term.Recovery
import Fluxion.Proofs.Term.Rendering
import Fluxion.Proofs.Grammar.Prefix
import Fluxion.Proofs.Grammar.Parentheses
import Fluxion.Proofs.Differentiation.Absent
import Fluxion.Proofs.Term.Recursion
import Fluxion.Proofs.Latex
import Fluxion.Proofs.Calculator
import Fluxion.Proofs.Server.Body
