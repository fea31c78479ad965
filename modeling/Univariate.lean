import Univariate.Main
import Univariate.Proofs.Differentiation
import Univariate.Proofs.FaultPlaces
import Univariate.Proofs.Idempotence
import Univariate.Proofs.Relocation
import Univariate.Proofs.RoundTrip
import Univariate.Proofs.SimplificationSoundness
import Univariate.Proofs.SessionRuns
import Univariate.Proofs.Construction
import Univariate.Proofs.Obtained
import Univariate.Proofs.RuleSigns
import Univariate.Proofs.TreeRoundTrip
import Univariate.Proofs.Negation
import Univariate.Proofs.Combinations
import Univariate.Proofs.Substitution
import Univariate.Proofs.BracketFaults
import Univariate.Proofs.IndexedSplit
import Univariate.Proofs.IndexedReading
import Univariate.Proofs.Equality
import Univariate.Proofs.Folding
import Univariate.Proofs.LogarithmsOfPowers
import Univariate.Proofs.Reformatting
import Univariate.Proofs.Juxtaposition
import Univariate.Proofs.DifferentiationRuns
import Univariate.Proofs.Growth
import Univariate.Proofs.Snapping
import Univariate.Proofs.OperandSigns
import Univariate.Proofs.Stripping
import Univariate.Proofs.CommandLineRuns
import Univariate.Proofs.NeededBrackets
import Univariate.Proofs.LastOperation
