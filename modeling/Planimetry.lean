import Planimetry.Area.Operand
import Planimetry.Polynomial.Checked
import Planimetry.Trace
import Planimetry.Verdict
import Planimetry.Workbench
import Planimetry.Proofs.Except
import Planimetry.Proofs.Polynomial.Algebra
import Planimetry.Proofs.Polynomial.Value
import Planimetry.Proofs.Polynomial.Univariate
import Planimetry.Proofs.Polynomial.PseudoDivision
import Planimetry.Proofs.Triangular.Elimination
import Planimetry.Proofs.Figure.Protocol
import Planimetry.Proofs.Template
import Planimetry.Proofs.Figure.Condition
import Planimetry.Proofs.Transformation.Trial
import Planimetry.Proofs.Transformation.Basic
import Planimetry.Proofs.Transformation.Pass
import Planimetry.Proofs.Degeneracy
import Planimetry.Proofs.Verdict
import Planimetry.Proofs.Triangular.Zero
import Planimetry.Proofs.Refutation
import Planimetry.Proofs.Area.Layers
import Planimetry.Proofs.Area.Context
import Planimetry.Proofs.Area.Coordinates
import Planimetry.Proofs.Area.Evaluation
import Planimetry.Proofs.Area.Decision
import Planimetry.Proofs.Figure.Membership
import Planimetry.Proofs.Figure.Binding
import Planimetry.Proofs.Transformation.Total
import Planimetry.Proofs.Transformation.Hypothesis
import Planimetry.Proofs.Transformation.System
import Planimetry.Proofs.Consistency
import Planimetry.Proofs.Area.Repetition
import Planimetry.Proofs.Repetition
import Planimetry.Proofs.Figure.Placing
import Planimetry.Proofs.Figure.Line
import Planimetry.Proofs.Area.Source
import Planimetry.Proofs.Area.Nondegeneracy
import Planimetry.Proofs.Soundness
import Planimetry.Proofs.Figure.History
import Planimetry.Proofs.Area.Realization
import Planimetry.Proofs.Area.Regular
import Planimetry.Proofs.Area.Stages
import Planimetry.Proofs.Area.Failure
import Planimetry.Proofs.Area.FreeCoordinates
import Planimetry.Proofs.Area.LayeredElimination
import Planimetry.Proofs.Area.Completeness
import Planimetry.Proofs.Area.Exactness
import Planimetry.Proofs.Totality
import Planimetry.Proofs.Figure.Relabelling
import Planimetry.Proofs.Transformation.Relabelling
import Planimetry.Proofs.Triangular.Relabelling
import Planimetry.Proofs.Area.Relabelling
import Planimetry.Proofs.Area.Orientation
import Planimetry.Proofs.Area.Resemblance
import Planimetry.Proofs.Area.Independence
import Planimetry.Proofs.Area.Mirror
import Planimetry.Proofs.Area.Correspondence
import Planimetry.Proofs.Relabelling
import Planimetry.Proofs.Figure.Rejection
import Planimetry.Proofs.Polynomial.Evaluation
import Planimetry.Proofs.Polynomial.Canonical
import Planimetry.Proofs.Polynomial.Proportional
import Planimetry.Proofs.Triangular.Termination
import Planimetry.Proofs.Triangular.Shape
import Planimetry.Proofs.Polynomial.Remainder
import Planimetry.Proofs.Triangular.Combination
import Planimetry.Proofs.Triangular.Reduction
import Planimetry.Proofs.Transformation.InPlace
import Planimetry.Proofs.Transformation.Search
import Planimetry.Proofs.Transformation.Atomicity
import Planimetry.Proofs.Area.Preservation
import Planimetry.Proofs.Area.Termination
import Planimetry.Proofs.Area.Denominator
import Planimetry.Proofs.Area.CanonicalForm
import Planimetry.Proofs.Degeneracy.Coverage
import Planimetry.Proofs.Triangular.Limit
import Planimetry.Proofs.Limit
import Planimetry.Proofs.Counterexample
import Planimetry.Proofs.Transformation.Known
import Planimetry.Proofs.Evidence
import Planimetry.Proofs.Degeneracy.Symmetry
import Planimetry.Proofs.Degeneracy.Reading
import Planimetry.Proofs.Degeneracy.Deriver
import Planimetry.Proofs.Figure.Image
import Planimetry.Proofs.Figure.Circle
import Planimetry.Proofs.Angle
import Planimetry.Proofs.Area.RightAssociative
