import Planimetry.Figure.Condition

/-! Why a step cannot be turned into polynomials. -/

namespace Planimetry

inductive TransformError where
  | statement (label : Label)
  | noGenerators (label : Label)
  | unplaced (label generator : Label)
  | missingRoles (label : Label) (missing : MissingRoles)
  | set (error : SetError)
  deriving DecidableEq, Repr

namespace TransformError

def message : TransformError → String
  | .statement l => l ++ " is a statement, use statement_polynomials()"
  | .noGenerators l => "no usable generators for " ++ l
  | .unplaced l g => "generator " ++ g ++ " of " ++ l ++ " has no coordinates"
  | .missingRoles _ m => Text.quoted m.message
  | .set (.absent l) => l ++ " is not in the protocol"
  | .set (.notASet l) => l ++ " is neither a line nor a circle"

/-- The step that cannot be turned into polynomials. -/
def label : TransformError → Option Label
  | .statement l => some l
  | .noGenerators l => some l
  | .unplaced l _ => some l
  | .missingRoles l _ => some l
  | .set _ => none

/-- The object that has no coordinates. -/
def generator : TransformError → Option Label
  | .unplaced _ g => some g
  | _ => none

end TransformError
end Planimetry
