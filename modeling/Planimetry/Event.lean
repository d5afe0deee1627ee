/-! Events that a proof reports on its way, for a log. -/

namespace Planimetry

inductive Severity where
  | info
  | warning
  deriving DecidableEq, Repr

/-- The part of the program that reports an event. -/
inductive Source where
  | validation
  | transformation
  | triangulation
  | degeneracy
  | witness
  | prover
  | areaExpressions
  | areaElimination
  | areaProver
  deriving DecidableEq, Repr

structure Event where
  severity : Severity
  source : Source
  text : String
  deriving DecidableEq, Repr

namespace Severity

def name : Severity → String
  | .info => "INFO"
  | .warning => "WARNING"

end Severity

namespace Source

/-- The name under which the source appears in the log. -/
def name : Source → String
  | .validation => "geoprover.validate"
  | .transformation => "geoprover.transform"
  | .triangulation => "geoprover.wu"
  | .degeneracy => "geoprover.ndg"
  | .witness => "geoprover.witness"
  | .prover => "geoprover.prover"
  | .areaExpressions => "geoprover.area_method.expressions"
  | .areaElimination => "geoprover.area_method.elimination"
  | .areaProver => "geoprover.area_method.prover"

end Source
end Planimetry
