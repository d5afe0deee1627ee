import Planimetry.Area.Expr
import Planimetry.Transformation.Error

/-! Why the area method cannot go on. -/

namespace Planimetry.Area

/-- Why a constructed point has no elimination lemma. -/
inductive Unsupported where
  | notAffine (kind : Kind)
  | unknownLine (label : Label)
  | notSpanned (label : Label) (kind : Kind)
  deriving DecidableEq, Repr

inductive Error where
  | notExpression (type : String)
  | textRelabeled
  | notQuantity (operand : String)
  | noRule (type : String)
  | noNormalForm (type : String)
  | emptyRatio (quantity : Quantity)
  | zeroDenominator (numerator : Expr)
  | vanishingDenominator (fraction : String)
  | openDenominator (denominator : Expr)
  | pending (point : Label)
  | unsupported (point : Label) (reason : Unsupported)
  | notConstructed (point : Label)
  | noLemma (operand : String) (point : Label)
  | notMentioned (quantity : Quantity) (point : Label)
  | notParameter (quantity : Quantity)
  | remaining (point : Label)
  | noStatement
  | unknownPoints (labels : List Label)
  | noAreaForm (kind : Kind)
  | notInOrder (point : Label)
  | transform (error : TransformError)
  deriving DecidableEq

namespace Unsupported

def message : Unsupported → String
  | .notAffine k => k.name ++ " is not an affine construction"
  | .unknownLine l => "unknown line " ++ l
  | .notSpanned l k => "line " ++ l ++ " (" ++ k.name ++ ") is not given by two points"

end Unsupported

namespace Error

def message : Error → String
  | .notExpression t => t ++ " is not an area-method expression"
  | .textRelabeled => "replace expected at least 2 arguments, got 1"
  | .notQuantity s => "unknown geometric quantity " ++ s
  | .noRule t => "no rewriting rule for " ++ t
  | .noNormalForm t => "no normal form for " ++ t
  | .emptyRatio q => "segment ratio " ++ q.text ++ " has an empty denominator"
  | .zeroDenominator n => "fraction " ++ n.text ++ " / 0"
  | .vanishingDenominator f => "fraction " ++ f ++ " has a zero denominator"
  | .openDenominator d =>
    "denominator " ++ d.text ++ " is not constant, reduce to a single fraction first"
  | .pending p => "pending elimination of " ++ p ++ " has no expanded form"
  | .unsupported p r => "cannot eliminate " ++ p ++ ": " ++ r.message
  | .notConstructed p => p ++ " is not a constructed point"
  | .noLemma s p => "no elimination lemma for " ++ s ++ " with respect to " ++ p
  | .notMentioned q p => p ++ " is not in " ++ q.text
  | .notParameter q => "ratio " ++ q.text ++ " is not a free parameter"
  | .remaining p => p ++ " is still present after elimination"
  | .noStatement => "protocol has no theorem statement"
  | .unknownPoints ls => "statement uses unknown point(s) " ++ ", ".intercalate ls
  | .noAreaForm k => "statement " ++ k.name ++ " has no area-method form"
  | .notInOrder p => Text.quoted p ++ " is not in list"
  | .transform e => e.message

/-- A division by zero. -/
def isDivision : Error → Bool
  | .emptyRatio _ | .zeroDenominator _ | .vanishingDenominator _ => true
  | _ => false

/-- The method has no rule for an expression or a construction, which leaves the question open. -/
def isInconclusive : Error → Bool
  | .notQuantity _ | .noRule _ | .noNormalForm _ | .pending _ | .unsupported ..
  | .notConstructed _ | .noLemma .. | .notParameter _ | .remaining _ | .noStatement
  | .unknownPoints _ | .noAreaForm _ => true
  | _ => false

end Error
end Planimetry.Area
