/-! Limits and switches of a proof. -/

namespace Planimetry

structure Settings where
  maxTerms : Int := 20000
  maxSimplifySteps : Int := 500
  maxNdgPoints : Int := 8
  useBestInstantiation : Bool := true
  alignBasePoints : Bool := false
  counterexampleSeed : Int := 123
  counterexampleAttempts : Int := 20
  deriving DecidableEq, Repr

/-- The value of a limit or of a switch. -/
inductive Setting where
  | number (value : Int)
  | switch (value : Bool)
  deriving DecidableEq, Repr

namespace Settings

/-- All settings by name. -/
def all (s : Settings) : List (String × Setting) :=
  [("max_terms", .number s.maxTerms),
    ("max_simplify_steps", .number s.maxSimplifySteps),
    ("max_ndg_points", .number s.maxNdgPoints),
    ("use_best_instantiation", .switch s.useBestInstantiation),
    ("align_base_points", .switch s.alignBasePoints),
    ("counterexample_seed", .number s.counterexampleSeed),
    ("counterexample_attempts", .number s.counterexampleAttempts)]

/-- Changes one setting by name; a name or value that does not fit changes nothing. -/
def set (s : Settings) (name : String) (value : Setting) : Settings :=
  match name, value with
  | "max_terms", .number n => { s with maxTerms := n }
  | "max_simplify_steps", .number n => { s with maxSimplifySteps := n }
  | "max_ndg_points", .number n => { s with maxNdgPoints := n }
  | "use_best_instantiation", .switch b => { s with useBestInstantiation := b }
  | "align_base_points", .switch b => { s with alignBasePoints := b }
  | "counterexample_seed", .number n => { s with counterexampleSeed := n }
  | "counterexample_attempts", .number n => { s with counterexampleAttempts := n }
  | _, _ => s

end Settings
end Planimetry
