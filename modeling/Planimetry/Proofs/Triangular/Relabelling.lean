import Planimetry.Proofs.Transformation.Relabelling
import Planimetry.Proofs.Triangular.Elimination

/-! Triangulation under other names: hypotheses keep their sources, and nothing else depends on these. -/

namespace Planimetry

variable (f : Label → Label) {limit : Int} {v : Variable}

def ChainEntry.relabel (e : ChainEntry) : ChainEntry := { e with hypothesis := e.hypothesis.relabel f }

def Triangular.relabel (t : Triangular) : Triangular :=
  { t with chain := t.chain.map (ChainEntry.relabel f) }

@[simp] theorem Hypothesis.polynomial_relabel (h : Hypothesis) :
    (h.relabel f).polynomial = h.polynomial := rfl

@[simp] theorem ChainEntry.polynomial_relabel (e : ChainEntry) :
    (e.relabel f).polynomial = e.polynomial := rfl

@[simp] theorem ChainEntry.eliminated_relabel (e : ChainEntry) :
    (e.relabel f).eliminated = e.eliminated := rfl

namespace Triangular

@[simp] theorem initials_relabel (t : Triangular) : (t.relabel f).initials = t.initials := by
  unfold initials relabel
  rw [List.map_map]
  rfl

theorem splitPivot_relabel (hs : List Hypothesis) : splitPivot v (hs.map (Hypothesis.relabel f)) =
    (splitPivot v hs).map fun r => (r.1.map (Hypothesis.relabel f), r.2.1.relabel f,
      r.2.2.map (Hypothesis.relabel f)) := by
  induction hs with
  | nil => rfl
  | cons h hs ih =>
      rw [List.map_cons]
      unfold splitPivot
      rw [ih, Hypothesis.polynomial_relabel]
      cases splitPivot v hs with
      | none =>
          simp only [Option.map_none]
          split <;> rfl
      | some r =>
          obtain ⟨before, pivot, after⟩ := r
          have hprecedes : precedes v (h.relabel f) (pivot.relabel f) = precedes v h pivot := rfl
          simp only [Option.map_some, hprecedes]
          split <;> rfl

theorem reduceBy_relabel (pivot : Polynomial) (hs : List Hypothesis) :
    reduceBy limit v pivot (hs.map (Hypothesis.relabel f)) =
      (reduceBy limit v pivot hs).map (List.map (Hypothesis.relabel f)) := by
  induction hs with
  | nil => rfl
  | cons h hs ih =>
      rw [List.map_cons]
      unfold reduceBy
      rw [ih, Hypothesis.polynomial_relabel]
      cases reduceBy limit v pivot hs with
      | error e =>
          split
          next => rfl
          next => cases h.polynomial.limitedRemainder limit v pivot <;> rfl
      | ok rest =>
          split
          next => rfl
          next =>
            cases h.polynomial.limitedRemainder limit v pivot with
            | error e => rfl
            | ok r =>
                simp only [Except.map, bind, Except.bind, pure, Except.pure]
                split <;> rfl

theorem isolate_relabel (rounds : ℕ) (pending : List Hypothesis) :
    isolate limit v rounds (pending.map (Hypothesis.relabel f)) =
      (isolate limit v rounds pending).map fun r =>
        (r.1.map (Hypothesis.relabel f), r.2.map (Hypothesis.relabel f)) := by
  induction rounds generalizing pending with
  | zero => rfl
  | succ rounds ih =>
      unfold isolate
      rw [splitPivot_relabel]
      cases splitPivot v pending with
      | none => rfl
      | some r =>
          obtain ⟨before, pivot, after⟩ := r
          have hall : (before.map (Hypothesis.relabel f) ++ after.map (Hypothesis.relabel f)).all
              (fun h => h.polynomial.degree v = 0) =
                (before ++ after).all fun h => h.polynomial.degree v = 0 := by
            rw [← List.map_append, List.all_map]
            rfl
          simp only [Option.map_some, Hypothesis.polynomial_relabel, hall, reduceBy_relabel]
          split
          next => rw [← List.map_append]; rfl
          next =>
            cases reduceBy limit v pivot.polynomial before with
            | error e => rfl
            | ok before' =>
                cases reduceBy limit v pivot.polynomial after with
                | error e => rfl
                | ok after' =>
                    have hround := ih (before' ++ pivot :: after')
                    rw [List.map_append, List.map_cons] at hround
                    exact hround

theorem degreeSum_relabel (pending : List Hypothesis) :
    degreeSum v (pending.map (Hypothesis.relabel f)) = degreeSum v pending := by
  unfold degreeSum
  rw [List.foldl_map]
  rfl

theorem eliminate_relabel (t : Triangular) (pending : List Hypothesis) (vs : List Variable) :
    eliminate limit (t.relabel f) (pending.map (Hypothesis.relabel f)) vs =
      (eliminate limit t pending vs).map (Triangular.relabel f) := by
  induction vs generalizing t pending with
  | nil =>
      unfold eliminate
      rw [List.map_map]
      rfl
  | cons v vs ih =>
      unfold eliminate
      rw [degreeSum_relabel, isolate_relabel]
      cases isolate limit v (degreeSum v pending) pending with
      | error e => rfl
      | ok r =>
          obtain ⟨pivot, rest⟩ := r
          refine Eq.trans ?_ (ih _ rest)
          cases pivot <;> rfl

theorem dependents_relabel (system : List Hypothesis) :
    dependents (system.map (Hypothesis.relabel f)) = dependents system := by
  unfold dependents
  rw [List.foldl_map]
  rfl

/-- The triangular form of a system with other sources. -/
theorem ofSystem_relabel (system : List Hypothesis) :
    ofSystem limit (system.map (Hypothesis.relabel f)) =
      (ofSystem limit system).map (Triangular.relabel f) := by
  unfold ofSystem
  rw [List.filter_map]
  simp only [Function.comp_def, Hypothesis.polynomial_relabel, dependents_relabel]
  exact eliminate_relabel f {} _ _

theorem reduceThrough_relabel (es : List ChainEntry) (r : Polynomial) :
    reduceThrough limit (es.map (ChainEntry.relabel f)) r = reduceThrough limit es r := by
  induction es generalizing r with
  | nil => rfl
  | cons e es ih =>
      rw [List.map_cons]
      unfold reduceThrough
      simp only [ih, ChainEntry.eliminated_relabel, ChainEntry.polynomial_relabel]

theorem reduce_relabel (t : Triangular) : (t.relabel f).reduce limit = t.reduce limit := by
  funext statement
  unfold reduce relabel
  rw [← List.map_reverse]
  exact reduceThrough_relabel f _ statement

end Triangular

end Planimetry
