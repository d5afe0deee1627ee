import Planimetry.Proofs.Polynomial.Remainder
import Planimetry.Proofs.Triangular.Combination

/-! The successive pseudo-remainder of a statement: by which identity it comes from the statement and the
whole chain, and that no entry of the chain could reduce it further. -/

universe u

namespace Planimetry

namespace Polynomial

variable {hs : List Hypothesis}

theorem mul_combination (p : Polynomial) (cs : List Polynomial) (hs : List Hypothesis) :
    p * combination cs hs = combination (cs.map (p * ·)) hs := by
  induction hs generalizing cs with
  | nil =>
      apply toMv_injective
      simp [combination]
  | cons h hs ih =>
      cases cs with
      | nil =>
          apply toMv_injective
          simp [combination]
      | cons c cs =>
          rw [List.map_cons, combination_cons, combination_cons, ← ih]
          apply toMv_injective
          simp only [toMv_mul, toMv_add]
          ring

end Polynomial

namespace Triangular

variable {limit limit' : Int} {t : Triangular} {system : List Hypothesis} {es fs : List ChainEntry}
  {e : ChainEntry} {s r r' : Polynomial}

/-- The product of powers of the initials of chain entries. -/
def initialPower (es : List ChainEntry) (ks : List ℕ) : Polynomial :=
  Polynomial.product (List.zipWith (fun e k => e.initial ^ k) es ks)

/-- How a remainder by all entries of a chain comes from the dividend: up to powers of the initials, it
differs from it by a combination of the chain, and its degree in each eliminated variable is below that
of the polynomial that eliminates it. -/
structure IsReduced (es : List ChainEntry) (s r : Polynomial) : Prop where
  identity : ∃ (ks : List ℕ) (qs : List Polynomial), ks.length = es.length ∧ qs.length = es.length ∧
    initialPower es ks * s = Polynomial.combination qs (es.map ChainEntry.hypothesis) + r
  degree : ∀ e ∈ es, r.degree e.eliminated < e.polynomial.degree e.eliminated

theorem reduceThrough_concat (es : List ChainEntry) (e : ChainEntry) (s : Polynomial) :
    reduceThrough limit (es ++ [e]) s = reduceThrough limit es s >>= reduceThrough limit [e] := by
  induction es generalizing s with
  | nil => rfl
  | cons f es ih =>
      rw [List.cons_append]
      unfold reduceThrough
      split
      next => exact ih s
      next =>
        cases s.limitedRemainder limit f.eliminated f.polynomial with
        | error l => rfl
        | ok s' => exact ih s'

/-- One division. An entry that is skipped divides as well, without a factor. -/
theorem reduceThrough_singleton (hpos : 0 < e.polynomial.degree e.eliminated)
    (hok : reduceThrough limit [e] s = .ok r) :
    (∃ (k : ℕ) (q : Polynomial), e.initial ^ k * s = q * e.polynomial + r) ∧
      r.degree e.eliminated < e.polynomial.degree e.eliminated ∧
        ∀ w ∉ e.polynomial.vars, r.degree w ≤ s.degree w := by
  unfold reduceThrough at hok
  split at hok
  next hskip =>
    cases hok
    refine ⟨⟨0, 0, Polynomial.toMv_injective ?_⟩, hskip ▸ hpos, fun _ _ => le_rfl⟩
    simp
  next =>
    obtain ⟨s', hr, hok⟩ := bind_eq_ok hok
    cases hok
    rw [limitedRemainder_ok hr]
    obtain ⟨k, q, -, hq⟩ := (Polynomial.isRemainder_pseudoRemainder hpos s).identity
    exact ⟨⟨k, q, hq⟩, Polynomial.degree_pseudoRemainder_lt hpos s,
      fun w hw => Polynomial.degree_pseudoRemainder_le hw hpos s⟩

/-- A division by the next lower entry. It contains no variable that is eliminated already, so it does not
raise the degrees there. -/
theorem IsReduced.cons (h : IsReduced es s r') (hfree : ∀ f ∈ es, f.eliminated ∉ e.polynomial.vars)
    (hpos : 0 < e.polynomial.degree e.eliminated) (hok : reduceThrough limit [e] r' = .ok r) :
    IsReduced (e :: es) s r := by
  obtain ⟨⟨ks, qs, hks, hqs, hidentity⟩, hdegree⟩ := h
  obtain ⟨⟨k, q, hq⟩, hlow, hother⟩ := reduceThrough_singleton hpos hok
  constructor
  · refine ⟨k :: ks, q :: qs.map (e.initial ^ k * ·), congr_arg (· + 1) hks, ?_, ?_⟩
    · rw [List.length_cons, List.length_map, hqs, List.length_cons]
    · have hidentity := congr_arg Polynomial.toMv hidentity
      have hq := congr_arg Polynomial.toMv hq
      apply Polynomial.toMv_injective
      unfold initialPower at hidentity ⊢
      unfold ChainEntry.polynomial at hq
      rw [List.zipWith_cons_cons, Polynomial.product_cons, List.map_cons, Polynomial.combination_cons,
        ← Polynomial.mul_combination]
      simp only [Polynomial.toMv_mul, Polynomial.toMv_add] at hidentity hq ⊢
      linear_combination (e.initial ^ k).toMv * hidentity + hq
  · refine List.forall_mem_cons.2 ⟨hlow, fun f hf => ?_⟩
    exact (hother _ (hfree f hf)).trans_lt (hdegree f hf)

theorem isReduced_reduceThrough (hascending : IsAscending es)
    (hproper : ∀ e ∈ es, 0 < e.polynomial.degree e.eliminated)
    (hok : reduceThrough limit es.reverse s = .ok r) : IsReduced es s r := by
  induction es generalizing r with
  | nil =>
      cases hok
      refine ⟨⟨[], [], rfl, rfl, Polynomial.toMv_injective ?_⟩, List.forall_mem_nil _⟩
      simp [initialPower, Polynomial.product, Polynomial.combination]
  | cons e es ih =>
      obtain ⟨hlower, hascending⟩ := List.pairwise_cons.1 hascending
      obtain ⟨hpos, hproper⟩ := List.forall_mem_cons.1 hproper
      rw [List.reverse_cons, reduceThrough_concat] at hok
      obtain ⟨r', hr, hok⟩ := bind_eq_ok hok
      exact (ih hascending hproper hr).cons (fun f hf => (hlower f hf).2) hpos hok

/-- A statement with a remainder of zero vanishes with the chain, as far as no initial does. -/
theorem IsReduced.valueAt_eq_zero {K : Type*} [Field K] [Algebra ℚ K] {σ : Variable → K}
    (h : IsReduced es s 0) (hes : ∀ e ∈ es, e.polynomial.valueAt σ = 0)
    (hinitial : ∀ e ∈ es, e.initial.valueAt σ ≠ 0) : s.valueAt σ = 0 := by
  obtain ⟨ks, qs, -, -, hidentity⟩ := h.identity
  have hvalue := congr_arg (Polynomial.valueAt σ) hidentity
  rw [Polynomial.valueAt_mul, Polynomial.valueAt_add, Polynomial.valueAt_zero, add_zero,
    Polynomial.valueAt_combination (List.forall_mem_map.2 hes)] at hvalue
  refine (mul_eq_zero.1 hvalue).resolve_left ?_
  unfold initialPower
  rw [Polynomial.valueAt_product]
  refine List.prod_ne_zero fun hmem => ?_
  obtain ⟨p, hp, hzero⟩ := List.mem_map.1 hmem
  obtain ⟨i, hi, rfl⟩ := List.getElem_of_mem hp
  rw [List.getElem_zipWith, Polynomial.valueAt_pow] at hzero
  exact pow_ne_zero _ (hinitial _ (List.getElem_mem _)) hzero

/-- The remainder of a statement by a triangular system. -/
theorem isReduced_reduce (hsystem : ofSystem limit system = .ok t) (hok : t.reduce limit' s = .ok r) :
    IsReduced t.chain s r ∧
      (r = 0 → ∀ (K : Type u) [Field K] [Algebra ℚ K] (σ : Variable → K), t.ChainVanishAt σ →
        (∀ p ∈ t.initials, p.valueAt σ ≠ 0) → s.valueAt σ = 0) := by
  have h := isReduced_reduceThrough (isAscending_ofSystem hsystem) (isProper_ofSystem hsystem) hok
  refine ⟨h, ?_⟩
  rintro rfl K _ _ σ hchain hinitial
  exact h.valueAt_eq_zero hchain fun e he => hinitial _ (List.mem_map_of_mem he)

/-- A quartic in both variables of the circle. -/
def quarticStatement : Polynomial :=
  let x (i : Int) := Polynomial.ofVariable (.dependent i)
  x 1 * x 2 * x 2 * x 2 - x 1 * x 1

def quarticRemainder : Polynomial := ((circleTriangular.reduce 100 quarticStatement).toOption).getD 0

theorem isReduced_quarticStatement : ofSystem 100 circleSystem = .ok circleTriangular ∧
    circleTriangular.reduce 100 quarticStatement = .ok quarticRemainder ∧
      IsReduced circleTriangular.chain quarticStatement quarticRemainder := by
  have hreduce : circleTriangular.reduce 100 quarticStatement = .ok quarticRemainder := by
    decide +kernel
  exact ⟨ofSystem_circleSystem, hreduce, (isReduced_reduce.{0} ofSystem_circleSystem hreduce).1⟩

end Triangular
end Planimetry
