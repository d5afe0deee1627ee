import Planimetry.Polynomial.Checked
import Planimetry.Proofs.Triangular.Termination
import Planimetry.Proofs.Triangular.Zero

/-! Triangular form: which variables lead the polynomials of a chain, and what is left in the residual. -/

namespace Planimetry

/-! ### Leading variables -/

theorem Monomial.pairwise_vars (m : Monomial) : m.vars.Pairwise fun v w => compare v w = .lt :=
  List.pairwise_map.2 m.ascending

theorem Monomial.mem_vars_mul {m n : Monomial} {v : Variable} :
    v ∈ (m * n).vars ↔ v ∈ m.vars ∨ v ∈ n.vars := by
  rw [mem_vars, mem_vars, mem_vars, exponents_mul, Finsupp.add_apply]
  omega

/-- The leading variable is the highest of the dependent ones. -/
theorem Polynomial.leadingVariable_eq_some {p : Polynomial} {v : Variable} :
    p.leadingVariable = some v ↔ v ∈ p.vars ∧ v.isDependent = true ∧
      ∀ w ∈ p.vars, w.isDependent = true → compare v w ≠ .lt := by
  have hmem (w : Variable) : w ∈ p.vars.filter Variable.isDependent ↔
      w ∈ p.vars ∧ w.isDependent = true := List.mem_filter
  have hasc : (p.vars.filter Variable.isDependent).Pairwise fun v w => compare v w = .lt :=
    p.support.pairwise_vars.filter Variable.isDependent
  unfold leadingVariable
  constructor
  · intro h
    obtain ⟨lower, hlower⟩ := List.getLast?_eq_some_iff.1 h
    rw [hlower] at hasc hmem
    obtain ⟨hv, hdependent⟩ := (hmem v).1 (List.mem_append_right _ List.mem_cons_self)
    refine ⟨hv, hdependent, fun w hw hd => ?_⟩
    rcases List.mem_append.1 ((hmem w).2 ⟨hw, hd⟩) with hw | hw
    · exact Std.OrientedCmp.not_lt_of_lt
        ((List.pairwise_append.1 hasc).2.2 w hw v List.mem_cons_self)
    · rw [List.mem_singleton.1 hw, Std.ReflOrd.compare_self]
      nofun
  · rintro ⟨hv, hdependent, hhighest⟩
    obtain ⟨lower, upper, hsplit⟩ := List.append_of_mem ((hmem v).2 ⟨hv, hdependent⟩)
    rw [hsplit] at hasc hmem ⊢
    cases upper with
    | nil => exact List.getLast?_concat
    | cons w upper =>
        obtain ⟨hw, hd⟩ := (hmem w).1 (by simp)
        have hlt := (List.pairwise_cons.1 (List.pairwise_append.1 hasc).2.1).1 w List.mem_cons_self
        exact absurd hlt (hhighest w hw hd)

namespace Triangular

variable {limit : Int} {v : Variable} {pending rest : List Hypothesis} {t t' : Triangular}
  {vs : List Variable}

/-- A chain of ascending dependent variables, none of them twice, each of which leads the polynomial that
eliminates it; dependent variables occur in no polynomial that is left, and none of these is zero. -/
structure IsTriangular (t : Triangular) : Prop where
  vars : ∃ indices : List ℤ, t.vars = indices.map .dependent ∧ indices.Pairwise (· < ·)
  nodup : t.vars.Nodup
  leading : ∀ e ∈ t.chain, e.polynomial.leadingVariable = some e.eliminated
  degree : ∀ e ∈ t.chain, 0 < e.polynomial.degree e.eliminated
  highest : ∀ e ∈ t.chain, ∀ i j : ℤ, e.eliminated = .dependent i →
    .dependent j ∈ e.polynomial.vars → j ≤ i
  residual : ∀ q ∈ t.residual, q ≠ 0 ∧ ∀ w ∈ q.vars, w.isDependent = false

/-- What an elimination may meet: it is not zero, and its dependent variables are still to come. -/
structure IsPending (vs : List Variable) (p : Polynomial) : Prop where
  nonzero : p ≠ 0
  remaining : ∀ w ∈ p.vars, w.isDependent = true → w ∈ vs

theorem IsPending.pseudoRemainder {f g : Polynomial} (hf : IsPending vs f) (hg : IsPending vs g)
    (hpos : 0 < g.degree v) (hne : f.pseudoRemainder g v ≠ 0) :
    IsPending vs (f.pseudoRemainder g v) :=
  { nonzero := hne
    remaining := fun w hw =>
      (Polynomial.mem_vars_pseudoRemainder hpos hw).elim (hf.remaining w) (hg.remaining w) }

theorem IsPending.of_degree_eq_zero {p : Polynomial} (hp : IsPending (v :: vs) p)
    (hdegree : p.degree v = 0) : IsPending vs p := by
  refine ⟨hp.nonzero, fun w hw hdependent => ?_⟩
  rcases List.mem_cons.1 (hp.remaining w hw hdependent) with rfl | hmem
  · exact absurd hw (Polynomial.degree_eq_zero.1 hdegree)
  · exact hmem

theorem IsPending.leadingVariable {p : Polynomial} (hp : IsPending (v :: vs) p)
    (hv : v.isDependent = true) (hvs : ∀ w ∈ vs, compare w v = .lt) (hdegree : 0 < p.degree v) :
    p.leadingVariable = some v := by
  refine Polynomial.leadingVariable_eq_some.2
    ⟨Polynomial.degree_pos.1 hdegree, hv, fun w hw hdependent => ?_⟩
  rcases List.mem_cons.1 (hp.remaining w hw hdependent) with rfl | hmem
  · rw [Std.ReflOrd.compare_self]
    nofun
  · exact Std.OrientedCmp.not_lt_of_lt (hvs w hmem)

/-- What holds while variables are eliminated: the hypotheses are pending, and each chain polynomial is led
by the variable that it eliminates. -/
structure IsUnderway (t : Triangular) (pending : List Hypothesis) (vs : List Variable) : Prop where
  pending : ∀ k ∈ pending, IsPending vs k.polynomial
  leading : ∀ e ∈ t.chain, e.polynomial.leadingVariable = some e.eliminated

/-- One elimination. -/
theorem IsUnderway.step {found : Option Hypothesis} {pivots : List Polynomial}
    (h : IsUnderway t pending (v :: vs)) (hv : v.isDependent = true)
    (hvs : ∀ w ∈ vs, compare w v = .lt) (hisolates : Isolates limit v pending found rest pivots) :
    IsUnderway { t with chain := (found.toList.map fun h => ⟨v, h⟩) ++ t.chain } rest vs := by
  obtain ⟨hfound, hrest⟩ := hisolates.forall_mem
    (fun _ _ hpos hf hg hne => hf.pseudoRemainder hg hpos hne) h.pending
  constructor
  · exact fun k hk => (hrest k hk).of_degree_eq_zero (hisolates.degree_rest k hk)
  · intro e he
    rcases List.mem_append.1 he with he | he
    · obtain ⟨k, hk, rfl⟩ := List.mem_map.1 he
      have hk := Option.mem_toList.1 hk
      exact (hfound k hk).leadingVariable hv hvs (hisolates.degree_found k hk)
    · exact h.leading e he

theorem IsUnderway.eliminate (h : IsUnderway t pending vs) (hdependent : ∀ v ∈ vs, v.isDependent = true)
    (hvs : vs.Pairwise fun a b => compare b a = .lt)
    (hok : Triangular.eliminate limit t pending vs = .ok t') :
    (∀ e ∈ t'.chain, e.polynomial.leadingVariable = some e.eliminated) ∧
      ∀ q ∈ t'.residual, q ≠ 0 ∧ ∀ w ∈ q.vars, w.isDependent = false := by
  induction vs generalizing t pending with
  | nil =>
      cases hok
      refine ⟨h.leading, List.forall_mem_map.2 fun k hk => ⟨(h.pending k hk).nonzero, fun w hw => ?_⟩⟩
      by_contra hne
      exact absurd ((h.pending k hk).remaining w hw (by simpa using hne)) List.not_mem_nil
  | cons v vs ih =>
      obtain ⟨found, rest, hi, hok⟩ := eliminate_cons hok
      obtain ⟨hv, hdependent⟩ := List.forall_mem_cons.1 hdependent
      rw [List.pairwise_cons] at hvs
      exact ih (h.step hv hvs.1 (isolates_of_isolate le_rfl hi)) hdependent hvs.2 hok

theorem mem_vars_foldl {system : List Hypothesis} {m : Monomial} :
    v ∈ (system.foldl (fun m h => m * h.polynomial.support) m).vars ↔
      v ∈ m.vars ∨ ∃ h ∈ system, v ∈ h.polynomial.vars := by
  induction system generalizing m with
  | nil => simp
  | cons h hs ih =>
      rw [List.foldl_cons, ih, Monomial.mem_vars_mul, List.exists_mem_cons_iff, or_assoc]
      rfl

theorem mem_dependents {system : List Hypothesis} : v ∈ dependents system ↔
    v.isDependent = true ∧ ∃ h ∈ system, v ∈ h.polynomial.vars := by
  unfold dependents
  rw [List.mem_reverse, List.mem_filter, mem_vars_foldl, and_comm]
  refine and_congr_right' (or_iff_right ?_)
  exact List.not_mem_nil

theorem isUnderway_dependents (pending : List Hypothesis) (h : ∀ k ∈ pending, k.polynomial ≠ 0) :
    IsUnderway {} pending (dependents pending) :=
  { pending := fun k hk =>
      { nonzero := h k hk
        remaining := fun _ hw hdependent => mem_dependents.2 ⟨hdependent, k, hk, hw⟩ }
    leading := fun _ he => nomatch he }

theorem exists_indices {vs : List Variable} (hdependent : ∀ v ∈ vs, v.isDependent = true)
    (hvs : vs.Pairwise fun v w => compare v w = .lt) :
    ∃ indices : List ℤ, vs = indices.map .dependent ∧ indices.Pairwise (· < ·) := by
  obtain ⟨indices, rfl⟩ : vs ∈ Set.range (List.map Variable.dependent) := by
    rw [Set.range_list_map]
    intro v hv
    have hd := hdependent v hv
    cases v with
    | dependent i => exact ⟨i, rfl⟩
    | free i => cases hd
    | placeholder r a => cases hd
  exact ⟨indices, rfl, (List.pairwise_map.1 hvs).imp compare_lt_iff_lt.1⟩

/-- Triangulation ends in triangular form. -/
theorem isTriangular_ofSystem {system : List Hypothesis} (hok : ofSystem limit system = .ok t) :
    t.IsTriangular := by
  have hascending : t.vars.Pairwise fun v w => compare v w = .lt :=
    List.pairwise_map.2 ((isAscending_ofSystem hok).imp And.left)
  obtain ⟨hleading, hresidual⟩ := (isUnderway_dependents _ fun k hk hz => by
    simpa [Sparse.isZero_iff.2 hz] using (List.mem_filter.1 hk).2).eliminate
      (fun v hv => isDependent_of_mem_dependents hv) (pairwise_dependents _) hok
  refine
    { vars := exists_indices (fun v hv => isDependent_of_mem_vars hok hv) hascending
      nodup := hascending.imp fun hlt heq => ?_
      leading := hleading
      degree := isProper_ofSystem hok
      highest := fun e he i j hi hj => ?_
      residual := hresidual }
  · rw [heq, Std.ReflOrd.compare_self] at hlt
    cases hlt
  · obtain ⟨-, -, hhighest⟩ := Polynomial.leadingVariable_eq_some.1 (hleading e he)
    have hnot := hhighest (.dependent j) hj rfl
    rw [hi, Variable.compare_dependent_dependent, ne_eq, compare_lt_iff_lt] at hnot
    exact not_lt.1 hnot

theorem remainder_eq_ok {f g r : Polynomial} :
    f.remainder g v = .ok r ↔ 0 < g.degree v ∧ Polynomial.Reduces g v f r := by
  unfold Polynomial.remainder
  split
  next hz => exact iff_of_false nofun fun h => h.1.ne' hz
  next hz =>
    have hpos := Nat.pos_of_ne_zero hz
    rw [Polynomial.reduces_iff hpos, and_iff_right hpos, Except.ok.injEq]

/-- The loops of pseudo-division and of isolation end by themselves, and each system has one triangular
form, which triangulation finds under every limit, unless it tells of more terms than the limit; this it
does not if the limit is large. -/
theorem exists_isTriangular :
    (∀ (f g : Polynomial) (v : Variable) (r : Polynomial),
      f.remainder g v = .ok r ↔ 0 < g.degree v ∧ Polynomial.Reduces g v f r) ∧
    (∀ limit v pending result,
      isolate limit v (degreeSum v pending) pending = result ↔ Isolating limit v pending result) ∧
    ∀ system, ∃ t : Triangular, t.IsTriangular ∧
      (∃ bound, ∀ limit, bound ≤ limit → ofSystem limit system = .ok t) ∧
      ∀ limit, ofSystem limit system = .ok t ∨
        ∃ e, ofSystem limit system = .error e ∧ e.limit = limit ∧ limit < e.size := by
  refine ⟨fun _ _ _ _ => remainder_eq_ok, fun _ _ _ _ => isolating_iff.symm, fun system => ?_⟩
  obtain ⟨t, ⟨bound, hlarge⟩, hall⟩ := isLimited_eliminate {} _ _
  exact ⟨t, isTriangular_ofSystem (hlarge bound le_rfl), ⟨bound, hlarge⟩, hall⟩

end Triangular
end Planimetry
