import Planimetry.Proofs.Area.Elimination
import Planimetry.Proofs.Area.NormalForm
import Planimetry.Proofs.Area.Statement

/-! Expanded forms in coordinates: polynomials with the same values, for any values of the coordinates of
the free points and of the free ratios. -/

namespace Planimetry.Area

namespace Progress

/-- Points keep their coordinates, and free ratios their variables. -/
structure Extends (s s' : Progress) : Prop where
  steps : s'.protocol.steps = s.protocol.steps
  ratios : s.ratios ⊆ s'.ratios

/-- Variables have the values of the coordinates of free points and of the ratios that they stand for. -/
structure ReadsAt (free : List Label) (σ : Variable → ℚ) (place : Label → ℚ × ℚ)
    (ratio : Quantity → ℚ) (s : Progress) : Prop where
  point : ∀ l ∈ free, ∀ xy, (s.protocol.get? l).bind Step.coordinates? = some xy →
    place l = (σ xy.1, σ xy.2)
  ratio : ∀ r ∈ s.ratios, σ r.2 = Quantity.ratioAt ratio r.1

variable {s s' s'' : Progress} {free : List Label} {σ : Variable → ℚ} {place : Label → ℚ × ℚ}
  {ratio : Quantity → ℚ}

theorem Extends.refl (s : Progress) : s.Extends s := ⟨rfl, List.Subset.refl _⟩

theorem Extends.trans (h : s.Extends s') (h' : s'.Extends s'') : s.Extends s'' :=
  ⟨h'.steps.trans h.steps, List.Subset.trans h.ratios h'.ratios⟩

theorem ReadsAt.of_extends (h : s'.ReadsAt free σ place ratio) (hs : s.Extends s') :
    s.ReadsAt free σ place ratio := by
  refine ⟨fun l hl xy hxy => h.point l hl xy ?_, fun r hr => h.ratio r (hs.ratios hr)⟩
  unfold Protocol.get? at hxy ⊢
  rwa [hs.steps]

end Progress

namespace Prover

variable {m : Prover} {s s' : Progress} {q q' : Polynomial} {a b c l : Label} {v : Variable}
  {k : Quantity}

/-- A free ratio has its variable already, or gets the next one. -/
theorem returns_ratioVariable (h : Returns (ratioVariable k) s v s') :
    s' = s ∧ (k, v) ∈ s.ratios ∨
      s.ratios.lookup k = none ∧ v = .free s.protocol.freeIndex ∧
        s' = { s with protocol := s.protocol.nextFree.2, ratios := s.ratios ++ [(k, v)] } := by
  unfold ratioVariable at h
  obtain ⟨t, t', hget, h⟩ := returns_bind.1 h
  obtain ⟨rfl, rfl⟩ := returns_get.1 hget
  cases hlookup : t.ratios.lookup k with
  | some w =>
      rw [hlookup] at h
      obtain ⟨rfl, rfl⟩ := returns_pure.1 h
      obtain ⟨before, after, hratios, -⟩ := List.lookup_eq_some_iff.1 hlookup
      refine .inl ⟨rfl, ?_⟩
      rw [hratios]
      exact List.mem_append_right _ List.mem_cons_self
  | none =>
      rw [hlookup] at h
      obtain ⟨u, t', hset, h⟩ := returns_bind.1 h
      obtain ⟨rfl, rfl⟩ := returns_pure.1 h
      exact .inr ⟨rfl, rfl, returns_set.1 hset⟩

theorem freeCoordinates_eq_ok {p : Protocol} {xy : Variable × Variable}
    (h : m.freeCoordinates p l = .ok xy) :
    (p.get? l).bind Step.coordinates? = some xy ∧ l ∈ m.context.freePoints := by
  unfold freeCoordinates at h
  split at h
  next uv huv =>
    split at h
    next hfree =>
      cases h
      exact ⟨huv, List.contains_iff_mem.1 hfree⟩
    next => cases h
  next => cases h

/-- The polynomial of a template is its instance at the coordinates of free points. -/
theorem returns_inCoordinates {t : Template} (h : Returns (m.inCoordinates t a b c) s q s') :
    s' = s ∧ ∃ first second third, m.freeCoordinates s.protocol a = .ok first ∧
      m.freeCoordinates s.protocol b = .ok second ∧ m.freeCoordinates s.protocol c = .ok third ∧
      t.instantiate (fun r => [("A", first), ("B", second), ("C", third)].lookup r) = .ok q := by
  unfold inCoordinates at h
  obtain ⟨t', s₁, hget, h⟩ := returns_bind.1 h
  obtain ⟨rfl, rfl⟩ := returns_get.1 hget
  obtain ⟨first, s₂, ha, h⟩ := returns_bind.1 h
  obtain ⟨hfirst, rfl⟩ := returns_liftM.1 ha
  obtain ⟨second, s₃, hb, h⟩ := returns_bind.1 h
  obtain ⟨hsecond, rfl⟩ := returns_liftM.1 hb
  obtain ⟨third, s₄, hc, h⟩ := returns_bind.1 h
  obtain ⟨hthird, rfl⟩ := returns_liftM.1 hc
  dsimp only at h
  split at h
  next p hp =>
    obtain ⟨rfl, rfl⟩ := returns_pure.1 h
    exact ⟨rfl, first, second, third, hfirst, hsecond, hthird, hp⟩
  next => exact (not_returns_throw h).elim

theorem extends_ratioVariable (h : Returns (ratioVariable k) s v s') :
    s.Extends s' ∧ (k, v) ∈ s'.ratios := by
  rcases returns_ratioVariable h with ⟨rfl, hmem⟩ | ⟨-, -, rfl⟩
  · exact ⟨.refl _, hmem⟩
  · exact ⟨⟨rfl, List.subset_append_left _ _⟩, List.mem_append_right _ List.mem_cons_self⟩

/-- A ratio that has a polynomial is a free one. -/
theorem returns_ratioPolynomial {d : Label}
    (h : Returns (m.quantityPolynomial (.ratio a b c d)) s q s') :
    m.context.isParameter (.ratio a b c d) = .ok true ∧
      ∃ v, Returns (ratioVariable (.ratio a b c d)) s v s' ∧ q = .ofVariable v := by
  unfold quantityPolynomial at h
  obtain ⟨free, s₁, hlift, h⟩ := returns_bind.1 h
  obtain ⟨hfree, rfl⟩ := returns_liftM.1 hlift
  cases free with
  | false => exact (not_returns_throw h).elim
  | true =>
      obtain ⟨v, s₂, hv, h⟩ := returns_bind.1 h
      obtain ⟨rfl, rfl⟩ := returns_pure.1 h
      exact ⟨hfree, v, hv, rfl⟩

/-- A relation between states that one step of a computation after another keeps. -/
structure IsStepwise (R : Progress → Progress → Prop) : Prop where
  refl (s : Progress) : R s s
  trans {s t u : Progress} (h : R s t) (h' : R t u) : R s u

section Stepwise

variable {R : Progress → Progress → Prop} (hR : IsStepwise R)

include hR

theorem product_of_quantities {fs : Factors}
    (hf : ∀ f ∈ fs, ∀ s q s', Returns (m.quantityPolynomial f) s q s' → R s s')
    (h : Returns (m.productPolynomial q fs) s q' s') : R s s' := by
  induction fs generalizing q s with
  | nil =>
      obtain ⟨-, rfl⟩ := returns_pure.1 h
      exact hR.refl _
  | cons f fs ih =>
      obtain ⟨p, s₁, hp, h⟩ := returns_bind.1 h
      obtain ⟨hfirst, hrest⟩ := List.forall_mem_cons.1 hf
      exact hR.trans (hfirst _ _ _ hp) (ih hrest h)

theorem sum_of_quantities {ts : List (Factors × ℚ)}
    (hf : ∀ t ∈ ts, ∀ f ∈ t.1, ∀ s q s', Returns (m.quantityPolynomial f) s q s' → R s s')
    (h : Returns (m.sumPolynomial q ts) s q' s') : R s s' := by
  induction ts generalizing q s with
  | nil =>
      obtain ⟨-, rfl⟩ := returns_pure.1 h
      exact hR.refl _
  | cons t ts ih =>
      obtain ⟨p, s₁, hp, h⟩ := returns_bind.1 h
      obtain ⟨hfirst, hrest⟩ := List.forall_mem_cons.1 hf
      exact hR.trans (product_of_quantities hR hfirst hp) (ih hrest h)

end Stepwise

theorem isStepwise_extends : IsStepwise Progress.Extends := ⟨Progress.Extends.refl, .trans⟩

theorem extends_quantityPolynomial (h : Returns (m.quantityPolynomial k) s q s') : s.Extends s' := by
  cases k with
  | area a b c =>
      obtain ⟨rfl, -⟩ := returns_inCoordinates h
      exact .refl _
  | pythagoras a b c =>
      obtain ⟨rfl, -⟩ := returns_inCoordinates h
      exact .refl _
  | ratio a b c d =>
      obtain ⟨-, v, hv, -⟩ := returns_ratioPolynomial h
      exact (extends_ratioVariable hv).1

section Value

variable {σ : Variable → ℚ} {place : Label → ℚ × ℚ} {ratio : Quantity → ℚ}

theorem valueAt_quantityPolynomial (h : Returns (m.quantityPolynomial k) s q s')
    (hs : s'.ReadsAt m.context.freePoints σ place ratio) :
    q.valueAt σ = Quantity.valueAt place ratio k := by
  have hpoint {l : Label} {xy : Variable × Variable}
      (hl : m.freeCoordinates s'.protocol l = .ok xy) : place l = (σ xy.1, σ xy.2) := by
    obtain ⟨hxy, hfree⟩ := freeCoordinates_eq_ok hl
    exact hs.point l hfree xy hxy
  cases k with
  | area a b c =>
      obtain ⟨rfl, first, second, third, ha, hb, hc, hinstance⟩ := returns_inCoordinates h
      obtain ⟨-, rfl⟩ := Template.instantiate_eq_ok hinstance
      rw [Polynomial.valueAt_rename, Template.valueAt_signedArea, Quantity.valueAt, hpoint ha,
        hpoint hb, hpoint hc]
      simp [Template.roleValue, Template.assigned, Template.coordinate?, List.lookup]
  | pythagoras a b c =>
      obtain ⟨rfl, first, second, third, ha, hb, hc, hinstance⟩ := returns_inCoordinates h
      obtain ⟨-, rfl⟩ := Template.instantiate_eq_ok hinstance
      rw [Polynomial.valueAt_rename, Template.valueAt_pythagorasDifference, Quantity.valueAt,
        hpoint ha, hpoint hb, hpoint hc]
      simp [Template.roleValue, Template.assigned, Template.coordinate?, List.lookup]
  | ratio a b c d =>
      obtain ⟨-, v, hv, rfl⟩ := returns_ratioPolynomial h
      rw [Polynomial.valueAt_ofVariable]
      exact hs.ratio _ (extends_ratioVariable hv).2

theorem valueAt_productPolynomial {fs : Factors} (h : Returns (m.productPolynomial q fs) s q' s')
    (hs : s'.ReadsAt m.context.freePoints σ place ratio) :
    q'.valueAt σ = q.valueAt σ * (fs.map (Quantity.valueAt place ratio)).prod := by
  induction fs generalizing q s with
  | nil =>
      obtain ⟨rfl, rfl⟩ := returns_pure.1 h
      exact (mul_one _).symm
  | cons f fs ih =>
      obtain ⟨p, s₁, hp, h⟩ := returns_bind.1 h
      have hextends := product_of_quantities isStepwise_extends
        (fun _ _ _ _ _ hk => extends_quantityPolynomial hk) h
      rw [ih h, Polynomial.valueAt_mul, valueAt_quantityPolynomial hp (hs.of_extends hextends),
        List.map_cons, List.prod_cons, mul_assoc]

theorem valueAt_sumPolynomial {ts : List (Factors × ℚ)}
    (h : Returns (m.sumPolynomial q ts) s q' s')
    (hs : s'.ReadsAt m.context.freePoints σ place ratio) :
    q'.valueAt σ = q.valueAt σ +
      (ts.map fun t => Expansion.termValue (Quantity.valueAt place ratio) t.1 t.2).sum := by
  induction ts generalizing q s with
  | nil =>
      obtain ⟨rfl, rfl⟩ := returns_pure.1 h
      exact (add_zero _).symm
  | cons t ts ih =>
      obtain ⟨p, s₁, hp, h⟩ := returns_bind.1 h
      have hextends := sum_of_quantities isStepwise_extends
        (fun _ _ _ _ _ _ _ hk => extends_quantityPolynomial hk) h
      rw [ih h, Polynomial.valueAt_add, valueAt_productPolynomial hp (hs.of_extends hextends),
        Polynomial.valueAt_constant, List.map_cons, List.sum_cons, add_assoc]
      rfl

end Value

end Prover

end Planimetry.Area
