import Planimetry.Proofs.Area.Failure
import Planimetry.Proofs.Area.Independence
import Planimetry.Proofs.Area.Resemblance

/-! Expanded forms under other names: other quantities may be canonical, but the values are those under the
first names, and so are those of the polynomials in coordinates. -/

namespace Planimetry.Area

variable {f : Label → Label} {ν : Quantity → ℚ} {π : Equiv.Perm Label} {q k : Quantity} {o : Oriented}

namespace Quantity

theorem relabel_relabel (f g : Label → Label) (q : Quantity) :
    (q.relabel f).relabel g = q.relabel (g ∘ f) := by
  cases q <;> rfl

theorem relabel_id (q : Quantity) : q.relabel id = q := by cases q <;> rfl

theorem IsRegular.relabel (hf : f.Injective) (h : q.IsRegular) : (q.relabel f).IsRegular := by
  cases q with
  | ratio a b c d => exact hf.ne h
  | _ => trivial

end Quantity

namespace Expr

variable {e : Expr} {s s' : Expansion}

theorem valueAt_relabel (f : Label → Label) (ν : Quantity → ℚ) (e : Expr) :
    (e.relabel f).valueAt ν = e.valueAt fun q => ν (q.relabel f) := by
  induction e with
  | number q => rfl
  | atom q => rfl
  | add l r ihl ihr => exact congr_arg₂ (· + ·) ihl ihr
  | sub l r ihl ihr => exact congr_arg₂ (· - ·) ihl ihr
  | mul l r ihl ihr => exact congr_arg₂ (· * ·) ihl ihr
  | div l r ihl ihr => exact congr_arg₂ (· / ·) ihl ihr
  | neg e ih => exact congr_arg (- ·) ih
  | elim e p ih => exact ih

theorem IsRegular.relabel (hf : f.Injective) (h : e.IsRegular) : (e.relabel f).IsRegular := by
  induction e with
  | number q => trivial
  | atom q => exact Quantity.IsRegular.relabel hf h
  | add l r ihl ihr | sub l r ihl ihr | mul l r ihl ihr | div l r ihl ihr => exact ⟨ihl h.1, ihr h.2⟩
  | neg e ih => exact ih h
  | elim e p _ => exact h.elim

/-- The value of a normal form is that of the numerator. -/
theorem valueAt_normalForm (hν : RespectsOrientation ν) (he : e.IsRegular) (h : e.normalForm = .ok s) :
    s.valueAt ν = e.numerator.rightAssociative.valueAt ν := by
  have hplain : e.numerator.rightAssociative.IsPlain Quantity.IsRegular :=
    (numerator_eq e ▸ he.split.1).rightAssociative
  exact hplain.valueAt_expand hν h

end Expr

namespace Expansion

variable {s s' : Expansion}

/-- A form has the values of another one under other names. -/
def Mirrors (f : Label → Label) (s s' : Expansion) : Prop :=
  ∀ ν, RespectsOrientation ν → s'.valueAt ν = s.valueAt fun q => ν (q.relabel f)

theorem mirrors_normalForm (hf : f.Injective) {e : Expr} (he : e.IsRegular) (h : e.normalForm = .ok s)
    (h' : (e.relabel f).normalForm = .ok s') : s.Mirrors f s' := by
  intro ν hν
  rw [Expr.valueAt_normalForm hν (he.relabel hf) h',
    Expr.valueAt_normalForm (hν.relabel hf) he h, Expr.numerator_relabel hf, Expr.valueAt_relabel]

theorem Mirrors.symm (h : s.Mirrors π s') : s'.Mirrors π.symm s := by
  intro ν hν
  rw [h _ (hν.relabel π.symm.injective)]
  refine congr_arg (fun μ => s.valueAt μ) (funext fun q => ?_)
  rw [Quantity.relabel_relabel, Equiv.symm_comp_self, Quantity.relabel_id]

/-- A form is zero where its mirror image is. -/
theorem Mirrors.isZero_eq (h : s.Mirrors π s') (hs : s.IsCanonical) (hs' : s'.IsCanonical) :
    s'.isZero = s.isZero := by
  have himp {π : Equiv.Perm Label} {s s' : Expansion} (h : s.Mirrors π s') (hs' : s'.IsCanonical)
      (hzero : s.isZero = true) : s'.isZero = true :=
    hs'.isZero fun ν hν => by rw [h ν hν, Sparse.isZero_iff.1 hzero]; rfl
  exact Bool.eq_iff_iff.2 ⟨himp h.symm hs, himp h hs'⟩

/-- What holds of the quantities of a form holds of those of its mirror image, if it does not depend on the
names and the orientation. -/
theorem Mirrors.forall_mem (h : s.Mirrors f s') (hf : f.Injective) (hs : s.IsCanonical)
    (hs' : s'.IsCanonical) {R R' : Quantity → Prop} (hR : ∀ q, R q → R' (q.relabel f))
    (horient : ∀ q o k, R' q → q.orient = .ok o → o.quantity = some k → R' k)
    (hall : ∀ t ∈ s.entries, ∀ q ∈ t.1, R q) : ∀ t ∈ s'.entries, ∀ q ∈ t.1, R' q := by
  refine hs'.forall_mem fun ν ν' hν hν' heq => ?_
  rw [h ν hν, h ν' hν']
  refine congr_arg List.sum (List.map_congr_left fun t ht => ?_)
  refine congr_arg (fun l : List ℚ => t.2 * l.prod) (List.map_congr_left fun q hq => ?_)
  have hregular := ((hs t ht).quantities q hq).isRegular.relabel hf
  obtain ⟨o, ho⟩ := hregular.exists_orient
  rw [hν _ _ ho, hν' _ _ ho]
  unfold Oriented.valueAt
  cases hk : o.quantity with
  | none => rfl
  | some k =>
      refine congr_arg (o.factor * ·) (heq k (Quantity.isCanonical_orient ho hk) ?_)
      exact horient _ o k (hR q (hall t ht q hq)) ho hk

end Expansion

/-! ### Coordinates -/

namespace Prover

variable {m m' : Prover} {p p' : Protocol}

/-- Orientation leads from quantities with polynomials to such quantities. -/
theorem Reads.orient (h : m.Reads p q) (ho : q.orient = .ok o) (hk : o.quantity = some k) :
    m.Reads p k := by
  cases q with
  | area a b c =>
      cases ho
      obtain ⟨x, y, z, -, -, rfl, hsub⟩ := Quantity.orientArea_eq_some hk
      exact fun l hl => h l (hsub hl)
  | pythagoras a b c =>
      cases ho
      obtain ⟨x, y, z, rfl, hsub⟩ := Quantity.orientPythagoras_eq_some hk
      exact fun l hl => h l (hsub hl)
  | ratio a b c d =>
      obtain ⟨-, hcanonical, s, t, u, v, rfl, -⟩ := Quantity.orient_ratio ho k hk
      have h : m.context.isParameter (.ratio a b c d) = .ok true := h
      change m.context.isParameter (.ratio s t u v) = .ok true
      rw [Context.isParameter_ratio, ho] at h
      rw [Context.isParameter_ratio, hcanonical]
      exact hk ▸ h

/-- The same points are free and have coordinates under other names, and the same ratios are free. -/
structure Accords (f : Label → Label) (m m' : Prover) (p p' : Protocol) : Prop where
  points (l : Label) : (m'.freeCoordinates p' (f l)).toOption = (m.freeCoordinates p l).toOption
  ratios (q : Quantity) : (m'.context.isParameter (q.relabel f)).toOption =
    (m.context.isParameter q).toOption

theorem Accords.reads_iff (h : Accords f m m' p p') (q : Quantity) :
    m'.Reads p' (q.relabel f) ↔ m.Reads p q := by
  have hpoint (l : Label) : (∃ xy, m'.freeCoordinates p' (f l) = .ok xy) ↔
      ∃ xy, m.freeCoordinates p l = .ok xy := by
    simp only [← toOption_eq_some, h.points]
  cases q with
  | area a b c => simp only [Quantity.relabel, Reads, List.forall_mem_cons, hpoint]; simp
  | pythagoras a b c => simp only [Quantity.relabel, Reads, List.forall_mem_cons, hpoint]; simp
  | ratio a b c d =>
      change m'.context.isParameter (Quantity.relabel f (.ratio a b c d)) = .ok true ↔
        m.context.isParameter (.ratio a b c d) = .ok true
      rw [← toOption_eq_some, h.ratios (.ratio a b c d), toOption_eq_some]

theorem Accords.symm (h : Accords π m m' p p') : Accords π.symm m' m p' p where
  points l := by
    have hl := h.points (π.symm l)
    rw [Equiv.apply_symm_apply] at hl
    exact hl.symm
  ratios q := by
    have hq := h.ratios (q.relabel π.symm)
    rw [Quantity.relabel_relabel, Equiv.self_comp_symm, Quantity.relabel_id] at hq
    exact hq.symm

section Values

variable {c c' : Context} {s s' : Progress} {σ : Variable → ℚ}

/-- The values of the variables that stand for free ratios. -/
def ratioValue (rs : List (Quantity × Variable)) (σ : Variable → ℚ) (k : Quantity) : ℚ :=
  (rs.lookup k).elim 0 σ

/-- Any values of the variables are coordinates of points and values of free ratios. -/
theorem readsAt_placeFrom (free : List Label) (hs : s.IsFresh c p) (σ : Variable → ℚ) :
    s.ReadsAt free σ (placeFrom s.protocol σ) (ratioValue s.ratios σ) where
  point l _ xy hxy := by
    unfold placeFrom
    rw [hxy]
  ratio r hr := by
    rw [Quantity.ratioAt_of_isCanonical (hs.canonical r hr).1, ratioValue, lookup_of_mem hs.keys hr]
    rfl

theorem valueAt_relabel (hf : f.Injective) (place : Label → ℚ × ℚ) (ratio : Quantity → ℚ) :
    Quantity.valueAt (fun l => place (f l)) (fun k => Quantity.valueAt place ratio (k.relabel f)) =
      fun k => Quantity.valueAt place ratio (k.relabel f) := by
  funext k
  cases k with
  | area a b c => rfl
  | pythagoras a b c => rfl
  | ratio a b c d =>
      change Quantity.ratioAt (fun k => Quantity.valueAt place ratio (k.relabel f)) (.ratio a b c d) =
        Quantity.ratioAt ratio (.ratio (f a) (f b) (f c) (f d))
      by_cases hcd : c = d
      · have hempty (ratio : Quantity → ℚ) (a b c : Label) : Quantity.ratioAt ratio (.ratio a b c c) = 0 := by
          unfold Quantity.ratioAt
          rw [show Quantity.orient (.ratio a b c c) = .error _ from if_pos rfl]
        rw [hcd, hempty, hempty]
      · obtain ⟨o, ho⟩ := Quantity.IsRegular.exists_orient (q := .ratio a b c d) hcd
        rw [Quantity.ratioAt_eq ho]
        exact (((respectsOrientation_valueAt place ratio).relabel hf) _ o ho).symm

/-- Variables stand for the same coordinates under other names, and those of free ratios can have any
values: so a form has all values that its mirror image has. -/
theorem exists_valueAt_eq {form form' : Expansion} {q q' : Polynomial} {t t' : Progress}
    (hf : f.Injective) (hmirrors : form.Mirrors f form') (h : Accords f m m' p p')
    (hknown : Trial.CoordinatesSatisfy p.Knows p) (hq : Returns (m.toPolynomial form) s q s')
    (hq' : Returns (m'.toPolynomial form') t q' t') (hs : s'.IsFresh m.context p)
    (ht : t'.IsFresh m'.context p') (σ : Variable → ℚ) : ∃ τ, q.valueAt τ = q'.valueAt σ := by
  have hread := readsAt_placeFrom m'.context.freePoints ht σ
  let place (l : Label) : ℚ × ℚ := placeFrom t'.protocol σ (f l)
  let ratio (k : Quantity) : ℚ :=
    Quantity.valueAt (placeFrom t'.protocol σ) (ratioValue t'.ratios σ) (k.relabel f)
  let τ := withRatios s'.ratios (Quantity.ratioAt ratio) σ
  have hτ : s'.ReadsAt m.context.freePoints τ place ratio := by
    refine ⟨fun l hl xy hxy => ?_, fun r hr => withRatios_of_mem hs.nodup hr⟩
    have hget : s'.protocol.get? l = p.get? l := by rw [Protocol.get?, hs.steps, Protocol.get?]
    have hget' : t'.protocol.get? (f l) = p'.get? (f l) := by
      rw [Protocol.get?, ht.steps, Protocol.get?]
    rw [hget] at hxy
    have hl : m.freeCoordinates p l = .ok xy := by
      unfold freeCoordinates
      rw [hxy]
      exact if_pos (List.contains_iff_mem.2 hl)
    have hl' : m'.freeCoordinates p' (f l) = .ok xy := by
      rw [← toOption_eq_some, h.points, hl]
      rfl
    have hplace : place l = (σ xy.1, σ xy.2) := by
      simp only [place, placeFrom, hget', (freeCoordinates_eq_ok hl').1]
    obtain ⟨u, hu, hxy⟩ := Option.bind_eq_some_iff.1 hxy
    obtain ⟨hx, hy⟩ := Trial.coordinates?_eq_some hxy
    obtain ⟨hknownx, hknowny⟩ := hknown u (Protocol.mem_of_get? hu).1
    rw [hplace]
    exact Prod.ext (withRatios_of_knows hs (hknownx _ hx)).symm
      (withRatios_of_knows hs (hknowny _ hy)).symm
  refine ⟨τ, ?_⟩
  rw [valueAt_toPolynomial hq hτ, valueAt_toPolynomial hq' hread,
    hmirrors _ (respectsOrientation_valueAt _ _)]
  exact congr_arg form.valueAt (valueAt_relabel hf _ _)

omit c c' in
/-- A polynomial that has all values of another one tells whether that is constant. -/
theorem eq_constant_of_valueAt {q q' : Polynomial} (h : ∀ σ : Variable → ℚ, ∃ τ : Variable → ℚ,
    q.valueAt τ = q'.valueAt σ) {x : ℚ} (hq : q = .constant x) : q' = .constant x := by
  refine Polynomial.toMv_injective (MvPolynomial.funext fun σ => ?_)
  obtain ⟨τ, hτ⟩ := h σ
  rw [hq, Polynomial.valueAt_constant] at hτ
  rw [← MvPolynomial.aeval_eq_eval]
  exact hτ.symm.trans (Polynomial.valueAt_constant ..).symm

/-- The polynomials of a form and of its mirror image are both zero or not, and both constant or not. -/
theorem isZero_toPolynomial {form form' : Expansion} {q q' : Polynomial} {t t' : Progress}
    (hmirrors : form.Mirrors π form') (h : Accords π m m' p p')
    (hknown : Trial.CoordinatesSatisfy p.Knows p) (hknown' : Trial.CoordinatesSatisfy p'.Knows p')
    (hq : Returns (m.toPolynomial form) s q s') (hq' : Returns (m'.toPolynomial form') t q' t')
    (hs : s'.IsFresh m.context p) (ht : t'.IsFresh m'.context p') :
    q'.isZero = q.isZero ∧ q'.isConstant = q.isConstant := by
  have hconstant (x : ℚ) : q' = .constant x ↔ q = .constant x :=
    ⟨eq_constant_of_valueAt (exists_valueAt_eq π.symm.injective hmirrors.symm h.symm hknown' hq' hq ht hs),
      eq_constant_of_valueAt (exists_valueAt_eq π.injective hmirrors h hknown hq hq' hs ht)⟩
  constructor
  · rw [Bool.eq_iff_iff, Sparse.isZero_iff, Sparse.isZero_iff]
    exact hconstant 0
  · have hiff {q : Polynomial} : q.isConstant = true ↔ ∃ x, q = .constant x :=
      ⟨Polynomial.eq_constant_of_isConstant, fun ⟨x, hx⟩ => hx ▸ Polynomial.isConstant_constant x⟩
    rw [Bool.eq_iff_iff, hiff, hiff]
    exact exists_congr hconstant

end Values

end Prover

end Planimetry.Area
