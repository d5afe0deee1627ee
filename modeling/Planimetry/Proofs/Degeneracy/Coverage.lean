import Planimetry.Proofs.Polynomial.Proportional
import Planimetry.Proofs.Totality

/-! The conditions that are told stand for all polynomials that are no constants, each of these and all its
multiples being told once. -/

namespace Planimetry

namespace Polynomial

variable {p q r : Polynomial}

/-- One polynomial is the other one times a number other than zero. -/
def IsMultiple (p q : Polynomial) : Prop := ∃ k : ℚ, k ≠ 0 ∧ q = p.scale k

theorem isProportional_iff_isMultiple : p.isProportional q = true ↔ p.IsMultiple q :=
  isProportional_iff_exists_scale

theorem not_isMultiple_iff : ¬p.IsMultiple q ↔ p.isProportional q = false := by
  rw [← isProportional_iff_isMultiple, Bool.not_eq_true]

theorem IsMultiple.refl (p : Polynomial) : p.IsMultiple p :=
  isProportional_iff_isMultiple.1 (isProportional_refl p)

theorem isConstant_scale {k : ℚ} (hk : k ≠ 0) (p : Polynomial) :
    (p.scale k).isConstant = p.isConstant := by
  unfold isConstant
  rw [entries_scale hk, List.all_map]
  rfl

theorem IsMultiple.isConstant_eq (h : p.IsMultiple q) : q.isConstant = p.isConstant := by
  obtain ⟨k, hk, rfl⟩ := h
  exact isConstant_scale hk p

theorem IsMultiple.symm (h : p.IsMultiple q) : q.IsMultiple p :=
  isProportional_iff_isMultiple.1 (isProportional_symm (isProportional_iff_isMultiple.2 h))

theorem IsMultiple.trans (h : p.IsMultiple q) (h' : q.IsMultiple r) : p.IsMultiple r :=
  isProportional_iff_isMultiple.1 (isProportional_trans (isProportional_iff_isMultiple.2 h)
    (isProportional_iff_isMultiple.2 h'))

/-- The polynomial has a value at the assignment, and it is not zero. -/
def IsNonzeroAt (s : Variable → Option ℚ) (p : Polynomial) : Prop := ∃ a, a ≠ 0 ∧ p.eval? s = some a

theorem IsMultiple.isNonzeroAt {s : Variable → Option ℚ} (h : p.IsMultiple q) (hp : p.IsNonzeroAt s) :
    q.IsNonzeroAt s := by
  obtain ⟨k, hk, rfl⟩ := h
  obtain ⟨a, ha, heval⟩ := hp
  exact ⟨k * a, mul_ne_zero hk ha, eval?_scale k heval⟩

theorem IsMultiple.valueAt_ne_zero {K : Type*} [Field K] [Algebra ℚ K] {σ : Variable → K}
    (h : p.IsMultiple q) (hp : p.valueAt σ ≠ 0) : q.valueAt σ ≠ 0 := by
  obtain ⟨k, hk, rfl⟩ := h
  rw [valueAt_scale]
  exact mul_ne_zero ((map_ne_zero (algebraMap ℚ K)).2 hk) hp

end Polynomial

variable {p : Protocol} {maxPoints : Int} {done ns : List Nondegeneracy} {events events' : List Event}
  {q : Polynomial} {qs : List Polynomial} {n : Nondegeneracy}

/-- The conditions are on polynomials of a list, in their order: on those that are no constants and no multiples
of earlier ones. -/
structure Selects (ns : List Nondegeneracy) (qs : List Polynomial) : Prop where
  nonconstant : ∀ n ∈ ns, n.polynomial.isConstant = false
  pairwise : ns.Pairwise fun m n => ¬m.polynomial.IsMultiple n.polynomial
  sublist : (ns.map Nondegeneracy.polynomial).Sublist qs
  first : ∀ n ∈ ns, ∃ before after, qs = before ++ n.polynomial :: after ∧
    ∀ q ∈ before, ¬n.polynomial.IsMultiple q
  covered : ∀ q ∈ qs, q.isConstant = false → ∃ n ∈ ns, n.polynomial.IsMultiple q

namespace Selects

theorem nil : Selects [] [] :=
  { nonconstant := List.forall_mem_nil _
    pairwise := .nil
    sublist := .slnil
    first := List.forall_mem_nil _
    covered := List.forall_mem_nil _ }

/-- A later polynomial does not change which one is the first of its multiples. -/
theorem first_append (h : Selects ns qs) (q : Polynomial) (hn : n ∈ ns) :
    ∃ before after, qs ++ [q] = before ++ n.polynomial :: after ∧
      ∀ q ∈ before, ¬n.polynomial.IsMultiple q := by
  obtain ⟨before, after, rfl, hbefore⟩ := h.first n hn
  exact ⟨before, after ++ [q], by rw [List.append_assoc, List.cons_append], hbefore⟩

/-- One more polynomial is left out if it is a constant or a multiple of one that was taken. -/
theorem skip (h : Selects ns qs)
    (hq : q.isConstant = true ∨ ∃ n ∈ ns, n.polynomial.IsMultiple q) : Selects ns (qs ++ [q]) :=
  { nonconstant := h.nonconstant
    pairwise := h.pairwise
    sublist := h.sublist.trans (List.sublist_append_left qs [q])
    first := fun _ hn => h.first_append q hn
    covered := by
      intro r hr hconstant
      rcases List.mem_append.1 hr with hr | hr
      · exact h.covered r hr hconstant
      · obtain rfl := List.mem_singleton.1 hr
        rcases hq with hq | hq
        · rw [hq] at hconstant
          cases hconstant
        · exact hq }

/-- Otherwise it is taken. -/
theorem keep (h : Selects ns qs) (hconstant : n.polynomial.isConstant = false)
    (hnew : ∀ m ∈ ns, ¬m.polynomial.IsMultiple n.polynomial) :
    Selects (ns ++ [n]) (qs ++ [n.polynomial]) :=
  { nonconstant := List.forall_mem_append.2 ⟨h.nonconstant, List.forall_mem_singleton.2 hconstant⟩
    pairwise := List.pairwise_append.2 ⟨h.pairwise, List.pairwise_singleton _ _,
      fun m hm _ hn => List.mem_singleton.1 hn ▸ hnew m hm⟩
    sublist := by
      rw [List.map_append]
      exact h.sublist.append (List.Sublist.refl _)
    first := by
      intro m hm
      rcases List.mem_append.1 hm with hm | hm
      · exact h.first_append n.polynomial hm
      · obtain rfl := List.mem_singleton.1 hm
        refine ⟨qs, [], rfl, fun q hq hmultiple => ?_⟩
        -- the conditions would have stood for an earlier multiple, and so for this polynomial
        obtain ⟨m', hm', hq⟩ := h.covered q hq (hmultiple.isConstant_eq.trans hconstant)
        exact hnew m' hm' (hq.trans hmultiple.symm)
    covered := by
      intro q hq hconstant
      rcases List.mem_append.1 hq with hq | hq
      · obtain ⟨m, hm, hmultiple⟩ := h.covered q hq hconstant
        exact ⟨m, List.mem_append_left _ hm, hmultiple⟩
      · obtain rfl := List.mem_singleton.1 hq
        exact ⟨n, List.mem_append_right _ (List.mem_singleton_self n), .refl _⟩ }

variable (h : Selects ns qs)
include h

theorem existsUnique (hq : q ∈ qs) (hconstant : q.isConstant = false) :
    ∃! n, n ∈ ns ∧ n.polynomial.IsMultiple q := by
  obtain ⟨n, hn, hmultiple⟩ := h.covered q hq hconstant
  refine ⟨n, ⟨hn, hmultiple⟩, fun m ⟨hm, hmultiple'⟩ => ?_⟩
  by_contra hne
  have : Std.Symm fun m n : Nondegeneracy => ¬m.polynomial.IsMultiple n.polynomial :=
    ⟨fun _ _ h h' => h h'.symm⟩
  exact h.pairwise.forall hm hn hne (hmultiple'.trans hmultiple.symm)

/-- What holds of a polynomial with all its multiples holds of the polynomials in the conditions if and only if
it does of all that are no constants. -/
theorem forall_iff {P : Polynomial → Prop} (hP : ∀ p q : Polynomial, p.IsMultiple q → P p → P q) :
    (∀ n ∈ ns, P n.polynomial) ↔ ∀ q ∈ qs, q.isConstant = false → P q := by
  constructor
  · intro hns q hq hconstant
    obtain ⟨n, hn, hmultiple⟩ := h.covered q hq hconstant
    exact hP _ _ hmultiple (hns n hn)
  · intro hqs n hn
    exact hqs _ (h.sublist.subset (List.mem_map_of_mem hn)) (h.nonconstant n hn)

end Selects

/-- The conditions tell exactly once of each polynomial that is no constant, and hold where none of these
vanishes. -/
structure Covers (ns : List Nondegeneracy) (qs : List Polynomial) : Prop extends Selects ns qs where
  existsUnique : ∀ q ∈ qs, q.isConstant = false → ∃! n, n ∈ ns ∧ n.polynomial.IsMultiple q
  isNonzeroAt : ∀ s : Variable → Option ℚ, (∀ n ∈ ns, n.polynomial.IsNonzeroAt s) ↔
    ∀ q ∈ qs, q.isConstant = false → q.IsNonzeroAt s
  valueAt_ne_zero : ∀ (K : Type) [Field K] [Algebra ℚ K] (σ : Variable → K),
    (∀ n ∈ ns, n.polynomial.valueAt σ ≠ 0) ↔ ∀ q ∈ qs, q.isConstant = false → q.valueAt σ ≠ 0

theorem Selects.covers (h : Selects ns qs) : Covers ns qs :=
  { h with
    existsUnique := fun _ => h.existsUnique
    isNonzeroAt := fun _ => h.forall_iff fun _ _ hmultiple => hmultiple.isNonzeroAt
    valueAt_ne_zero := fun _ _ _ _ => h.forall_iff fun _ _ hmultiple => hmultiple.valueAt_ne_zero }

namespace Protocol

theorem Selects.explainOnto {seen : List Polynomial} (hdone : Selects done seen)
    (h : p.explainOnto maxPoints done events qs = (.ok ns, events')) : Selects ns (seen ++ qs) := by
  induction qs generalizing done events seen with
  | nil =>
      cases h
      rwa [List.append_nil]
  | cons q qs ih =>
      rw [List.append_cons]
      rcases explainOnto_cons h with ⟨hskip, hrest⟩ | ⟨⟨hconstant, hnew⟩, n, events'', rfl, hrest⟩
      · exact ih (hdone.skip (hskip.imp_right fun ⟨n, hn, hmultiple⟩ =>
          ⟨n, hn, Polynomial.isProportional_iff_isMultiple.1 hmultiple⟩)) hrest
      · exact ih (hdone.keep hconstant fun m hm => Polynomial.not_isMultiple_iff.2 (hnew m hm)) hrest

/-- The conditions that are told stand for all polynomials that are no constants, each told of once with its
multiples; and they are told unless a point has the label of a statement with which polynomials are compared. -/
theorem covers_explainAll (p : Protocol) (maxPoints : Int) (qs : List Polynomial) :
    (∀ ns, (p.explainAll maxPoints qs).1 = .ok ns → Covers ns qs) ∧
      ((p.steps.map Step.label).Nodup →
        ∀ e, (p.explainAll maxPoints qs).1 = .error e → p.IsMislabelled e) := by
  unfold explainAll
  rcases hresult : p.explainOnto maxPoints [] [] qs with ⟨e | ns, events⟩
  · refine ⟨nofun, fun hp e' he => ?_⟩
    cases he
    exact isMislabelled_of_explainOnto hp hresult
  · refine ⟨fun ns' hns => ?_, fun _ => nofun⟩
    cases hns
    exact (Selects.explainOnto .nil hresult).covers

/-- Two points, with the polynomials that vanish where their coordinates agree. -/
def twoPoints : Protocol := (Transformation.run ⟨figure [("A", .point .free), ("B", .point .free)],
  [], [], true, false⟩).2.protocol

def differences : List Polynomial :=
  let x : Polynomial := .ofVariable (.free 3) - .ofVariable (.free 1)
  let y : Polynomial := .ofVariable (.free 4) - .ofVariable (.free 2)
  [x, 1, x.scale 3, y, x, y.scale (-1)]

/-- Of the two differences, a constant and their multiples, the two differences are told. -/
theorem covers_explainAll_twoPoints : (twoPoints.steps.map Step.label).Nodup ∧
    ∃ ns, (twoPoints.explainAll 4 differences).1 = .ok ns ∧ Covers ns differences ∧ ns.length = 2 := by
  have hlabels : (twoPoints.steps.map Step.label).Nodup := by decide +kernel
  have hcount : (twoPoints.explainAll 4 differences).1.toOption.map List.length = some 2 := by
    decide +kernel
  refine ⟨hlabels, ?_⟩
  obtain ⟨hcovers, -⟩ := covers_explainAll twoPoints 4 differences
  cases h : (twoPoints.explainAll 4 differences).1 with
  | error e =>
      rw [h] at hcount
      cases hcount
  | ok ns =>
      rw [h] at hcount
      exact ⟨ns, rfl, hcovers ns h, Option.some.inj hcount⟩

end Protocol

end Planimetry
