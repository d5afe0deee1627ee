import Planimetry.Degeneracy
import Planimetry.Proofs.Polynomial.Value

/-! Non-degeneracy conditions: those that are told keep all polynomials away from zero that are no
constants. -/

namespace Planimetry.Protocol

variable {p : Protocol} {maxPoints : Int} {done ns : List Nondegeneracy} {events events' : List Event}
  {q : Polynomial} {qs : List Polynomial}

/-- What becomes of one polynomial: it is left out as a constant or a multiple of an earlier one, else told
with or without a reading. -/
theorem explainOnto_cons (h : p.explainOnto maxPoints done events (q :: qs) = (.ok ns, events')) :
    ((q.isConstant = true ∨ ∃ n ∈ done, n.polynomial.isProportional q = true) ∧
      p.explainOnto maxPoints done events qs = (.ok ns, events')) ∨
    (q.isConstant = false ∧ ∀ n ∈ done, n.polynomial.isProportional q = false) ∧
      ∃ n events'', n.polynomial = q ∧
        p.explainOnto maxPoints (done ++ [n]) events'' qs = (.ok ns, events') := by
  unfold explainOnto at h
  split at h
  next hskip =>
    rw [Bool.or_eq_true, List.any_eq_true] at hskip
    exact .inl ⟨hskip, h⟩
  next hnew =>
    rw [Bool.or_eq_true, not_or, Bool.not_eq_true, Bool.not_eq_true, List.any_eq_false] at hnew
    refine .inr ⟨⟨hnew.1, fun n hn => Bool.eq_false_iff.2 (hnew.2 n hn)⟩, ?_⟩
    split at h
    next => cases h
    next r _ => exact ⟨_, _, rfl, h⟩
    next => exact ⟨_, _, rfl, h⟩

theorem mem_explainOnto (h : p.explainOnto maxPoints done events qs = (.ok ns, events')) :
    ∀ n ∈ done, n ∈ ns := by
  induction qs generalizing done events with
  | nil =>
      cases h
      exact fun n hn => hn
  | cons q qs ih =>
      rcases explainOnto_cons h with ⟨-, h⟩ | ⟨-, n, events'', -, h⟩
      · exact ih h
      · exact fun m hm => ih h m (List.mem_append_left _ hm)

/-- The polynomials that are told were candidates. -/
theorem mem_of_explainOnto (h : p.explainOnto maxPoints done events qs = (.ok ns, events')) :
    ∀ n ∈ ns, n ∈ done ∨ n.polynomial ∈ qs := by
  induction qs generalizing done events with
  | nil =>
      cases h
      exact fun n hn => .inl hn
  | cons q qs ih =>
      intro n hn
      rcases explainOnto_cons h with ⟨-, hrest⟩ | ⟨-, m, events'', hm, hrest⟩
      · exact (ih hrest n hn).imp_right (List.mem_cons_of_mem _)
      · rcases ih hrest n hn with hn | hn
        · rcases List.mem_append.1 hn with hn | hn
          · exact .inl hn
          · rw [List.mem_singleton.1 hn, hm]
            exact .inr List.mem_cons_self
        · exact .inr (List.mem_cons_of_mem _ hn)

/-- No condition is told of constants. -/
theorem explainOnto_of_isConstant (h : qs.all Polynomial.isConstant = true) :
    p.explainOnto maxPoints done events qs = (.ok done, events) := by
  induction qs with
  | nil => rfl
  | cons q qs ih =>
      rw [List.all_cons, Bool.and_eq_true] at h
      unfold explainOnto
      rw [if_pos (Bool.or_eq_true_iff.2 (.inl h.1))]
      exact ih h.2

/-- Each polynomial is told itself, or has an earlier multiple that is, unless it is a constant. -/
theorem exists_proportional_explainOnto
    (h : p.explainOnto maxPoints done events qs = (.ok ns, events')) (hq : q ∈ qs)
    (hconstant : q.isConstant = false) :
    ∃ n ∈ ns, n.polynomial = q ∨ n.polynomial.isProportional q = true := by
  induction qs generalizing done events with
  | nil => cases hq
  | cons q' qs ih =>
      rcases explainOnto_cons h with ⟨hskip, hrest⟩ | ⟨-, n, events'', hn, hrest⟩
      · rcases List.mem_cons.1 hq with rfl | hq
        · rcases hskip with hskip | ⟨n, hn, hproportional⟩
          · rw [hconstant] at hskip
            cases hskip
          · exact ⟨n, mem_explainOnto hrest n hn, .inr hproportional⟩
        · exact ih hrest hq
      · rcases List.mem_cons.1 hq with rfl | hq
        · have hmem : n ∈ done ++ [n] := List.mem_append_right _ (List.mem_singleton_self n)
          exact ⟨n, mem_explainOnto hrest n hmem, .inl hn⟩
        · exact ih hrest hq

/-- Nothing is told exactly if there are constants only. -/
theorem isEmpty_of_explainAll (h : p.explainAll maxPoints qs = (.ok ns, events')) :
    ns.isEmpty = qs.all Polynomial.isConstant := by
  cases hall : qs.all Polynomial.isConstant with
  | true =>
      unfold explainAll at h
      rw [explainOnto_of_isConstant hall] at h
      cases h
      rfl
  | false =>
      obtain ⟨q, hq, hconstant⟩ := List.all_eq_false.1 hall
      obtain ⟨n, hn, -⟩ :=
        exists_proportional_explainOnto h hq (Bool.eq_false_iff.2 hconstant)
      exact List.isEmpty_eq_false_iff.2 (List.ne_nil_of_mem hn)

/-- Where the conditions hold, no polynomial vanishes, apart from constants. -/
theorem valueAt_ne_zero_of_explainAll {K : Type*} [Field K] [Algebra ℚ K] {σ : Variable → K}
    (h : p.explainAll maxPoints qs = (.ok ns, events')) (hq : q ∈ qs)
    (hconstant : q.isConstant = false) (hns : ∀ n ∈ ns, n.polynomial.valueAt σ ≠ 0) :
    q.valueAt σ ≠ 0 := by
  obtain ⟨n, hn, rfl | hproportional⟩ := exists_proportional_explainOnto h hq hconstant
  · exact hns n hn
  · intro hz
    refine hns n hn (Polynomial.valueAt_eq_zero_of_isProportional hproportional ?_ hz)
    rintro rfl
    cases hconstant

end Planimetry.Protocol
