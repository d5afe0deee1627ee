import Planimetry.Proofs.Transformation.Pass

/-! The hypotheses of a pass are in variables that were given out, and so is the polynomial of the statement. -/

namespace Planimetry

namespace Trial

variable {p : Protocol} {t t' : Trial} {cs : List Condition} {P : Variable → Prop}

/-- The coordinates of the point and the hypotheses are in variables with a property. -/
structure IsIn (P : Variable → Prop) (t : Trial) : Prop where
  coordinates : ∀ v, t.IsCoordinate v → P v
  hypotheses : ∀ h ∈ t.hypotheses, ∀ v ∈ h.vars, P v

theorem IsIn.absorb {q : Polynomial} (ht : t.IsIn P) (hq : ∀ v ∈ q.vars, P v) : (t.absorb q).IsIn P := by
  refine ⟨satisfy_absorb ht.coordinates hq, ?_⟩
  rcases t.absorb_cases q with ⟨-, h⟩ | ⟨-, h⟩ | ⟨axis, own, w, hpinned, -, h⟩
  · rw [h]
    exact ht.hypotheses
  · rw [h]
    exact List.forall_mem_append.2 ⟨ht.hypotheses, List.forall_mem_singleton.2 hq⟩
  · rw [h]
    intro k hk v hv
    obtain ⟨k', hk', rfl⟩ := List.mem_map.1 (List.mem_filter.1 hk).1
    obtain ⟨u, hu, rfl⟩ := Polynomial.mem_vars_rename hv
    split
    next => exact hq w (Polynomial.mem_vars_of_pinned? hpinned)
    next => exact ht.hypotheses k' hk' u hu

theorem IsIn.meet (hp : CoordinatesSatisfy P p) (ht : t.IsIn P) (hcs : ∀ c ∈ cs, c.template.IsPure)
    (h : meet p t cs = (t', none)) : t'.IsIn P := by
  induction cs generalizing t with
  | nil =>
      cases h
      exact ht
  | cons c cs ih =>
      obtain ⟨q, hq, h⟩ := meet_cons h
      obtain ⟨hc, hcs⟩ := List.forall_mem_cons.1 hcs
      refine ih (ht.absorb (satisfy_polynomialOf hp (fun uv huv => ?_) hc hq)) hcs h
      obtain ⟨hx, hy⟩ := coordinates?_eq_some huv
      exact ⟨ht.coordinates _ (.inl hx), ht.coordinates _ (.inr hy)⟩

end Trial

namespace Transformation

variable {p p' : Protocol} {t t' : Transformation} {position : ℕ} {c : Commitment} {s : Step}
  {trial : Trial} {is : List ℕ}

/-- The hypotheses are in variables that were given out. -/
def IsKnown (t : Transformation) : Prop := ∀ k ∈ t.system, ∀ v ∈ k.polynomial.vars, t.protocol.Knows v

theorem IsKnown.commit (hsystem : t.IsKnown) (ht : t.IsConsistent p) (hp : p.Ordered)
    (h : t.Commits position c s p' trial) : (t.commit position trial.settle p').IsKnown := by
  obtain ⟨hsteps, hmono, ⟨-, hx⟩, -⟩ := Protocol.freshCoordinates_eq h.coordinates
  have hknown : Trial.CoordinatesSatisfy p'.Knows p' := by
    intro u hu
    obtain ⟨hux, huy⟩ := ht.known u (hsteps ▸ hu)
    exact ⟨fun v hv => hmono v (hux v hv), fun v hv => hmono v (huy v hv)⟩
  have hinitial : (Commits.initial c s).IsIn p'.Knows := by
    refine ⟨fun v hv => ?_, List.forall_mem_nil _⟩
    rcases hv with hv | hv
    · exact Option.some.inj hv ▸ hx
    · exact Option.some.inj hv ▸ h.knows_y ht.known
  have htrial := hinitial.meet hknown (fun d hd => ((h.places (ht.ordered hp)).2 d hd).isPure) h.meet
  refine List.forall_mem_append.2 ⟨fun k hk v hv => hmono v (hsystem k hk v hv), fun k hk => ?_⟩
  obtain ⟨q, hq, rfl⟩ := List.mem_map.1 hk
  rw [Trial.hypotheses_settle] at hq
  exact htrial.hypotheses q hq

theorem IsKnown.advanceAll (hsystem : t.IsKnown) (ht : t.IsConsistent p) (hp : p.Ordered)
    (h : t.advanceAll is = (none, t')) : t'.IsKnown := by
  induction is generalizing t with
  | nil =>
      cases h
      exact hsystem
  | cons i is ih =>
      obtain ⟨qs, hadvance, h⟩ := advanceAll_cons h
      rcases advance_eq_ok hadvance with ⟨-, heq⟩ | ⟨c, s, p', trial, -, hcommits, heq⟩
      · rw [heq] at h
        exact ih hsystem ht h
      · rw [heq] at h
        exact ih (hsystem.commit ht hp hcommits) (ht.commit hp hcommits) h

/-- The polynomial of a statement is in variables that were given out. -/
theorem knows_of_statement {relation : Relation} {q : Polynomial} (ht : t.IsConsistent p)
    (hrelation : s.construction = .statement relation)
    (h : t.protocol.polynomialOf s relation.condition = .ok q) :
    ∀ v ∈ q.vars, t.protocol.Knows v := by
  refine Trial.satisfy_polynomialOf ht.known (fun uv huv => ?_) relation.isPure_condition h
  rw [coordinates?_of_statement hrelation] at huv
  cases huv

end Transformation

end Planimetry
