import Planimetry.Proofs.Transformation.Pass

/-! Free points have no conditions: their coordinates are free variables, and after a pass without alignment
these can have any values. -/

namespace Planimetry

/-- Variables have the values of the coordinates of free points. -/
def Protocol.FreeAt (σ : Variable → ℚ) (place : Label → ℚ × ℚ) (p : Protocol) : Prop :=
  ∀ s ∈ p.steps, s.construction = .point .free →
    (∀ x, s.placement.x = some x → σ x = (place s.label).1) ∧
      ∀ y, s.placement.y = some y → σ y = (place s.label).2

/-- The coordinates of free points have properties, one for each axis. -/
def Protocol.FreeSatisfy (X Y : Label → Variable → Prop) (p : Protocol) : Prop :=
  ∀ s ∈ p.steps, s.construction = .point .free →
    (∀ x, s.placement.x = some x → X s.label x) ∧ ∀ y, s.placement.y = some y → Y s.label y

/-- The coordinates of free points are free variables. -/
def Protocol.HasFreeCoordinates (p : Protocol) : Prop :=
  p.FreeSatisfy (fun _ v => v.isFree = true) fun _ v => v.isFree = true

namespace Transformation

variable {p p' : Protocol} {t t' : Transformation} {position : ℕ} {c : Commitment} {s : Step}
  {trial : Trial} {σ : Variable → ℚ} {place : Label → ℚ × ℚ} {is : List ℕ}

/-- No condition is committed for a free point. -/
theorem Commits.trial_of_free (h : t.Commits position c s p' trial)
    (hfree : s.construction = .point .free) : trial = initial c s := by
  have hmeet := h.meet
  rcases h.alternative with hnil | ⟨rule, ways, -, hways, hmem⟩
  · rw [hnil] at hmeet
    cases hmeet
    rfl
  · rw [Protocol.alternatives_of_point hfree] at hways
    cases hways
    cases hmem

theorem FreeSatisfy.commit {X Y : Label → Variable → Prop} (ht : t.protocol.FreeSatisfy X Y)
    (h : t.Commits position c s p' trial) (hx : s.construction = .point .free → X s.label c.x)
    (hy : s.construction = .point .free → Y s.label c.y) :
    (t.commit position trial.settle p').protocol.FreeSatisfy X Y := by
  refine forall_mem_modify (fun u hu => ht u (h.steps ▸ hu)) fun hfree => ?_
  have hcore : trial.settle.point.core = s.core := (Trial.core_settle trial).trans h.core_trial
  have hlabel : trial.settle.point.label = s.label := congr_arg Prod.fst hcore
  have hconstruction : trial.settle.point.construction = s.construction :=
    congr_arg (fun k => k.2.1) hcore
  rw [hconstruction] at hfree
  rw [hlabel, Trial.x_settle, Trial.y_settle, h.trial_of_free hfree]
  refine ⟨fun v hv => ?_, fun v hv => ?_⟩
  · cases hv
    exact hx hfree
  · cases hv
    exact hy hfree

theorem construction_of_freePoint (h : s.kind = .freePoint) : s.construction = .point .free := by
  unfold Step.kind at h
  cases hs : s.construction with
  | point rule => cases rule <;> simp_all [Construction.kind]
  | set locus => cases locus <;> simp_all [Construction.kind]
  | statement relation => cases relation <;> simp_all [Construction.kind]

/-- Both coordinates that a free point gets are free variables, also if it is aligned. -/
theorem HasFreeCoordinates.commit (ht : t.protocol.HasFreeCoordinates)
    (h : t.Commits position c s p' trial) :
    (t.commit position trial.settle p').protocol.HasFreeCoordinates := by
  have hfree (hs : s.construction = .point .free) : c.x.isFree = true ∧ c.y.isFree = true := by
    have hcoordinates := h.coordinates
    have htwo : s.kind.spec.freeCoordinates = 2 := by
      unfold Step.kind
      rw [hs]
      rfl
    rw [htwo] at hcoordinates
    simp only [Protocol.freshCoordinates] at hcoordinates
    split at hcoordinates
    next y haligned =>
      obtain ⟨-, first, rest, hfilter, hfirst, hy⟩ := Protocol.alignedY_eq_some haligned h.step
      obtain ⟨hxy, -⟩ := Prod.mk.inj hcoordinates
      obtain ⟨hcx, hcy⟩ := Prod.mk.inj hxy
      have hkind : first.kind = .freePoint := by
        have hmem : first ∈ t.protocol.steps.filter fun s => s.kind == .freePoint :=
          hfilter ▸ List.mem_cons_self
        exact beq_iff_eq.1 (List.mem_filter.1 hmem).2
      rw [← hcx, ← hcy]
      exact ⟨rfl, (ht first hfirst (construction_of_freePoint hkind)).2 y hy⟩
    next =>
      obtain ⟨hxy, -⟩ := Prod.mk.inj hcoordinates
      obtain ⟨hcx, hcy⟩ := Prod.mk.inj hxy
      rw [← hcx, ← hcy]
      exact ⟨rfl, rfl⟩
  exact FreeSatisfy.commit ht h (fun hs => (hfree hs).1) fun hs => (hfree hs).2

/-- The coordinates of free points are free variables after a pass. -/
theorem HasFreeCoordinates.advanceAll (ht : t.protocol.HasFreeCoordinates)
    (h : t.advanceAll is = (none, t')) : t'.protocol.HasFreeCoordinates := by
  induction is generalizing t with
  | nil =>
      cases h
      exact ht
  | cons i is ih =>
      obtain ⟨qs, hadvance, h⟩ := advanceAll_cons h
      refine ih ?_ h
      rcases advance_eq_ok hadvance with ⟨-, heq⟩ | ⟨c, s, p', trial, -, hcommits, heq⟩
      · rw [heq]
        exact ht
      · rw [heq]
        exact HasFreeCoordinates.commit ht hcommits

theorem FreeAt.commit (ht : t.protocol.FreeAt σ place) (h : t.Commits position c s p' trial)
    (hx : σ c.x = (place s.label).1) (hy : σ c.y = (place s.label).2) :
    (t.commit position trial.settle p').protocol.FreeAt σ place :=
  FreeSatisfy.commit (X := fun l v => σ v = (place l).1) (Y := fun l v => σ v = (place l).2) ht h
    (fun _ => hx) fun _ => hy

/-- The coordinates of free points stand for these after a pass. -/
theorem FreeAt.advanceAll {done : List Commitment} (ht : t.protocol.FreeAt σ place)
    (hconsistent : t.IsConsistent p) (hp : p.Ordered) (halign : t.align = false)
    (hσ : σ = coordinateValue (done ++ t.commitments is) place)
    (hdone : ∀ d ∈ done, t.protocol.Knows d.x ∧ t.protocol.Knows d.y)
    (h : t.advanceAll is = (none, t')) : t'.protocol.FreeAt σ place := by
  induction is generalizing t done with
  | nil =>
      cases h
      exact ht
  | cons i is ih =>
      obtain ⟨qs, hadvance, h⟩ := advanceAll_cons h
      unfold commitments at hσ
      rcases advance_eq_ok hadvance with ⟨hnone, heq⟩ | ⟨c, s, p', trial, hsome, hcommits, heq⟩
      · rw [hnone, Option.toList_none, List.nil_append] at hσ
        rw [heq] at h hσ
        exact ih ht hconsistent halign hσ hdone h
      · rw [hsome, Option.toList_some, List.singleton_append] at hσ
        obtain ⟨-, hmono, ⟨-, hknows⟩, hfresh⟩ := Protocol.freshCoordinates_eq hcommits.coordinates
        have hx : σ c.x = (place s.label).1 := by
          rw [hσ, ← hcommits.label]
          exact coordinateValue_x fun d hd => hcommits.ne_of_knows (hdone d hd)
        have hy : σ c.y = (place s.label).2 := by
          rcases hfresh with ⟨hy, -, hne⟩ | ⟨hy, -⟩
          · rw [hσ, ← hcommits.label]
            refine coordinateValue_y (fun d hd => ?_) hne
            exact ⟨fun heq => hy (heq ▸ (hdone d hd).1), fun heq => hy (heq ▸ (hdone d hd).2)⟩
          · obtain ⟨halign', -⟩ := Protocol.alignedY_eq_some hy hcommits.step
            rw [halign] at halign'
            cases halign'
        rw [heq] at h hσ
        have hσ' : σ = coordinateValue ((done ++ [c]) ++
            commitments (t.commit i trial.settle p') is) place := by
          rw [hσ, List.append_assoc, List.singleton_append]
        refine ih (FreeAt.commit ht hcommits hx hy) (hconsistent.commit hp hcommits) halign hσ'
          (fun d hd => ?_) h
        rcases List.mem_append.1 hd with hd | hd
        · exact ⟨hmono _ (hdone d hd).1, hmono _ (hdone d hd).2⟩
        · rw [List.mem_singleton.1 hd]
          exact ⟨hknows, hcommits.knows_y hconsistent.known⟩

end Transformation
end Planimetry
