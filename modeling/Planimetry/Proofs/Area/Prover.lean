import Planimetry.Proofs.Area.Coordinates

/-! Runs of the prover: elimination of the constructed points keeps the value of an expression, and the
verdict is read off its expanded form. -/

namespace Planimetry.Area

/-- The protocol and the variables of ratios stay, and more definitions may be used. -/
structure Progress.Keeps (s s' : Progress) : Prop where
  protocol : s'.protocol = s.protocol
  ratios : s'.ratios = s.ratios
  used : Grows s.used s'.used

theorem Progress.Keeps.refl (s : Progress) : s.Keeps s := ⟨rfl, rfl, .refl _⟩

theorem Progress.Keeps.trans {s s' s'' : Progress} (h : s.Keeps s') (h' : s'.Keeps s'') :
    s.Keeps s'' :=
  ⟨h'.protocol.trans h.protocol, h'.ratios.trans h.ratios, h.used.trans h'.used⟩

namespace Prover

variable {m : Prover} {s s' : Progress} {e e' : Expr} {p : Label} {ps : List Label}
  {trace : List (Label × Expr)} {before : Option Label} {form : Expansion} {q : Polynomial}

theorem returns_recording {α : Type} {u : Using α} {a : α}
    (h : Returns (Proving.recording u) s a s') :
    ∃ used, Returns u s.used a used ∧ s' = { s with used } := by
  cases hu : u.run s.used with
  | mk r used =>
      have hrun : (Proving.recording u).run s = (r, { s with used }) := by
        change ((u.run s.used).1, { s with used := (u.run s.used).2 }) = _
        rw [hu]
      have heq := hrun.symm.trans h
      refine ⟨used, ?_, (congr_arg Prod.snd heq).symm⟩
      exact hu.trans (congr_arg (·, used) (congr_arg Prod.fst heq))

theorem returns_simplify (h : Returns (m.simplify e) s e' s') :
    (∃ settled, e.simplify m.settings.maxSimplifySteps = .ok (e', settled)) ∧ s.Keeps s' ∧
      s'.used = s.used := by
  unfold simplify at h
  obtain ⟨⟨a, settled⟩, s₁, hlift, h⟩ := returns_bind.1 h
  obtain ⟨hsimplify, rfl⟩ := returns_liftM.1 hlift
  dsimp only at h
  cases settled with
  | true =>
      obtain ⟨rfl, rfl⟩ := returns_pure.1 h
      exact ⟨⟨true, hsimplify⟩, .refl _, rfl⟩
  | false =>
      obtain ⟨u, s₂, hreport, h⟩ := returns_bind.1 h
      obtain ⟨rfl, rfl⟩ := returns_pure.1 h
      rw [returns_modify.1 hreport]
      exact ⟨⟨false, hsimplify⟩, ⟨rfl, rfl, .refl _⟩, rfl⟩

/-- A point is passed over, or eliminated before the others. -/
theorem returns_eliminateAll_cons (h : Returns (m.eliminateAll (p :: ps) e) s (e', trace) s') :
    Returns (m.eliminateAll ps e) s (e', trace) s' ∨
      ∃ a b used s₁ rest, Returns (m.context.eliminate e p) s.used a used ∧
        Returns (m.simplify a) { s with used } b s₁ ∧
        Returns (m.eliminateAll ps b) s₁ (e', rest) s' := by
  unfold eliminateAll at h
  obtain ⟨mentioned, s₀, hlift, h⟩ := returns_bind.1 h
  obtain ⟨-, rfl⟩ := returns_liftM.1 hlift
  cases mentioned with
  | false => exact .inl h
  | true =>
      obtain ⟨a, s₁, ha, h⟩ := returns_bind.1 h
      obtain ⟨used, hused, rfl⟩ := returns_recording ha
      obtain ⟨b, s₂, hb, h⟩ := returns_bind.1 h
      obtain ⟨⟨last, rest⟩, s₃, hlast, h⟩ := returns_bind.1 h
      obtain ⟨heq, rfl⟩ := returns_pure.1 h
      obtain ⟨rfl, rfl⟩ := Prod.mk.inj heq
      exact .inr ⟨a, b, used, s₂, rest, hused, hb, hlast⟩

theorem keeps_eliminateAll (h : Returns (m.eliminateAll ps e) s (e', trace) s') : s.Keeps s' := by
  induction ps generalizing s e trace with
  | nil =>
      obtain ⟨-, rfl⟩ := returns_pure.1 h
      exact .refl _
  | cons p ps ih =>
      rcases returns_eliminateAll_cons h with h | ⟨a, b, used, s₁, rest, ha, hb, h⟩
      · exact ih h
      · have hfirst : s.Keeps { s with used } := ⟨rfl, rfl, Context.grows_eliminate ha⟩
        exact (hfirst.trans (returns_simplify hb).2.1).trans (ih h)

/-- Elimination without a place to stop concerns all constructed points. -/
theorem returns_eliminateConstructed
    (h : Returns (m.eliminateConstructed e before) s (e', trace) s') :
    ∃ points a s₁, m.pointsBefore before = .ok points ∧ Returns (m.simplify e) s a s₁ ∧
      Returns (m.eliminateAll points.reverse a) s₁ (e', trace) s' := by
  unfold eliminateConstructed at h
  obtain ⟨points, s₀, hlift, h⟩ := returns_bind.1 h
  obtain ⟨hpoints, rfl⟩ := returns_liftM.1 hlift
  obtain ⟨a, s₁, ha, h⟩ := returns_bind.1 h
  exact ⟨points, a, s₁, hpoints, ha, h⟩

theorem keeps_eliminateConstructed
    (h : Returns (m.eliminateConstructed e before) s (e', trace) s') : s.Keeps s' := by
  obtain ⟨points, a, s₁, -, ha, h⟩ := returns_eliminateConstructed h
  exact (returns_simplify ha).2.1.trans (keeps_eliminateAll h)

section Denotes

variable {place : Label → ℚ × ℚ} {ratio : Quantity → ℚ} {x : ℚ}

/-- Eliminating points keeps the value if the definitions hold that are used, and uses those of the
points only. -/
theorem denotes_eliminateAll (h : Returns (m.eliminateAll ps e) s (e', trace) s')
    (he : e.Denotes (Quantity.valueAt place ratio) x)
    (hd : ∀ p ∈ ps, p ∈ s'.used → ∀ d, m.context.find? p = some d → d.HoldsAt place ratio) :
    e'.Denotes (Quantity.valueAt place ratio) x ∧ ∀ l ∈ s'.used, l ∈ s.used ∨ l ∈ ps := by
  induction ps generalizing s e trace with
  | nil =>
      obtain ⟨heq, rfl⟩ := returns_pure.1 h
      obtain ⟨rfl, -⟩ := Prod.mk.inj heq
      exact ⟨he, fun l hl => .inl hl⟩
  | cons p ps ih =>
      obtain ⟨hfirst, hrest⟩ := List.forall_mem_cons.1 hd
      rcases returns_eliminateAll_cons h with h | ⟨a, b, used, s₁, rest, ha, hb, h⟩
      · obtain ⟨he', hused⟩ := ih h he hrest
        exact ⟨he', fun l hl => (hused l hl).imp_right (List.mem_cons_of_mem _)⟩
      · obtain ⟨⟨settled, hsimplify⟩, -, hs₁⟩ := returns_simplify hb
        have hkept := (keeps_eliminateAll h).used.1.subset
        obtain ⟨ha', hused₁⟩ := Context.denotes_eliminate ha he fun hp =>
          hfirst (hkept (hs₁ ▸ hp))
        obtain ⟨he', hused⟩ :=
          ih h (ha'.simplify (respectsOrientation_valueAt place ratio) hsimplify) hrest
        refine ⟨he', fun l hl => ?_⟩
        rcases hused l hl with hl | hl
        · rw [hs₁] at hl
          rcases hused₁ l hl with hl | rfl
          · exact .inl hl
          · exact .inr List.mem_cons_self
        · exact .inr (List.mem_cons_of_mem _ hl)

/-- Eliminating the constructed points keeps the value if the definitions hold that are used. -/
theorem denotes_eliminateConstructed {points : List Label}
    (h : Returns (m.eliminateConstructed e before) s (e', trace) s')
    (hpoints : m.pointsBefore before = .ok points)
    (he : e.Denotes (Quantity.valueAt place ratio) x)
    (hd : ∀ p ∈ points, p ∈ s'.used → ∀ d, m.context.find? p = some d → d.HoldsAt place ratio) :
    e'.Denotes (Quantity.valueAt place ratio) x ∧ ∀ l ∈ s'.used, l ∈ s.used ∨ l ∈ points := by
  obtain ⟨points', a, s₁, hpoints', ha, h⟩ := returns_eliminateConstructed h
  obtain rfl := Except.ok.inj (hpoints.symm.trans hpoints')
  obtain ⟨⟨settled, hsimplify⟩, -, hs₁⟩ := returns_simplify ha
  obtain ⟨he', hused⟩ := denotes_eliminateAll h
    (he.simplify (respectsOrientation_valueAt place ratio) hsimplify)
    fun p hp => hd p (List.mem_reverse.1 hp)
  refine ⟨he', fun l hl => ?_⟩
  exact (hused l hl).imp (fun hl => hs₁ ▸ hl) List.mem_reverse.1

end Denotes

/-- The stages of a proof: the statement holds if its expanded form is zero, which then has no polynomial, or
else if the polynomial of that is. -/
theorem exists_stages_prove {statement : Option Statement} {proof : Proof}
    (h : Returns (m.prove statement) s proof s') :
    ∃ e e' form s₁ s₂ s₃, start s.protocol statement = .ok e ∧
      Returns (m.eliminateConstructed e none) s (e', proof.trace) s₁ ∧
      e'.normalForm = .ok form ∧ s₁.Keeps s₂ ∧ s₂.used = s₁.used ∧
      ((form.isZero = true ∧ proof.holds = true ∧ s₃ = s₂) ∧ proof.polynomial = none ∨
        ∃ q, (Returns (m.toPolynomial form) s₂ q s₃ ∧ proof.holds = q.isZero) ∧
          proof.polynomial = some q) ∧
      Returns m.nondegenerate s₃ proof.nondegenerate s' := by
  unfold prove at h
  obtain ⟨s₀, s₀', hget, h⟩ := returns_bind.1 h
  obtain ⟨rfl, rfl⟩ := returns_get.1 hget
  obtain ⟨e, t, hlift, h⟩ := returns_bind.1 h
  obtain ⟨hstart, rfl⟩ := returns_liftM.1 hlift
  obtain ⟨⟨e', trace⟩, s₁, heliminate, h⟩ := returns_bind.1 h
  obtain ⟨form, t, hlift, h⟩ := returns_bind.1 h
  obtain ⟨hform, rfl⟩ := returns_liftM.1 hlift
  obtain ⟨u, s₂, hreport, h⟩ := returns_bind.1 h
  have hs₂ := returns_modify.1 hreport
  have hkeeps : s₁.Keeps s₂ := hs₂ ▸ ⟨rfl, rfl, .refl _⟩
  have hused : s₂.used = s₁.used := hs₂ ▸ rfl
  dsimp only at h
  split at h
  next hzero =>
    obtain ⟨polynomial, s₃, hpolynomial, h⟩ := returns_bind.1 h
    obtain ⟨rfl, rfl⟩ := returns_pure.1 hpolynomial
    obtain ⟨nondegenerate, s₄, hnondegenerate, h⟩ := returns_bind.1 h
    obtain ⟨rfl, rfl⟩ := returns_pure.1 h
    exact ⟨e, e', form, s₁, _, _, hstart, heliminate, hform, hkeeps, hused, .inl ⟨⟨hzero, rfl, rfl⟩, rfl⟩,
      hnondegenerate⟩
  next =>
    obtain ⟨polynomial, s₃, hpolynomial, h⟩ := returns_bind.1 h
    obtain ⟨q, s₃', hq, hsome⟩ := returns_bind.1 hpolynomial
    obtain ⟨rfl, rfl⟩ := returns_pure.1 hsome
    obtain ⟨nondegenerate, s₄, hnondegenerate, h⟩ := returns_bind.1 h
    obtain ⟨rfl, rfl⟩ := returns_pure.1 h
    exact ⟨e, e', form, s₁, s₂, _, hstart, heliminate, hform, hkeeps, hused,
      .inr ⟨q, ⟨hq, rfl⟩, rfl⟩, hnondegenerate⟩

/-- A statement holds if its expanded form is zero, or else if the polynomial of that is. -/
theorem returns_prove {statement : Option Statement} {proof : Proof}
    (h : Returns (m.prove statement) s proof s') :
    ∃ e e' form s₁ s₂ s₃, start s.protocol statement = .ok e ∧
      Returns (m.eliminateConstructed e none) s (e', proof.trace) s₁ ∧
      e'.normalForm = .ok form ∧ s₁.Keeps s₂ ∧ s₂.used = s₁.used ∧
      (form.isZero = true ∧ proof.holds = true ∧ s₃ = s₂ ∨
        ∃ q, Returns (m.toPolynomial form) s₂ q s₃ ∧ proof.holds = q.isZero) ∧
      Returns m.nondegenerate s₃ proof.nondegenerate s' := by
  obtain ⟨e, e', form, s₁, s₂, s₃, hstart, heliminate, hform, hkeeps, hused, hverdict,
    hnondegenerate⟩ := exists_stages_prove h
  exact ⟨e, e', form, s₁, s₂, s₃, hstart, heliminate, hform, hkeeps, hused,
    hverdict.imp And.left fun ⟨q, hq, _⟩ => ⟨q, hq⟩, hnondegenerate⟩

end Prover

end Planimetry.Area
