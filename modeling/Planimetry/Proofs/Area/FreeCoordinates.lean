import Planimetry.Proofs.Area.Failure
import Planimetry.Proofs.Transformation.Free

/-! Expressions of free points: once the points are placed their expanded forms have polynomials, which are in
free variables only. -/

namespace Planimetry

/-- All variables of the polynomial are free ones. -/
def Polynomial.IsFree (q : Polynomial) : Prop := ∀ v ∈ q.vars, v.isFree = true

namespace Polynomial

variable {q r : Polynomial}

theorem isFree_zero : IsFree 0 := List.forall_mem_nil _

theorem isFree_constant (c : ℚ) : (constant c).IsFree := Template.hasVars_constant c

theorem IsFree.add (hq : q.IsFree) (hr : r.IsFree) : (q + r).IsFree := Template.HasVars.add hq hr

theorem IsFree.mul (hq : q.IsFree) (hr : r.IsFree) : (q * r).IsFree := Template.HasVars.mul hq hr

end Polynomial

/-- After a pass the coordinates of free points are free variables. -/
theorem Protocol.IsPass.hasFreeCoordinates {p : Protocol} {settings : Settings} {pass : Transformation}
    (hpass : p.IsPass settings pass) (hp : Appended p) : pass.protocol.HasFreeCoordinates := by
  refine Transformation.HasFreeCoordinates.advanceAll (t := p.startWu settings) (fun s hs _ => ?_) hpass.run
  rw [hp.unplaced s hs]
  exact ⟨nofun, nofun⟩

namespace Area.Prover

variable {m : Prover} {p p' : Protocol} {pass : Transformation} {s : Progress} {e : Expr} {k : Quantity}
  {fs : Factors}

/-- The free points have coordinates, which are free variables. -/
def Locates (m : Prover) (p : Protocol) : Prop :=
  ∀ l ∈ m.context.freePoints, ∃ xy, m.freeCoordinates p l = .ok xy ∧ xy.1.isFree = true ∧ xy.2.isFree = true

theorem Locates.of_steps (hm : m.Locates p) (h : p'.steps = p.steps) : m.Locates p' := by
  intro l hl
  rw [freeCoordinates_of_steps h]
  exact hm l hl

theorem locates_of_isPass (hp : Appended p) (hpass : p.IsPass m.settings pass)
    (hfree : ∀ l ∈ m.context.freePoints, ∃ t ∈ p.steps, t.label = l ∧ t.construction = .point .free) :
    m.Locates pass.protocol := by
  intro l hl
  obtain ⟨t, ht, hlabel, hconstruction⟩ := hfree l hl
  obtain ⟨t', ht', hcore⟩ := Protocol.exists_core_eq hpass.core ht
  have hlabel' : t'.label = l := (congr_arg Prod.fst hcore : t'.label = t.label).trans hlabel
  have hconstruction' : t'.construction = .point .free :=
    (congr_arg (fun k => k.2.1) hcore : t'.construction = t.construction).trans hconstruction
  have hpoint : t'.isPoint = true := by
    unfold Step.isPoint Step.category
    rw [hconstruction']
    rfl
  obtain ⟨xy, hxy⟩ := Option.isSome_iff_exists.1 (hpass.placed t' (List.mem_filter.2 ⟨ht', hpoint⟩))
  have hget := (hp.ordered.of_core hpass.core).get?_eq ht'
  have hvariables := hpass.hasFreeCoordinates hp t' ht' hconstruction'
  obtain ⟨hx, hy⟩ := Trial.coordinates?_eq_some hxy
  refine ⟨xy, ?_, hvariables.1 _ hx, hvariables.2 _ hy⟩
  unfold freeCoordinates
  rw [← hlabel', hget, Option.bind_some, hxy]
  exact if_pos (List.contains_iff_mem.2 (hlabel' ▸ hl))

/-- A stretch of a proof meets no point that should have been eliminated. -/
abbrev Completes {α : Type} (x : Proving α) (s : Progress) (post : α → Progress → Prop) : Prop :=
  Ends x s post fun err _ => ∀ l, err ≠ .remaining l

theorem completes_inCoordinates {t : Template} {a b c : Label} (hm : m.Locates s.protocol)
    (ht : t.IsPure) (hroles : ∀ r ∈ t.roles, r ∈ ["A", "B", "C"])
    (habc : ∀ l ∈ [a, b, c], l ∈ m.context.freePoints) :
    Completes (m.inCoordinates t a b c) s fun q _ => q.IsFree := by
  refine (requires_inCoordinates hroles a b c).mono (fun q s' h _ v hv => ?_) fun err _ h => ?_
  · obtain ⟨-, first, second, third, hfirst, hsecond, hthird, hq⟩ := returns_inCoordinates h
    have hvariables {l : Label} {xy : Variable × Variable} (hl : l ∈ [a, b, c])
        (hxy : m.freeCoordinates s.protocol l = .ok xy) : xy.1.isFree = true ∧ xy.2.isFree = true := by
      obtain ⟨xy', hxy', hfree⟩ := hm l (habc l hl)
      cases hxy.symm.trans hxy'
      exact hfree
    obtain ⟨r, xy, hlookup, hv⟩ := Template.mem_vars_of_instantiate ht hq hv
    have hxy : xy.1.isFree = true ∧ xy.2.isFree = true := by
      obtain ⟨before, after, heq, -⟩ := List.lookup_eq_some_iff.1 hlookup
      have hmem : (r, xy) ∈ [("A", first), ("B", second), ("C", third)] :=
        heq ▸ List.mem_append_right _ List.mem_cons_self
      simp only [List.mem_cons, List.not_mem_nil, or_false, Prod.mk.injEq] at hmem
      rcases hmem with ⟨-, rfl⟩ | ⟨-, rfl⟩ | ⟨-, rfl⟩
      · exact hvariables (by simp) hfirst
      · exact hvariables (by simp) hsecond
      · exact hvariables (by simp) hthird
    rcases hv with rfl | rfl
    · exact hxy.1
    · exact hxy.2
  · refine absurd (fun l hl => ?_) h.2
    obtain ⟨xy, hxy, -⟩ := hm l (habc l hl)
    exact ⟨xy, hxy⟩

/-- The variable of a free ratio is a free one. -/
theorem isFree_of_ratioVariable {v : Variable} {s' : Progress} (hs : s.IsFresh m.context p)
    (h : Returns (ratioVariable k) s v s') : v.isFree = true := by
  rcases returns_ratioVariable h with ⟨-, hmem⟩ | ⟨-, rfl, -⟩
  · obtain ⟨i, hi, -⟩ := hs.fresh _ hmem
    exact congr_arg Variable.isFree hi
  · rfl

section Pass

variable (hm : m.Locates p)

include hm

theorem completes_quantityPolynomial (hk : k.IsOriented) (hreads : k.ReadsOnly (· ∈ m.context.freePoints))
    (hs : s.IsFresh m.context p) :
    Completes (m.quantityPolynomial k) s fun q s' => q.IsFree ∧ s'.IsFresh m.context p := by
  have hlocates := hm.of_steps hs.steps
  have hpolynomial : Completes (m.quantityPolynomial k) s fun q _ => q.IsFree := by
    cases k with
    | area a b c => exact completes_inCoordinates hlocates (by decide +kernel) (by decide +kernel) hreads
    | pythagoras a b c =>
        exact completes_inCoordinates hlocates (by decide +kernel) (by decide +kernel) hreads
    | ratio a b c d =>
        obtain ⟨parameter, hparameter⟩ := Context.exists_isParameter (c := m.context) hk.isRegular
        refine (ends_liftM_of_ok hparameter).bind ?_
        rintro _ _ - ⟨rfl, rfl⟩
        cases parameter with
        | false => exact ends_throw nofun
        | true =>
            refine ends_ratioVariable.bind ?_
            intro v s₁ hv _
            refine ends_pure fun w hw => ?_
            rw [Polynomial.mem_vars_ofVariable.1 hw]
            exact isFree_of_ratioVariable hs hv
  exact hpolynomial.mono (fun q s' h hq => ⟨hq, isFresh_quantityPolynomial hk h hs⟩) fun _ _ h => h

theorem completes_productPolynomial {q : Polynomial} (hq : q.IsFree) (hfs : ∀ f ∈ fs, f.IsOriented)
    (hreads : ∀ f ∈ fs, f.ReadsOnly (· ∈ m.context.freePoints)) (hs : s.IsFresh m.context p) :
    Completes (m.productPolynomial q fs) s fun q' s' => q'.IsFree ∧ s'.IsFresh m.context p := by
  induction fs generalizing q s with
  | nil => exact ends_pure ⟨hq, hs⟩
  | cons f fs ih =>
      obtain ⟨hf, hfs⟩ := List.forall_mem_cons.1 hfs
      obtain ⟨hreadsf, hreads⟩ := List.forall_mem_cons.1 hreads
      refine (completes_quantityPolynomial hm hf hreadsf hs).bind ?_
      rintro r s₁ - ⟨hr, hs₁⟩
      exact ih (hq.mul hr) hfs hreads hs₁

theorem completes_sumPolynomial {ts : List (Factors × ℚ)} {q : Polynomial} (hq : q.IsFree)
    (hts : ∀ t ∈ ts, ∀ f ∈ t.1, f.IsOriented)
    (hreads : ∀ t ∈ ts, ∀ f ∈ t.1, f.ReadsOnly (· ∈ m.context.freePoints)) (hs : s.IsFresh m.context p) :
    Completes (m.sumPolynomial q ts) s fun q' s' => q'.IsFree ∧ s'.IsFresh m.context p := by
  induction ts generalizing q s with
  | nil => exact ends_pure ⟨hq, hs⟩
  | cons t ts ih =>
      obtain ⟨ht, hts⟩ := List.forall_mem_cons.1 hts
      obtain ⟨hreadst, hreads⟩ := List.forall_mem_cons.1 hreads
      refine (completes_productPolynomial hm (Polynomial.isFree_constant t.2) ht hreadst hs).bind ?_
      rintro r s₁ - ⟨hr, hs₁⟩
      exact ih (hq.add hr) hts hreads hs₁

end Pass

/-- An expanded form of free points has a polynomial in free variables, unless a ratio in it is not free. -/
theorem completes_toPolynomial {form : Expansion} (hp : Appended p) (hpass : p.IsPass m.settings pass)
    (hm : m.Locates pass.protocol) (hform : e.normalForm = .ok form)
    (hreads : ∀ t ∈ form.entries, ∀ f ∈ t.1, f.ReadsOnly (· ∈ m.context.freePoints))
    (hs : s.IsSteady m.context p pass.protocol) :
    Completes (m.toPolynomial form) s fun q s' => q.IsFree ∧ s'.IsSteady m.context p pass.protocol := by
  obtain ⟨s₁, hplace⟩ := exists_placePoints_of_stands hpass hs.stands
  have hsum := completes_sumPolynomial hm Polynomial.isFree_zero (Expr.isOriented_normalForm hform) hreads
    (isFresh_placePoints hp hpass hplace hs.stands).1
  have hall : Completes (m.toPolynomial form) s fun q _ => q.IsFree := by
    unfold Completes Ends toPolynomial
    rw [run_bind_of_returns hplace]
    exact hsum.mono (fun _ _ _ h => h.1) fun _ _ h => h
  refine hall.mono (fun q s' h hq => ⟨hq, .inr ?_, ?_⟩) fun _ _ h => h
  · exact isFresh_toPolynomial hp hpass hform h hs.stands
  · exact used_toPolynomial h ▸ hs.used

end Area.Prover
end Planimetry
