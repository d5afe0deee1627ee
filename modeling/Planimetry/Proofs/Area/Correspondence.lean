import Planimetry.Proofs.Area.Mirror

/-! Proofs by the area method under other names: they come to the same decision, and to conditions that are
trivial where the others are, or both leave the question open. -/

namespace Planimetry.Area

/-! ### Two computations side by side -/

section Together

variable {α β γ δ σ : Type} {s s' t t' : σ}

/-- Two computations return with what a condition asks of the results and states, or both fail, and leave the
question open or not. -/
def Together (x : ExceptT Error (StateM σ) α) (y : ExceptT Error (StateM σ) β) (s t : σ)
    (post : α → β → σ → σ → Prop) : Prop :=
  match x.run s, y.run t with
  | (.ok a, s'), (.ok b, t') => post a b s' t'
  | (.error e, _), (.error e', _) => e'.isInconclusive = e.isInconclusive
  | _, _ => False

variable {x : ExceptT Error (StateM σ) α} {y : ExceptT Error (StateM σ) β}
  {post : α → β → σ → σ → Prop} {post' : γ → δ → σ → σ → Prop}

theorem Together.mono {post' : α → β → σ → σ → Prop} (h : Together x y s t post)
    (hpost : ∀ a b s' t', Returns x s a s' → Returns y t b t' → post a b s' t' → post' a b s' t') :
    Together x y s t post' := by
  unfold Together at h ⊢
  rcases hx : x.run s with ⟨e | a, s'⟩ <;> rcases hy : y.run t with ⟨e' | b, t'⟩ <;>
    rw [hx, hy] at h
  · exact h
  · exact h
  · exact h
  · exact hpost a b s' t' hx hy h

theorem Together.bind {f : α → ExceptT Error (StateM σ) γ} {g : β → ExceptT Error (StateM σ) δ}
    (h : Together x y s t post) (hf : ∀ a b s' t', post a b s' t' → Together (f a) (g b) s' t' post') :
    Together (x >>= f) (y >>= g) s t post' := by
  unfold Together at h
  unfold Together
  rw [run_bind, run_bind]
  rcases hx : x.run s with ⟨e | a, s'⟩ <;> rcases hy : y.run t with ⟨e' | b, t'⟩ <;>
    rw [hx, hy] at h
  · exact h
  · exact h.elim
  · exact h.elim
  · exact hf a b s' t' h

theorem together_pure {a : α} {b : β} (h : post a b s t) :
    Together (pure a : ExceptT Error (StateM σ) α) (pure b) s t post := h

theorem together_liftM {x : Except Error α} {y : Except Error β} {R : α → β → Prop}
    (h : Option.Rel R x.toOption y.toOption)
    (herror : ∀ e e', x = .error e → y = .error e' → e'.isInconclusive = e.isInconclusive) :
    Together (liftM x : ExceptT Error (StateM σ) α) (liftM y : ExceptT Error (StateM σ) β) s t
      fun a b s' t' => R a b ∧ x = .ok a ∧ y = .ok b ∧ s = s' ∧ t = t' := by
  cases x with
  | error e =>
      cases y with
      | error e' => exact herror e e' rfl rfl
      | ok b => cases h
  | ok a =>
      cases y with
      | error e' => cases h
      | ok b =>
          cases h with
          | some h => exact ⟨h, rfl, rfl, rfl, rfl⟩

theorem rel_of_map {f : α → β} {x : Option α} {y : Option β} (h : y = x.map f) :
    Option.Rel (fun a b => b = f a) x y := by
  subst h
  cases x with
  | none => exact .none
  | some a => exact .some rfl

theorem together_get : Together (get : ExceptT Error (StateM σ) σ) (get : ExceptT Error (StateM σ) σ) s t
    fun a b s' t' => s = a ∧ t = b ∧ s = s' ∧ t = t' := ⟨rfl, rfl, rfl, rfl⟩

theorem together_modify {f g : σ → σ} :
    Together (modify f : ExceptT Error (StateM σ) Unit) (modify g : ExceptT Error (StateM σ) Unit) s t
      fun _ _ s' t' => s' = f s ∧ t' = g t := ⟨rfl, rfl⟩

/-- Computations with equivalent requirements. -/
theorem together_of_requires {P P' : Prop} {ends : α → σ → Prop} {ends' : β → σ → Prop}
    (hx : Ends x s (fun a s' => P ∧ ends a s') fun e _ => e.isInconclusive = true ∧ ¬P)
    (hy : Ends y t (fun b t' => P' ∧ ends' b t') fun e _ => e.isInconclusive = true ∧ ¬P')
    (h : P ↔ P') : Together x y s t fun a b s' t' => ends a s' ∧ ends' b t' := by
  unfold Ends at hx hy
  unfold Together
  rcases hrun : x.run s with ⟨e | a, s'⟩ <;> rcases hrun' : y.run t with ⟨e' | b, t'⟩ <;>
    rw [hrun] at hx <;> rw [hrun'] at hy
  · exact hy.1.trans hx.1.symm
  · exact hx.2 (h.2 hy.1)
  · exact hy.2 (h.1 hx.1)
  · exact ⟨hx.2, hy.2⟩

end Together

namespace Prover

variable {m m' : Prover} {π : Equiv.Perm Label} {p p' : Protocol} {pass pass' : Transformation}

/-- A proof under other names next to one under the first names. -/
structure IsTwin (π : Equiv.Perm Label) (m m' : Prover) (p p' : Protocol)
    (pass pass' : Transformation) : Prop where
  settings : m'.settings = m.settings
  context : m.context.Resembles π m'.context
  regular : m.context.IsRegular
  regular' : m'.context.IsRegular
  appended : Appended p
  appended' : Appended p'
  isPass : p.IsPass m.settings pass
  isPass' : p'.IsPass m'.settings pass'
  started : (start p' none).toOption = (start p none).toOption.map (Expr.relabel π)
  coordinates (l : Label) : (pass'.protocol.get? (π l)).bind Step.coordinates? =
    (pass.protocol.get? l).bind Step.coordinates?

namespace IsTwin

/-- Both proofs use the same definitions, and their points are yet to be placed, or stand where the passes have
put them. -/
structure Beside (h : IsTwin π m m' p p' pass pass') (s t : Progress) : Prop where
  used : t.used = s.used.map π
  stands : s.Stands m.context p pass.protocol
  stands' : t.Stands m'.context p' pass'.protocol

variable (h : IsTwin π m m' p p' pass pass') {s t : Progress} {e : Expr}

include h in
theorem accords : Accords π m m' pass.protocol pass'.protocol where
  points l := by
    have hcontains : m'.context.freePoints.contains (π l) = m.context.freePoints.contains l := by
      rw [h.context.freePoints, Bool.eq_iff_iff, List.contains_iff_mem, List.contains_iff_mem,
        List.mem_map_of_injective π.injective]
    unfold freeCoordinates
    rw [h.coordinates, hcontains]
    cases (pass.protocol.get? l).bind Step.coordinates? with
    | none => rfl
    | some xy => dsimp only; split <;> rfl
  ratios q := h.context.isParameter π.injective q

section Elimination

/-- An expression and the renamed one, in proofs next to each other. -/
def Related (a b : Expr) (s t : Progress) : Prop := b = a.relabel π ∧ a.IsRegular ∧ h.Beside s t

variable {h}

theorem Beside.update (hst : h.Beside s t) {used used' : List Label} (hused : used' = used.map π)
    (events events' : List Event) :
    h.Beside { s with used, events } { t with used := used', events := events' } where
  used := hused
  stands := hst.stands.imp id fun h => ⟨h.steps, h.index, h.fresh, h.nodup, h.keys, h.canonical⟩
  stands' := hst.stands'.imp id fun h => ⟨h.steps, h.index, h.fresh, h.nodup, h.keys, h.canonical⟩

theorem Beside.report (hst : h.Beside s t) (e e' : Event) :
    Together (Proving.report e) (Proving.report e') s t fun _ _ => h.Beside :=
  together_modify.mono fun _ _ _ _ _ _ ⟨hs, ht⟩ => hs ▸ ht ▸ hst.update hst.used _ _

theorem Beside.simplify (hst : h.Beside s t) (he : e.IsRegular) :
    Together (m.simplify e) (m'.simplify (e.relabel π)) s t h.Related := by
  unfold Prover.simplify
  rw [h.settings]
  refine Together.bind (together_liftM (rel_of_map (Expr.simplifyWithin_relabel π.injective e _)) ?_) ?_
  · intro err err' herr herr'
    obtain ⟨⟨n, rfl⟩, -⟩ := he.simplifyWithin_eq_error herr
    obtain ⟨⟨n', rfl⟩, -⟩ := (he.relabel π.injective).simplifyWithin_eq_error herr'
    rfl
  · rintro ⟨a, settled⟩ _ _ _ ⟨rfl, hsimplify, -, rfl, rfl⟩
    have ha : a.IsRegular := he.simplifyWithin hsimplify
    cases settled with
    | true => exact together_pure ⟨rfl, ha, hst⟩
    | false => exact (hst.report _ _).bind fun _ _ _ _ hst => together_pure ⟨rfl, ha, hst⟩

theorem Beside.recording (hst : h.Beside s t) (he : e.IsRegular) (l : Label) :
    Together (Proving.recording (m.context.eliminate e l))
      (Proving.recording (m'.context.eliminate (e.relabel π) (π l))) s t h.Related := by
  obtain ⟨hresult, hused⟩ := h.context.eliminate π.injective e l s.used
  have hends : Ends (m.context.eliminate e l) s.used _ _ := Context.ends_eliminate h.regular he
  have hends' : Ends (m'.context.eliminate (e.relabel π) (π l)) (s.used.map π) _ _ :=
    Context.ends_eliminate h.regular' (he.relabel π.injective)
  have hrun (u : Using Expr) (s : Progress) :
      (Proving.recording u).run s = ((u.run s.used).1, { s with used := (u.run s.used).2 }) := rfl
  unfold Together
  unfold Ends at hends hends'
  rw [hrun, hrun, hst.used]
  have hst' := hst.update hused s.events t.events
  revert hresult hends hends' hst'
  generalize (m.context.eliminate e l).run s.used = x,
    (m'.context.eliminate (e.relabel π) (π l)).run (s.used.map π) = y
  rcases x with ⟨err | a, used⟩ <;> rcases y with ⟨err' | b, used'⟩ <;> intro hresult hends hends' hst'
  · exact hends'.isInconclusive.trans hends.isInconclusive.symm
  · cases hresult
  · cases hresult
  · exact ⟨Option.some.inj hresult, hends.1, hst'⟩

/-- Passing over points, or eliminating them one after the other. -/
theorem Beside.eliminateAll (hst : h.Beside s t) (he : e.IsRegular) (points : List Label) :
    Together (m.eliminateAll points e) (m'.eliminateAll (points.map π) (e.relabel π)) s t
      fun a b => h.Related a.1 b.1 := by
  induction points generalizing s t e with
  | nil => exact together_pure ⟨rfl, he, hst⟩
  | cons l points ih =>
      have hmentions := h.context.mentions π.injective l e
      obtain ⟨b, hb⟩ := Context.exists_mentions (c := m.context) (l := l) he
      rw [List.map_cons]
      unfold Prover.eliminateAll
      refine Together.bind (together_liftM (R := fun a b => b = a)
        (rel_of_map (f := id) (by rw [hmentions, Option.map_id, id])) fun _ _ herr => ?_) ?_
      · cases hb.symm.trans herr
      · rintro b b' _ _ ⟨hb', -, -, rfl, rfl⟩
        obtain rfl : b' = b := hb'
        cases b' with
        | false => exact ih hst he
        | true =>
            refine (hst.recording he l).bind ?_
            rintro a _ s₁ t₁ ⟨rfl, ha, hst⟩
            refine (hst.simplify ha).bind ?_
            rintro a _ s₂ t₂ ⟨rfl, ha, hst⟩
            refine (ih hst ha).bind ?_
            rintro ⟨last, trace⟩ ⟨_, trace'⟩ s₃ t₃ hlast
            exact together_pure hlast

theorem pointsBefore_relabel (h : IsTwin π m m' p p' pass pass') (before : Option Label) :
    (m'.pointsBefore (before.map π)).toOption =
      (m.pointsBefore before).toOption.map (List.map π) := by
  cases before with
  | none => exact congr_arg some h.context.order
  | some l =>
      have hcontains : (m.context.order.map π).contains (π l) = m.context.order.contains l := by
        rw [Bool.eq_iff_iff, List.contains_iff_mem, List.contains_iff_mem,
          List.mem_map_of_injective π.injective]
      have hbefore : (m.context.order.map π).takeWhile (· ≠ π l) =
          (m.context.order.takeWhile (· ≠ l)).map π := by
        rw [List.takeWhile_map]
        simp only [Function.comp_def, π.injective.ne_iff]
      simp only [Option.map_some, pointsBefore, h.context.order, hcontains, hbefore]
      split <;> rfl

theorem Beside.eliminateConstructed (hst : h.Beside s t) (he : e.IsRegular) (before : Option Label) :
    Together (m.eliminateConstructed e before) (m'.eliminateConstructed (e.relabel π) (before.map π))
      s t fun a b => h.Related a.1 b.1 := by
  have herror {m : Prover} {before : Option Label} {err : Error}
      (herr : m.pointsBefore before = .error err) : err.isInconclusive = false := by
    unfold pointsBefore at herr
    split at herr
    next => cases herr
    next =>
      split at herr
      next => cases herr
      next =>
        cases herr
        rfl
  unfold Prover.eliminateConstructed
  refine Together.bind (together_liftM (rel_of_map (pointsBefore_relabel h before)) ?_) ?_
  · exact fun _ _ herr herr' => (herror herr').trans (herror herr).symm
  · rintro points _ _ _ ⟨rfl, -, -, rfl, rfl⟩
    refine (hst.simplify he).bind ?_
    rintro a _ s₁ t₁ ⟨rfl, ha, hst⟩
    rw [← List.map_reverse]
    exact hst.eliminateAll ha points.reverse

end Elimination

section Coordinates

variable {h} {form form' : Expansion}

/-- An expanded form has a polynomial where the one under other names has. -/
theorem reads_iff (h : IsTwin π m m' p p' pass pass') (he : e.IsRegular)
    (hform : e.normalForm = .ok form) (hform' : (e.relabel π).normalForm = .ok form') :
    (∀ u ∈ form.entries, ∀ q ∈ u.1, m.Reads pass.protocol q) ↔
      ∀ u ∈ form'.entries, ∀ q ∈ u.1, m'.Reads pass'.protocol q := by
  have hmirrors := Expansion.mirrors_normalForm π.injective he hform hform'
  have hcanonical := Expr.isCanonical_normalForm hform
  have hcanonical' := Expr.isCanonical_normalForm hform'
  exact ⟨hmirrors.forall_mem π.injective hcanonical hcanonical' (fun q => (h.accords.reads_iff q).2)
      fun _ _ _ hq ho hk => hq.orient ho hk,
    hmirrors.symm.forall_mem π.symm.injective hcanonical' hcanonical
      (fun q => (h.accords.symm.reads_iff q).2) fun _ _ _ hq ho hk => hq.orient ho hk⟩

theorem together_normalForm (he : e.IsRegular) :
    Together (liftM e.normalForm : Proving Expansion) (liftM (e.relabel π).normalForm : Proving Expansion)
      s t fun form form' s' t' => e.normalForm = .ok form ∧ (e.relabel π).normalForm = .ok form' ∧
        s = s' ∧ t = t' := by
  obtain ⟨form, hform⟩ := he.exists_normalForm
  obtain ⟨form', hform'⟩ := (he.relabel π.injective).exists_normalForm
  rw [hform, hform']
  exact ⟨rfl, rfl, rfl, rfl⟩

/-- The polynomials of an expanded form and of the one under other names. -/
theorem Beside.toPolynomial (hst : h.Beside s t) (he : e.IsRegular) (hform : e.normalForm = .ok form)
    (hform' : (e.relabel π).normalForm = .ok form') :
    Together (m.toPolynomial form) (m'.toPolynomial form') s t fun q q' s' t' =>
      (q'.isZero = q.isZero ∧ q'.isConstant = q.isConstant) ∧ h.Beside s' t' := by
  refine (together_of_requires (requires_toPolynomial h.appended h.isPass hform hst.stands)
    (requires_toPolynomial h.appended' h.isPass' hform' hst.stands') (h.reads_iff he hform hform')).mono ?_
  rintro q q' s' t' hq hq' ⟨hs, ht⟩
  have hfresh := isFresh_toPolynomial h.appended h.isPass hform hq hst.stands
  have hfresh' := isFresh_toPolynomial h.appended' h.isPass' hform' hq' hst.stands'
  have hmirrors := Expansion.mirrors_normalForm π.injective he hform hform'
  refine ⟨isZero_toPolynomial hmirrors h.accords h.isPass.known h.isPass'.known hq hq' hfresh hfresh', ?_⟩
  exact ⟨by rw [← ht, hst.used, hs], .inr hfresh, .inr hfresh'⟩

end Coordinates

section Denominators

variable {h}

theorem Beside.denominatorPolynomial (hst : h.Beside s t) (he : e.IsRegular) (l : Label) :
    Together (m.denominatorPolynomial l e) (m'.denominatorPolynomial (π l) (e.relabel π)) s t
      fun q q' s' t' => q'.isConstant = q.isConstant ∧ h.Beside s' t' := by
  refine (hst.eliminateConstructed he (some l)).bind ?_
  rintro ⟨a, trace⟩ ⟨_, trace'⟩ s₁ t₁ ⟨rfl, ha, hst⟩
  refine (together_normalForm ha).bind ?_
  rintro form form' _ _ ⟨hform, hform', rfl, rfl⟩
  exact (hst.toPolynomial ha hform hform').mono fun _ _ _ _ _ _ hq => ⟨hq.1.2, hq.2⟩

/-- Conditions that are trivial where the others are. -/
def Alike (h : IsTwin π m m' p p' pass pass') (qs qs' : List Polynomial) (s t : Progress) : Prop :=
  qs'.map Polynomial.isConstant = qs.map Polynomial.isConstant ∧ h.Beside s t

theorem Beside.denominatorPolynomials (hst : h.Beside s t) (l : Label) {es : List Expr}
    (hes : ∀ e ∈ es, e.IsRegular) :
    Together (m.denominatorPolynomials l es)
      (m'.denominatorPolynomials (π l) (es.map (Expr.relabel π))) s t h.Alike := by
  induction es generalizing s t with
  | nil => exact together_pure ⟨rfl, hst⟩
  | cons e es ih =>
      obtain ⟨he, hes⟩ := List.forall_mem_cons.1 hes
      refine (hst.denominatorPolynomial he l).bind ?_
      rintro q q' s₁ t₁ ⟨hq, hst⟩
      refine (ih hst hes).bind ?_
      rintro qs qs' s₂ t₂ ⟨hqs, hst⟩
      refine together_pure ⟨?_, hst⟩
      rw [hq]
      split
      next => exact hqs
      next => rw [List.map_cons, List.map_cons, hq, hqs]

theorem Beside.denominatorsFrom (hst : h.Beside s t) (n position : ℕ) :
    Together (m.denominatorsFrom n position) (m'.denominatorsFrom n position) s t h.Alike := by
  induction n generalizing s t position with
  | zero => exact together_pure ⟨rfl, hst⟩
  | succ n ih =>
      refine together_get.bind ?_
      rintro _ _ _ _ ⟨rfl, rfl, rfl, rfl⟩
      rw [hst.used, List.getElem?_map]
      cases s.used[position]? with
      | none => exact together_pure ⟨rfl, hst⟩
      | some point =>
          simp only [Option.map_some, h.context.denominators π.injective]
          refine (hst.denominatorPolynomials point h.regular.denominators).bind ?_
          rintro qs qs' s₁ t₁ ⟨hqs, hst⟩
          refine (ih hst (position + 1)).bind ?_
          rintro rest rest' s₂ t₂ ⟨hrest, hst⟩
          exact together_pure ⟨by rw [List.map_append, List.map_append, hqs, hrest], hst⟩

/-- Proofs of a statement and of the one under other names: the decision is the same, and so are the
conditions, as far as they are trivial. -/
theorem together_prove (h : IsTwin π m m' p p' pass pass') (hst : h.Beside s t) (hs : s.protocol = p)
    (ht : t.protocol = p') :
    Together (m.prove none) (m'.prove none) s t fun proof proof' s' t' =>
      proof'.holds = proof.holds ∧ h.Alike proof.nondegenerate proof'.nondegenerate s' t' := by
  unfold prove
  refine together_get.bind ?_
  rintro _ _ _ _ ⟨rfl, rfl, rfl, rfl⟩
  refine (together_liftM (rel_of_map (hs ▸ ht ▸ h.started)) fun err err' herr herr' => ?_).bind ?_
  · exact (isInconclusive_of_start herr').trans (isInconclusive_of_start herr).symm
  · rintro e _ _ _ ⟨rfl, hstart, -, rfl, rfl⟩
    have he := isRegular_of_start (hs ▸ h.appended) hstart
    refine (hst.eliminateConstructed he none).bind ?_
    rintro ⟨a, trace⟩ ⟨_, trace'⟩ s₁ t₁ ⟨rfl, ha, hst⟩
    refine (together_normalForm ha).bind ?_
    rintro form form' _ _ ⟨hform, hform', rfl, rfl⟩
    refine (hst.report _ _).bind ?_
    rintro _ _ s₂ t₂ hst
    have hzero : form'.isZero = form.isZero :=
      (Expansion.mirrors_normalForm π.injective ha hform hform').isZero_eq
        (Expr.isCanonical_normalForm hform) (Expr.isCanonical_normalForm hform')
    have hconclude {q q' : Option Polynomial} {s t : Progress}
        (hq : q'.all Sparse.isZero = q.all Sparse.isZero) (hst : h.Beside s t) : Together (do
          return (⟨q.all Sparse.isZero, form, q, trace, ← m.nondegenerate⟩ : Proof)) (do
          return (⟨q'.all Sparse.isZero, form', q', trace', ← m'.nondegenerate⟩ : Proof)) s t
        fun proof proof' s' t' => proof'.holds = proof.holds ∧
          h.Alike proof.nondegenerate proof'.nondegenerate s' t' := by
      unfold nondegenerate
      rw [h.context.order, List.length_map]
      refine (hst.denominatorsFrom m.context.order.length 0).bind ?_
      rintro qs qs' s₄ t₄ hqs
      exact together_pure ⟨hq, hqs⟩
    rw [hzero]
    split
    next => exact hconclude rfl hst
    next =>
      have hpolynomial : Together (some <$> m.toPolynomial form) (some <$> m'.toPolynomial form') s₂ t₂
          fun q q' s' t' => q'.all Sparse.isZero = q.all Sparse.isZero ∧ h.Beside s' t' :=
        (hst.toPolynomial ha hform hform').bind fun q q' s₃ t₃ hq => together_pure ⟨hq.1.1, hq.2⟩
      exact hpolynomial.bind fun q q' s₃ t₃ hq => hconclude hq.1 hq.2

end Denominators

end IsTwin

end Prover

end Planimetry.Area
