import Planimetry.Proofs.Area.Nondegeneracy

/-! The stages of a proof: elimination from the statement, the polynomial of what is left, and the same for
each denominator of the definitions in use. What the stages do to expressions, the proof does. -/

namespace Planimetry.Area

section Ends

variable {σ ε α β : Type} {s s' : σ} {e : ε} {a : α} {post post' : α → σ → Prop}
  {fails fails' : ε → σ → Prop}

/-- A computation returns with what one condition asks of the result and the state, or it fails with what
another one asks of the error and the state. -/
def Ends (x : ExceptT ε (StateM σ) α) (s : σ) (post : α → σ → Prop) (fails : ε → σ → Prop) : Prop :=
  match x.run s with
  | (.ok a, s') => post a s'
  | (.error e, s') => fails e s'

theorem Ends.mono {x : ExceptT ε (StateM σ) α} (h : Ends x s post fails)
    (hpost : ∀ a t, Returns x s a t → post a t → post' a t)
    (hfails : ∀ e t, fails e t → fails' e t) : Ends x s post' fails' := by
  unfold Ends at h ⊢
  rcases hx : x.run s with ⟨e | a, t⟩
  · rw [hx] at h
    exact hfails e t h
  · rw [hx] at h
    exact hpost a t hx h

theorem Ends.bind {x : ExceptT ε (StateM σ) α} {f : α → ExceptT ε (StateM σ) β}
    {post' : β → σ → Prop} (hx : Ends x s post fails)
    (hf : ∀ a t, Returns x s a t → post a t → Ends (f a) t post' fails) :
    Ends (x >>= f) s post' fails := by
  unfold Ends at hx
  unfold Ends
  rw [run_bind]
  rcases hr : x.run s with ⟨e | a, t⟩
  · rw [hr] at hx
    exact hx
  · rw [hr] at hx
    exact hf a t hr hx

theorem Ends.of_returns {x : ExceptT ε (StateM σ) α} (h : Ends x s post fails) (hx : Returns x s a s') :
    post a s' := by
  unfold Ends at h
  rw [hx] at h
  exact h

theorem ends_returns (x : ExceptT ε (StateM σ) α) (s : σ) :
    Ends x s (fun a t => Returns x s a t) fun e t => x.run s = (.error e, t) := by
  unfold Ends
  rcases hr : x.run s with ⟨e | a, t⟩
  · rfl
  · exact hr

theorem ends_pure (h : post a s) : Ends (pure a : ExceptT ε (StateM σ) α) s post fails := h

theorem ends_throw (h : fails e s) : Ends (throw e : ExceptT ε (StateM σ) α) s post fails := h

theorem ends_liftM {x : Except ε α} (h : ∀ e, x = .error e → fails e s) :
    Ends (liftM x : ExceptT ε (StateM σ) α) s (fun a t => x = .ok a ∧ s = t) fails := by
  cases x with
  | error e => exact h e rfl
  | ok a => exact ⟨rfl, rfl⟩

theorem ends_liftM_of_ok {x : Except ε α} (h : x = .ok a) :
    Ends (liftM x : ExceptT ε (StateM σ) α) s (fun b t => a = b ∧ s = t) fails := by
  subst h
  exact ⟨rfl, rfl⟩

theorem ends_get : Ends (get : ExceptT ε (StateM σ) σ) s (fun t s' => s = t ∧ s = s') fails :=
  ⟨rfl, rfl⟩

theorem ends_modify {f : σ → σ} :
    Ends (modify f : ExceptT ε (StateM σ) Unit) s (fun _ s' => s' = f s) fails := rfl

theorem ends_set {t : σ} :
    Ends (set t : ExceptT ε (StateM σ) PUnit) s (fun _ s' => s' = t) fails := rfl

end Ends

/-- A free point, or a constructed one, before a given one if there is one. -/
def Context.ListsUpTo (c : Context) : Option Label → Label → Prop
  | none => c.Lists
  | some point => c.ListsBefore point

namespace Progress

variable {c : Context} {p q : Protocol} {s s' : Progress}

/-- Points are yet to be placed, or stand where a pass has put them; and only constructed points are in
use. -/
structure IsSteady (c : Context) (p q : Protocol) (s : Progress) : Prop where
  stands : s.Stands c p q
  used : s.used ⊆ c.order

theorem IsSteady.of_keeps (hs : s.IsSteady c p q) (h : s.Keeps s')
    (hused : ∀ l ∈ s'.used, l ∈ s.used ∨ l ∈ c.order) : s'.IsSteady c p q :=
  ⟨h.stands hs.stands, fun l hl => (hused l hl).elim (fun hl => hs.used hl) id⟩

end Progress

/-- Only what is not an expression has none. -/
theorem Operand.expression?_eq_error {a : Operand} {err : Error} (h : a.expression? = .error err) :
    ∃ type, err = .notExpression type := by
  induction a with
  | expression e => cases h
  | joined how l r ihl ihr =>
      rcases bind_eq_error h with h | ⟨e, -, h⟩
      · exact ihl h
      rcases bind_eq_error h with h | ⟨f, -, h⟩
      · exact ihr h
      · cases h
  | negated a ih =>
      refine ih ((bind_eq_error h).resolve_right ?_)
      rintro ⟨e, -, h⟩
      cases h
  | marked a p ih =>
      refine ih ((bind_eq_error h).resolve_right ?_)
      rintro ⟨e, -, h⟩
      cases h
  | expansion s | scalar v => exact ⟨_, (Except.error.inj h).symm⟩

theorem Statement.ofConstruction_eq_error {k : Construction} {err : Error}
    (h : Statement.ofConstruction k = .error err) : ∃ kind, err = .noAreaForm kind := by
  cases k with
  | statement relation => cases relation <;> cases h <;> exact ⟨_, rfl⟩
  | point | set => exact ⟨_, (Except.error.inj h).symm⟩

namespace Prover

variable {m : Prover} {p q : Protocol} {s s' : Progress} {e : Expr} {l : Label}

theorem ends_recording {α : Type} {u : Using α} {post : α → List Label → Prop}
    {fails : Error → List Label → Prop} (h : Ends u s.used post fails) :
    Ends (Proving.recording u) s (fun a s' => post a s'.used) fun e s' => fails e s'.used := by
  have hrun : (Proving.recording u).run s = ((u.run s.used).1, { s with used := (u.run s.used).2 }) :=
    rfl
  unfold Ends at h ⊢
  rw [hrun]
  rcases hu : u.run s.used with ⟨err | a, used⟩ <;> rw [hu] at h <;> exact h

/-- The points to eliminate are the first constructed ones. -/
theorem exists_pointsBefore {before : Option Label} (hbefore : ∀ l ∈ before, l ∈ m.context.order) :
    ∃ points later, m.pointsBefore before = .ok points ∧ m.context.order = points ++ later ∧
      ∀ l, m.context.ListsUpTo before l → l ∈ m.context.freePoints ∨ l ∈ points := by
  unfold pointsBefore
  cases before with
  | none => exact ⟨_, [], rfl, (List.append_nil _).symm, fun l hl => hl⟩
  | some point =>
      dsimp only
      rw [if_pos (List.contains_iff_mem.2 (hbefore point rfl))]
      exact ⟨_, _, rfl, (List.takeWhile_append_dropWhile).symm, fun l hl => hl⟩

/-- What the elimination of one point and the simplification after it keep, with one point less to go, the
elimination of one point after another keeps. -/
theorem ends_eliminateAll_of_step {I : List Label → Expr → Progress → Prop} {fails : Error → Progress → Prop}
    (hmentions : ∀ p ps e s err, I (p :: ps) e s → m.context.mentions p e = .error err → fails err s)
    (hskip : ∀ p ps e s, I (p :: ps) e s → m.context.mentions p e = .ok false → I ps e s)
    (hstep : ∀ p ps e s, I (p :: ps) e s → m.context.mentions p e = .ok true →
      Ends (Proving.recording (m.context.eliminate e p)) s
        (fun a s₁ => Ends (m.simplify a) s₁ (fun b s₂ => I ps b s₂) fails) fails)
    {ps : List Label} (h : I ps e s) : Ends (m.eliminateAll ps e) s (fun r s' => I [] r.1 s') fails := by
  induction ps generalizing s e with
  | nil => exact ends_pure h
  | cons p ps ih =>
      unfold eliminateAll
      refine (ends_liftM fun err herr => hmentions p ps e s err h herr).bind ?_
      rintro mentioned _ - ⟨hmentioned, rfl⟩
      cases mentioned with
      | false => exact ih (hskip p ps e s h hmentioned)
      | true =>
          refine (hstep p ps e s h hmentioned).bind ?_
          rintro a s₁ - ha
          refine ha.bind ?_
          rintro b s₂ - hb
          refine (ih hb).bind ?_
          rintro ⟨last, trace⟩ s₃ - hlast
          exact ends_pure hlast

/-- A proof cannot start without a statement, from one that is no expression or has no area form, or from one
of points that are unknown. -/
theorem start_eq_error {statement : Option Statement} {err : Error} (h : start p statement = .error err) :
    (statement.isSome = true ∧ ∃ type, err = .notExpression type) ∨ err = .noStatement ∨
      (∃ kind, err = .noAreaForm kind) ∨ ∃ labels, err = .unknownPoints labels := by
  unfold start at h
  cases statement with
  | some st =>
      rcases bind_eq_error h with h | ⟨e, -, h⟩
      · exact .inl ⟨rfl, Operand.expression?_eq_error h⟩
      · dsimp only at h
        split at h
        next => cases h
        next => exact .inr (.inr (.inr ⟨_, (Except.error.inj h).symm⟩))
  | none =>
      cases hst : p.statement with
      | none =>
          rw [hst] at h
          exact .inr (.inl (Except.error.inj h).symm)
      | some st =>
          rw [hst] at h
          rcases bind_eq_error h with h | ⟨e, -, h⟩
          · exact .inr (.inr (.inl (Statement.ofConstruction_eq_error h)))
          · dsimp only at h
            split at h
            next => cases h
            next => exact .inr (.inr (.inr ⟨_, (Except.error.inj h).symm⟩))

theorem isInconclusive_of_start {err : Error} (h : start p none = .error err) :
    err.isInconclusive = true := by
  rcases start_eq_error h with ⟨h, -⟩ | rfl | ⟨kind, rfl⟩ | ⟨labels, rfl⟩
  · cases h
  · rfl
  · rfl
  · rfl

/-- Stages of proofs: elimination, up to a point if one is given, makes expressions of one kind into those of
another; these have polynomials with a property; and denominators are of the first kind. -/
structure IsStaged (m : Prover) (p q : Protocol) (given : Option Label → Expr → Prop) (left : Expr → Prop)
    (good : Polynomial → Prop) (fails : Error → Progress → Prop) : Prop where
  eliminates (before : Option Label) (e : Expr) (s : Progress) (he : given before e)
    (hbefore : ∀ l ∈ before, l ∈ m.context.order) (hs : s.IsSteady m.context p q) :
    Ends (m.eliminateConstructed e before) s (fun r s' => left r.1 ∧ s'.IsSteady m.context p q) fails
  expands (e : Expr) (s : Progress) (err : Error) (he : left e) (herr : e.normalForm = .error err) :
    fails err s
  reads (e : Expr) (form : Expansion) (s : Progress) (he : left e) (hform : e.normalForm = .ok form)
    (hs : s.IsSteady m.context p q) :
    Ends (m.toPolynomial form) s (fun r s' => good r ∧ s'.IsSteady m.context p q) fails
  denominators (l : Label) : ∀ e ∈ m.context.denominators l, given (some l) e

namespace IsStaged

variable {given : Option Label → Expr → Prop} {left : Expr → Prop} {good : Polynomial → Prop}
  {fails : Error → Progress → Prop} (h : m.IsStaged p q given left good fails)

include h

theorem ends_denominatorPolynomials {es : List Expr} (hl : l ∈ m.context.order)
    (hes : ∀ e ∈ es, given (some l) e) (hs : s.IsSteady m.context p q) :
    Ends (m.denominatorPolynomials l es) s (fun rs s' => (∀ r ∈ rs, good r) ∧ s'.IsSteady m.context p q)
      fails := by
  induction es generalizing s with
  | nil => exact ends_pure ⟨List.forall_mem_nil _, hs⟩
  | cons e es ih =>
      obtain ⟨he, hes⟩ := List.forall_mem_cons.1 hes
      have hpolynomial : Ends (m.denominatorPolynomial l e) s
          (fun r s' => good r ∧ s'.IsSteady m.context p q) fails := by
        refine (h.eliminates _ e s he (fun _ hk => Option.some.inj hk ▸ hl) hs).bind ?_
        rintro ⟨e', trace⟩ s₁ - ⟨he', hs₁⟩
        refine (ends_liftM fun err herr => h.expands e' s₁ err he' herr).bind ?_
        rintro form _ - ⟨hform, rfl⟩
        exact h.reads e' form s₁ he' hform hs₁
      refine hpolynomial.bind ?_
      rintro r s₁ - ⟨hr, hs₁⟩
      refine (ih hes hs₁).bind ?_
      rintro rs s₂ - ⟨hrs, hs₂⟩
      refine ends_pure ⟨?_, hs₂⟩
      split
      next => exact hrs
      next => exact List.forall_mem_cons.2 ⟨hr, hrs⟩

/-- The denominators of all points in use, those that come into use meanwhile included. -/
theorem ends_denominatorsFrom {n position : ℕ} (hs : s.IsSteady m.context p q) :
    Ends (m.denominatorsFrom n position) s
      (fun rs s' => (∀ r ∈ rs, good r) ∧ s'.IsSteady m.context p q) fails := by
  induction n generalizing s position with
  | zero => exact ends_pure ⟨List.forall_mem_nil _, hs⟩
  | succ n ih =>
      refine ends_get.bind ?_
      rintro _ _ - ⟨rfl, rfl⟩
      split
      next => exact ends_pure ⟨List.forall_mem_nil _, hs⟩
      next point hpoint =>
        have horder := hs.used (List.mem_of_getElem? hpoint)
        refine (h.ends_denominatorPolynomials horder (h.denominators point) hs).bind ?_
        rintro rs s₁ - ⟨hrs, hs₁⟩
        refine (ih hs₁).bind ?_
        rintro rest s₂ - ⟨hrest, hs₂⟩
        exact ends_pure ⟨List.forall_mem_append.2 ⟨hrs, hrest⟩, hs₂⟩

/-- All polynomials of a proof have the property, if the expression to decide is of the first kind. -/
theorem ends_prove {statement : Option Statement}
    (hfails : ∀ err, start s.protocol statement = .error err → fails err s)
    (hstart : ∀ e, start s.protocol statement = .ok e → given none e) (hs : s.IsSteady m.context p q) :
    Ends (m.prove statement) s (fun proof s' => ((∀ r ∈ proof.polynomial, good r) ∧
      ∀ r ∈ proof.nondegenerate, good r) ∧ s'.IsSteady m.context p q) fails := by
  refine ends_get.bind ?_
  rintro _ _ - ⟨rfl, rfl⟩
  refine (ends_liftM hfails).bind ?_
  rintro e _ - ⟨he, rfl⟩
  refine (h.eliminates none e s (hstart e he) (fun l hl => absurd hl (Option.not_mem_none l)) hs).bind ?_
  rintro ⟨e', trace⟩ s₁ - ⟨he', hs₁⟩
  refine (ends_liftM fun err herr => h.expands e' s₁ err he' herr).bind ?_
  rintro form _ - ⟨hform, rfl⟩
  refine ends_modify.bind ?_
  rintro _ s₂ - rfl
  have hs₂ : Progress.IsSteady m.context p q { s₁ with
      events := s₁.events ++ [⟨.info, .areaProver,
        "Area method normal form has " ++ toString form.size ++ " term(s)"⟩] } :=
    ⟨hs₁.stands.imp id fun h => ⟨h.steps, h.index, h.fresh, h.nodup, h.keys, h.canonical⟩, hs₁.used⟩
  have hconclude {polynomial : Option Polynomial} (hr : ∀ r ∈ polynomial, good r) {t : Progress}
      (ht : t.IsSteady m.context p q) : Ends (do
        return (⟨polynomial.all Sparse.isZero, form, polynomial, trace, ← m.nondegenerate⟩ : Proof)) t
      (fun proof s' => ((∀ r ∈ proof.polynomial, good r) ∧ ∀ r ∈ proof.nondegenerate, good r) ∧
        s'.IsSteady m.context p q) fails := by
    refine (h.ends_denominatorsFrom ht).bind ?_
    rintro rs t' - ⟨hrs, ht'⟩
    exact ends_pure ⟨⟨hr, hrs⟩, ht'⟩
  dsimp only
  split
  next => exact hconclude (fun r hr => absurd hr (Option.not_mem_none r)) hs₂
  next =>
    have hpolynomial : Ends (some <$> m.toPolynomial form) _
        (fun polynomial t => (∀ r ∈ polynomial, good r) ∧ t.IsSteady m.context p q) fails :=
      (h.reads e' form _ he' hform hs₂).bind fun r _ _ hr =>
        ends_pure ⟨fun _ heq => Option.some.inj heq ▸ hr.1, hr.2⟩
    refine hpolynomial.bind ?_
    rintro polynomial t - ⟨hr, ht⟩
    exact hconclude hr ht

end IsStaged

end Prover

end Planimetry.Area
