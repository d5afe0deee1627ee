import Planimetry.Proofs.Area.Decision
import Planimetry.Proofs.Area.Repetition

/-! The conditions of a proof: the denominators of all definitions in use are computed on the way, those of
definitions that come into use meanwhile included. Where no condition vanishes, no such denominator is
zero, unless the definitions apply nowhere. -/

namespace Planimetry.Area

namespace Context

variable {c : Context} {used used' : List Label} {place : Label → ℚ × ℚ} {ratio : Quantity → ℚ}

/-- The definitions of some points hold. -/
def HoldAt (c : Context) (used : List Label) (place : Label → ℚ × ℚ) (ratio : Quantity → ℚ) : Prop :=
  ∀ l ∈ used, ∀ d, c.find? l = some d → d.HoldsAt place ratio

/-- At some placement the definitions of some points hold, and their denominators are not zero. -/
def IsApplicable (c : Context) (used : List Label) : Prop :=
  ∃ place ratio, c.HoldAt used place ratio ∧
    ∀ l ∈ used, ∀ e ∈ c.denominators l, e.valueAt (Quantity.valueAt place ratio) ≠ 0

theorem HoldAt.mono (h : c.HoldAt used place ratio) (hsub : used' ⊆ used) :
    c.HoldAt used' place ratio := fun l hl => h l (hsub hl)

end Context

namespace Progress

variable {c : Context} {p q : Protocol} {s s' s'' : Progress} {place : Label → ℚ × ℚ}
  {ratio : Quantity → ℚ}

/-- Points are yet to be placed, or stand where a pass has put them. -/
def Stands (c : Context) (p q : Protocol) (s : Progress) : Prop :=
  s.protocol = p ∧ s.ratios = [] ∨ s.IsFresh c q

/-- A stretch of a proof: definitions in use, coordinates and variables are kept, and further points in use
are constructed ones, provided that their definitions hold. -/
structure Leads (c : Context) (p q : Protocol) (place : Label → ℚ × ℚ) (ratio : Quantity → ℚ)
    (s s' : Progress) : Prop where
  used : Grows s.used s'.used
  among : c.HoldAt s'.used place ratio → ∀ l ∈ s'.used, l ∈ s.used ∨ l ∈ c.order
  stands : s.Stands c p q → s'.Stands c p q
  fresh : s.IsFresh c q → s'.IsFresh c q ∧ s.Extends s'

theorem Leads.refl (s : Progress) : s.Leads c p q place ratio s :=
  ⟨.refl _, fun _ _ hl => .inl hl, id, fun h => ⟨h, .refl _⟩⟩

theorem Leads.trans (h : s.Leads c p q place ratio s') (h' : s'.Leads c p q place ratio s'') :
    s.Leads c p q place ratio s'' where
  used := h.used.trans h'.used
  among := fun hd l hl => (h'.among hd l hl).elim
    (h.among (hd.mono h'.used.1.subset) l) .inr
  stands := fun hs => h'.stands (h.stands hs)
  fresh := fun hs => by
    obtain ⟨hs', hextends⟩ := h.fresh hs
    obtain ⟨hs'', hextends'⟩ := h'.fresh hs'
    exact ⟨hs'', hextends.trans hextends'⟩

theorem IsFresh.of_keeps (hs : s.IsFresh c q) (h : s.Keeps s') : s'.IsFresh c q where
  steps := h.protocol ▸ hs.steps
  index := h.protocol ▸ hs.index
  fresh := by
    rw [h.ratios, h.protocol]
    exact hs.fresh
  nodup := h.ratios ▸ hs.nodup
  keys := h.ratios ▸ hs.keys
  canonical := h.ratios ▸ hs.canonical

theorem Keeps.stands (h : s.Keeps s') (hs : s.Stands c p q) : s'.Stands c p q :=
  hs.imp (fun hs => ⟨h.protocol.trans hs.1, h.ratios.trans hs.2⟩) fun hs => hs.of_keeps h

theorem Keeps.leads (h : s.Keeps s')
    (hamong : c.HoldAt s'.used place ratio → ∀ l ∈ s'.used, l ∈ s.used ∨ l ∈ c.order) :
    s.Leads c p q place ratio s' where
  used := h.used
  among := hamong
  stands := h.stands
  fresh := fun hs => ⟨hs.of_keeps h, by rw [h.protocol], h.ratios ▸ List.Subset.refl _⟩

end Progress

namespace Prover

variable {m : Prover} {s s' : Progress} {e e' : Expr} {l : Label} {form : Expansion}
  {q : Polynomial} {qs : List Polynomial} {p : Protocol} {pass : Transformation}
  {place : Label → ℚ × ℚ} {ratio : Quantity → ℚ} {x : ℚ} {n position : ℕ}

theorem mem_order_of_pointsBefore {before : Option Label} {points : List Label}
    (h : m.pointsBefore before = .ok points) : points ⊆ m.context.order := by
  unfold pointsBefore at h
  split at h
  next =>
    cases h
    exact List.Subset.refl _
  next =>
    split at h
    next =>
      cases h
      exact (List.takeWhile_prefix _).subset
    next => cases h

theorem leads_eliminateConstructed {before : Option Label} {trace : List (Label × Expr)}
    (h : Returns (m.eliminateConstructed e before) s (e', trace) s')
    (he : e.Denotes (Quantity.valueAt place ratio) x) :
    s.Leads m.context p pass.protocol place ratio s' := by
  refine (keeps_eliminateConstructed h).leads fun hd l hl => ?_
  obtain ⟨points, -, -, hpoints, -⟩ := returns_eliminateConstructed h
  refine ((denotes_eliminateConstructed h hpoints he fun k _ hk => hd k hk).2 l hl).imp_right ?_
  exact fun hl => mem_order_of_pointsBefore hpoints hl

theorem used_quantityPolynomial {k : Quantity} (h : Returns (m.quantityPolynomial k) s q s') :
    s'.used = s.used := by
  cases k with
  | area a b c =>
      obtain ⟨rfl, -⟩ := returns_inCoordinates h
      rfl
  | pythagoras a b c =>
      obtain ⟨rfl, -⟩ := returns_inCoordinates h
      rfl
  | ratio a b c d =>
      obtain ⟨-, v, hv, -⟩ := returns_ratioPolynomial h
      rcases returns_ratioVariable hv with ⟨rfl, -⟩ | ⟨-, -, rfl⟩ <;> rfl

theorem used_toPolynomial (h : Returns (m.toPolynomial form) s q s') : s'.used = s.used := by
  obtain ⟨s₁, hplace, hsum⟩ := returns_toPolynomial h
  have hkept : s'.used = s₁.used :=
    sum_of_quantities (R := fun s s' => s'.used = s.used) ⟨fun _ => rfl, fun h h' => h'.trans h⟩
      (fun _ _ _ _ _ _ _ h => used_quantityPolynomial h) hsum
  exact hkept.trans (returns_placePoints hplace).2.1

theorem returns_denominatorPolynomial (h : Returns (m.denominatorPolynomial l e) s q s') :
    ∃ e' trace s₁ form, Returns (m.eliminateConstructed e (some l)) s (e', trace) s₁ ∧
      e'.normalForm = .ok form ∧ Returns (m.toPolynomial form) s₁ q s' := by
  unfold denominatorPolynomial at h
  obtain ⟨⟨e', trace⟩, s₁, heliminate, h⟩ := returns_bind.1 h
  obtain ⟨form, s₂, hlift, h⟩ := returns_bind.1 h
  obtain ⟨hform, rfl⟩ := returns_liftM.1 hlift
  exact ⟨e', trace, s₁, form, heliminate, hform, h⟩

/-- The polynomial of a denominator vanishes with it, if the definitions of earlier points in use hold. -/
theorem valueAt_denominatorPolynomial_iff {σ : Variable → ℚ}
    (h : Returns (m.denominatorPolynomial l e) s q s')
    (he : e.Denotes (Quantity.valueAt place ratio) x)
    (hs : s'.ReadsAt m.context.freePoints σ place ratio)
    (hd : ∀ k ∈ m.context.order.takeWhile (· ≠ l), k ∈ s'.used → ∀ d, m.context.find? k = some d →
      d.HoldsAt place ratio) : q.valueAt σ = 0 ↔ x = 0 := by
  obtain ⟨e', trace, s₁, form, heliminate, hform, h⟩ := returns_denominatorPolynomial h
  obtain ⟨points, -, -, hpoints, -⟩ := returns_eliminateConstructed heliminate
  have hbefore : points = m.context.order.takeWhile (· ≠ l) := by
    unfold pointsBefore at hpoints
    dsimp only at hpoints
    split at hpoints
    next => exact (Except.ok.inj hpoints).symm
    next => cases hpoints
  obtain ⟨he', -⟩ := denotes_eliminateConstructed heliminate hpoints he fun k hk hused =>
    hd k (hbefore ▸ hk) (used_toPolynomial h ▸ hused)
  rw [valueAt_toPolynomial h hs]
  exact he'.normalForm (respectsOrientation_valueAt _ _) hform

section Pass

variable (hp : Appended p) (hpass : p.IsPass m.settings pass)

include hp hpass

/-- After points are placed, they stand where the pass has put them; if they did, nothing changes. -/
theorem isFresh_placePoints {u : Unit} (h : Returns m.placePoints s u s')
    (hs : s.Stands m.context p pass.protocol) :
    s'.IsFresh m.context pass.protocol ∧ (s.IsFresh m.context pass.protocol → s' = s) := by
  have hunchanged (hs : s.IsFresh m.context pass.protocol) : s' = s := by
    have hplaced : ∀ t ∈ s.protocol.points, t.isPlaced = true := by
      unfold Protocol.points
      rw [hs.steps]
      exact hpass.placed
    have heq := h.symm.trans (returns_placePoints_of_isPlaced (m := m) hplaced)
    exact congr_arg Prod.snd heq
  refine ⟨?_, hunchanged⟩
  rcases hs with ⟨hprotocol, hratios⟩ | hs
  · obtain ⟨hkept, -, ⟨hplaced, heq⟩ | ⟨t, hrun, heq⟩⟩ := returns_placePoints h
    · have hsame : pass.protocol = s'.protocol := by
        rw [hprotocol] at hplaced heq
        rw [hpass.eq_startWu hp (List.all_eq_true.1 hplaced), heq]
        rfl
      rw [hsame]
      exact Progress.isFresh_of_nil (hkept.trans hratios)
    · rw [hprotocol, hpass.run] at hrun
      obtain ⟨-, rfl⟩ := Prod.mk.inj hrun
      rw [← heq]
      exact Progress.isFresh_of_nil (hkept.trans hratios)
  · rw [hunchanged hs]
    exact hs

theorem isFresh_toPolynomial (hform : e.normalForm = .ok form)
    (h : Returns (m.toPolynomial form) s q s') (hs : s.Stands m.context p pass.protocol) :
    s'.IsFresh m.context pass.protocol := by
  obtain ⟨s₁, hplace, hsum⟩ := returns_toPolynomial h
  exact isFresh_sumPolynomial (Expr.isOriented_normalForm hform) hsum
    (isFresh_placePoints hp hpass hplace hs).1

theorem leads_toPolynomial (hform : e.normalForm = .ok form)
    (h : Returns (m.toPolynomial form) s q s') :
    s.Leads m.context p pass.protocol place ratio s' := by
  obtain ⟨s₁, hplace, hsum⟩ := returns_toPolynomial h
  have hused := used_toPolynomial h
  have hextends : s₁.Extends s' := sum_of_quantities isStepwise_extends
    (fun _ _ _ _ _ _ _ h => extends_quantityPolynomial h) hsum
  have hfresh := isFresh_toPolynomial hp hpass hform h
  refine ⟨hused ▸ .refl _, fun _ l hl => .inl (hused ▸ hl), fun hs => .inr (hfresh hs),
    fun hs => ⟨hfresh (.inr hs), ?_⟩⟩
  rw [← (isFresh_placePoints hp hpass hplace (.inr hs)).2 hs]
  exact hextends

theorem leads_denominatorPolynomial (h : Returns (m.denominatorPolynomial l e) s q s')
    (he : e.Denotes (Quantity.valueAt place ratio) x) :
    s.Leads m.context p pass.protocol place ratio s' := by
  obtain ⟨e', trace, s₁, form, heliminate, hform, h⟩ := returns_denominatorPolynomial h
  exact (leads_eliminateConstructed heliminate he).trans (leads_toPolynomial hp hpass hform h)

end Pass

/-- On the way from one state to another the polynomial of a denominator is computed; it is constant or
one of those given. -/
def Settles (m : Prover) (p : Protocol) (pass : Transformation) (place : Label → ℚ × ℚ)
    (ratio : Quantity → ℚ) (l : Label) (e : Expr) (qs : List Polynomial) (s s' : Progress) : Prop :=
  ∃ s₁ q s₂, s.Leads m.context p pass.protocol place ratio s₁ ∧
    Returns (m.denominatorPolynomial l e) s₁ q s₂ ∧
    s₂.Leads m.context p pass.protocol place ratio s' ∧ (q.isConstant = true ∨ q ∈ qs)

theorem Settles.extend {t t' : Progress} {qs' : List Polynomial}
    (h : m.Settles p pass place ratio l e qs s s')
    (hbefore : t.Leads m.context p pass.protocol place ratio s)
    (hafter : s'.Leads m.context p pass.protocol place ratio t') (hsub : qs ⊆ qs') :
    m.Settles p pass place ratio l e qs' t t' := by
  obtain ⟨s₁, q, s₂, h₁, hq, h₂, hmem⟩ := h
  exact ⟨s₁, q, s₂, hbefore.trans h₁, hq, h₂.trans hafter, hmem.imp_right fun hq => hsub hq⟩

section Denominators

variable (hp : Appended p) (hpass : p.IsPass m.settings pass)

include hp hpass

theorem settles_denominatorPolynomials {es : List Expr}
    (h : Returns (m.denominatorPolynomials l es) s qs s')
    (hes : ∀ e ∈ es, e.IsDefined (Quantity.valueAt place ratio)) :
    s.Leads m.context p pass.protocol place ratio s' ∧
      ∀ e ∈ es, m.Settles p pass place ratio l e qs s s' := by
  induction es generalizing s qs with
  | nil =>
      obtain ⟨-, rfl⟩ := returns_pure.1 h
      exact ⟨.refl _, List.forall_mem_nil _⟩
  | cons e es ih =>
      obtain ⟨he, hes⟩ := List.forall_mem_cons.1 hes
      unfold denominatorPolynomials at h
      obtain ⟨q, s₁, hq, h⟩ := returns_bind.1 h
      obtain ⟨rest, s₂, hrest, h⟩ := returns_bind.1 h
      obtain ⟨hqs, rfl⟩ := returns_pure.1 h
      have hfirst := leads_denominatorPolynomial hp hpass hq (Expr.denotes_self he)
      obtain ⟨hleads, hsettles⟩ := ih hrest hes
      have hsub : rest ⊆ qs := by
        rw [hqs]
        split
        next => exact List.Subset.refl _
        next => exact List.subset_cons_self _ _
      refine ⟨hfirst.trans hleads, List.forall_mem_cons.2 ⟨⟨s, q, s₁, .refl _, hq, hleads, ?_⟩,
        fun e he => (hsettles e he).extend hfirst (.refl _) hsub⟩⟩
      by_cases hconstant : q.isConstant = true
      · exact .inl hconstant
      · refine .inr ?_
        rw [hqs, if_neg hconstant]
        exact List.mem_cons_self

/-- The work list of points in use grows while it is processed; in the end all points from the position on
have been processed, if there are not more of them than rounds. -/
theorem settles_denominatorsFrom (h : Returns (m.denominatorsFrom n position) s qs s')
    (hdefined : ∀ l, ∀ e ∈ m.context.denominators l, e.IsDefined (Quantity.valueAt place ratio)) :
    s.Leads m.context p pass.protocol place ratio s' ∧ (s'.used.length ≤ n + position →
      ∀ i l, position ≤ i → s'.used[i]? = some l → ∀ e ∈ m.context.denominators l,
        m.Settles p pass place ratio l e qs s s') := by
  induction n generalizing s qs position with
  | zero =>
      obtain ⟨-, rfl⟩ := returns_pure.1 h
      refine ⟨.refl _, fun hlength i l hi hl => ?_⟩
      obtain ⟨hlt, -⟩ := List.getElem?_eq_some_iff.1 hl
      omega
  | succ n ih =>
      unfold denominatorsFrom at h
      obtain ⟨s₀, s₁, hget, h⟩ := returns_bind.1 h
      obtain ⟨rfl, rfl⟩ := returns_get.1 hget
      split at h
      next hnone =>
        obtain ⟨-, rfl⟩ := returns_pure.1 h
        refine ⟨.refl _, fun _ i l hi hl => ?_⟩
        rw [List.getElem?_eq_none ((List.getElem?_eq_none_iff.1 hnone).trans hi)] at hl
        cases hl
      next point hpoint =>
        obtain ⟨qs₁, s₁, hqs₁, h⟩ := returns_bind.1 h
        obtain ⟨qs₂, s₂, hqs₂, h⟩ := returns_bind.1 h
        obtain ⟨rfl, rfl⟩ := returns_pure.1 h
        obtain ⟨hleads, hsettles⟩ := settles_denominatorPolynomials hp hpass hqs₁ (hdefined point)
        obtain ⟨hleads', hsettles'⟩ := ih hqs₂
        refine ⟨hleads.trans hleads', fun hlength i l hi hl e he => ?_⟩
        rcases hi.eq_or_lt with rfl | hi
        · have hsame : l = point := by
            obtain ⟨hlt, hpoint⟩ := List.getElem?_eq_some_iff.1 hpoint
            have hkept := (hleads.trans hleads').used.1.getElem hlt
            obtain ⟨hlt', hl⟩ := List.getElem?_eq_some_iff.1 hl
            exact hl.symm.trans (hkept.symm.trans hpoint)
          subst hsame
          exact (hsettles e he).extend (.refl _) hleads' (List.subset_append_left _ _)
        · exact (hsettles' (by omega) i l hi hl e he).extend hleads (.refl _)
            (List.subset_append_right _ _)

/-- The computation of a denominator that is settled, without what leads to it. -/
theorem Settles.exists_returns (h : m.Settles p pass place ratio l e qs s s')
    (hs : s.Stands m.context p pass.protocol) :
    ∃ s₁ q s₂, Returns (m.denominatorPolynomial l e) s₁ q s₂ ∧ s₂.Extends s' ∧ s₂.used ⊆ s'.used ∧
      (q.isConstant = true ∨ q ∈ qs) := by
  obtain ⟨s₁, q, s₂, h₁, hq, h₂, hmem⟩ := h
  obtain ⟨e', trace, t, form, heliminate, hform, htoPolynomial⟩ := returns_denominatorPolynomial hq
  have ht : t.Stands m.context p pass.protocol :=
    (keeps_eliminateConstructed heliminate).stands (h₁.stands hs)
  have hfresh := isFresh_toPolynomial hp hpass hform htoPolynomial ht
  exact ⟨s₁, q, s₂, hq, (h₂.fresh hfresh).2, h₂.used.1.subset, hmem⟩

end Denominators

theorem idxOf_lt_of_mem_takeWhile {α : Type} [DecidableEq α] {a b : α} {xs : List α}
    (h : a ∈ xs.takeWhile (· ≠ b)) : xs.idxOf a < xs.idxOf b := by
  induction xs with
  | nil => cases h
  | cons x xs ih =>
      rw [List.takeWhile_cons] at h
      split at h
      next hx =>
        rw [List.idxOf_cons_ne _ (of_decide_eq_true hx)]
        rcases List.mem_cons.1 h with rfl | h
        · rw [List.idxOf_cons_self]
          exact Nat.succ_pos _
        · by_cases ha : x = a
          · rw [ha, List.idxOf_cons_self]
            exact Nat.succ_pos _
          · rw [List.idxOf_cons_ne _ ha]
            exact Nat.succ_lt_succ (ih h)
      next => cases h

/-- Where no condition of a proof vanishes, no denominator of a definition in use is zero, and all of these
definitions hold. -/
theorem ne_zero_of_settled {σ σ₀ : Variable → ℚ} {place₀ : Label → ℚ × ℚ} {ratio₀ : Quantity → ℚ}
    (hsettled : ∀ l ∈ s.used, ∀ e ∈ m.context.denominators l, ∃ s₁ q s₂,
      Returns (m.denominatorPolynomial l e) s₁ q s₂ ∧ s₂.Extends s ∧ s₂.used ⊆ s.used ∧
        (q.isConstant = true ∨ q ∈ qs))
    (hdefined : ∀ l, ∀ e ∈ m.context.denominators l, ∀ ν, e.IsDefined ν)
    (hholds : ∀ d ∈ m.context.definitions,
      (∀ e ∈ d.denominators, e.valueAt (Quantity.valueAt place ratio) ≠ 0) → d.HoldsAt place ratio)
    (hreads₀ : s.ReadsAt m.context.freePoints σ₀ place₀ ratio₀)
    (hholds₀ : m.context.HoldAt s.used place₀ ratio₀)
    (hne₀ : ∀ l ∈ s.used, ∀ e ∈ m.context.denominators l,
      e.valueAt (Quantity.valueAt place₀ ratio₀) ≠ 0)
    (hreads : s.ReadsAt m.context.freePoints σ place ratio)
    (hqs : ∀ q ∈ qs, q.isConstant = false → q.valueAt σ ≠ 0) :
    m.context.HoldAt s.used place ratio ∧ ∀ l ∈ s.used, ∀ e ∈ m.context.denominators l,
      e.valueAt (Quantity.valueAt place ratio) ≠ 0 := by
  have hdenominators {l : Label} {d : Definition} (hd : m.context.find? l = some d) :
      m.context.denominators l = d.denominators := by
    unfold Context.denominators
    rw [hd]
    rfl
  -- Induction on the place of a point in the order: its denominators concern earlier points only.
  suffices hall : ∀ n, ∀ l ∈ s.used, m.context.order.idxOf l = n →
      (∀ e ∈ m.context.denominators l, e.valueAt (Quantity.valueAt place ratio) ≠ 0) ∧
        ∀ d, m.context.find? l = some d → d.HoldsAt place ratio from
    ⟨fun l hl => (hall _ l hl rfl).2, fun l hl => (hall _ l hl rfl).1⟩
  intro n
  induction n using Nat.strong_induction_on with
  | _ n ih =>
      rintro l hl rfl
      have hne : ∀ e ∈ m.context.denominators l, e.valueAt (Quantity.valueAt place ratio) ≠ 0 := by
        intro e he
        obtain ⟨s₁, q, s₂, hq, hextends, hused, hmem⟩ := hsettled l hl e he
        have hvalue := valueAt_denominatorPolynomial_iff hq (Expr.denotes_self (hdefined l e he _))
          (hreads.of_extends hextends) fun k hk hkused =>
            (ih _ (idxOf_lt_of_mem_takeWhile hk) k (hused hkused) rfl).2
        have hvalue₀ := valueAt_denominatorPolynomial_iff hq (Expr.denotes_self (hdefined l e he _))
          (hreads₀.of_extends hextends) fun k _ hkused => hholds₀ k (hused hkused)
        rw [Ne, ← hvalue]
        cases hconstant : q.isConstant with
        | false => exact hqs q (hmem.resolve_left (Bool.eq_false_iff.1 hconstant)) hconstant
        | true =>
            refine Polynomial.valueAt_ne_zero_of_isConstant _ hconstant fun hzero => ?_
            exact hne₀ l hl e he (hvalue₀.1 (hzero ▸ Polynomial.valueAt_zero _))
      refine ⟨hne, fun d hd => hholds d (List.mem_of_find?_eq_some hd) ?_⟩
      rwa [hdenominators hd] at hne

/-- A proof starts from the statement of the protocol, whose points are all in it. -/
theorem start_of_statement {e : Expr} (hp : Appended p) (h : start p none = .ok e) :
    ∃ s relation, p.statement = some s ∧ s.construction = .statement relation ∧
      Statement.ofRelation relation = .ok e ∧ ∀ l ∈ e.points, p.contains l = true := by
  cases hs : p.statement with
  | none =>
      unfold start at h
      rw [hs] at h
      cases h
  | some s =>
      obtain ⟨relation, hrelation⟩ := hp.construction_of_statement hs
      refine ⟨s, relation, rfl, hrelation, start_eq_ok hs hrelation h, fun l hl => ?_⟩
      unfold start at h
      rw [hs] at h
      obtain ⟨a, -, h⟩ := bind_eq_ok h
      dsimp only at h
      split at h
      next hnil =>
        cases h
        by_contra hcontains
        exact List.not_mem_nil (hnil ▸ List.mem_filter.2 ⟨hl, by simp [hcontains]⟩)
      next => cases h

section Proof

variable {proof : Proof} {st : Step} {relation : Relation} (hp : Appended p)
  (hpass : p.IsPass m.settings pass) (h : Returns (m.prove none) s proof s') (hprotocol : s.protocol = p)
  (hdefined : ∀ l, ∀ e ∈ m.context.denominators l, ∀ ν, e.IsDefined ν)

include hp hpass h hprotocol hdefined

/-- A proof settles the denominators of all definitions in use. -/
theorem settled_prove (hratios : s.ratios = []) (hused : s.used = [])
    (hholds : m.context.HoldAt s'.used place ratio) :
    s'.Stands m.context p pass.protocol ∧
      ∀ l ∈ s'.used, ∀ e ∈ m.context.denominators l, ∃ s₁ q s₂,
        Returns (m.denominatorPolynomial l e) s₁ q s₂ ∧ s₂.Extends s' ∧ s₂.used ⊆ s'.used ∧
          (q.isConstant = true ∨ q ∈ proof.nondegenerate) := by
  obtain ⟨e, e', form, s₁, s₂, s₃, hstart, heliminate, hform, hkeeps, hsame, hverdict,
    hnondegenerate⟩ := returns_prove h
  obtain ⟨st, relation, -, -, hrelation, -⟩ := start_of_statement (hprotocol ▸ hp) hstart
  obtain ⟨x, hx, -⟩ : ∃ x, e.Denotes (Quantity.valueAt place ratio) x ∧ _ :=
    ofRelation_eq_ok hrelation
  have hfirst : s.Leads m.context p pass.protocol place ratio s₂ :=
    (leads_eliminateConstructed heliminate hx).trans
      (hkeeps.leads fun _ l hl => .inl (hsame ▸ hl))
  have hsecond : s₂.Leads m.context p pass.protocol place ratio s₃ := by
    rcases hverdict with ⟨-, -, rfl⟩ | ⟨q, hq, -⟩
    · exact .refl _
    · exact leads_toPolynomial hp hpass hform hq
  obtain ⟨hlast, hsettles⟩ := settles_denominatorsFrom hp hpass hnondegenerate
    fun l e he => hdefined l e he _
  have hall := (hfirst.trans hsecond).trans hlast
  have hstands : s.Stands m.context p pass.protocol := .inl ⟨hprotocol, hratios⟩
  have hsub : s'.used ⊆ m.context.order := fun l hl =>
    (hall.among hholds l hl).resolve_left (hused ▸ List.not_mem_nil)
  have hlength := (List.subperm_of_subset (hall.used.2 (hused ▸ List.nodup_nil)) hsub).length_le
  refine ⟨hall.stands hstands, fun l hl e he => ?_⟩
  obtain ⟨i, hi⟩ := List.mem_iff_getElem?.1 hl
  exact (hsettles hlength i l (Nat.zero_le i) hi e he).exists_returns hp hpass
    ((hfirst.trans hsecond).stands hstands)

/-- A statement that is proved holds where the definitions in use do. -/
theorem holdsAt_of_holds (hratios : s.ratios = []) (hstatement : p.statement = some st)
    (hrelation : st.construction = .statement relation) (hproved : proof.holds = true)
    (hholds : m.context.HoldAt s'.used place ratio) {σ : Variable → ℚ}
    (hreads : s'.ReadsAt m.context.freePoints σ place ratio) : relation.condition.HoldsAt place := by
  obtain ⟨e, e', form, s₁, s₂, s₃, hstart, heliminate, hform, hkeeps, hsame, hverdict,
    hnondegenerate⟩ := returns_prove h
  obtain ⟨x, hx, hiff⟩ : ∃ x, e.Denotes (Quantity.valueAt place ratio) x ∧ _ :=
    ofRelation_eq_ok (start_eq_ok (hprotocol ▸ hstatement) hrelation hstart)
  have hlast : s₃.Leads m.context p pass.protocol place ratio s' :=
    (settles_denominatorsFrom hp hpass hnondegenerate fun l e he => hdefined l e he _).1
  have hkept : s₁.used ⊆ s'.used := by
    have hused : s₃.used = s₂.used := by
      rcases hverdict with ⟨-, -, rfl⟩ | ⟨q, hq, -⟩
      · rfl
      · exact used_toPolynomial hq
    rw [← hsame, ← hused]
    exact hlast.used.1.subset
  obtain ⟨he', -⟩ := denotes_eliminateConstructed heliminate rfl hx fun l _ hl => hholds l (hkept hl)
  refine hiff.1 ((he'.normalForm (respectsOrientation_valueAt _ _) hform).1 ?_)
  rcases hverdict with ⟨hzero, -, -⟩ | ⟨q, hq, hverdict⟩
  · rw [Sparse.isZero_iff.1 hzero]
    rfl
  · have hstands : s₂.Stands m.context p pass.protocol :=
      hkeeps.stands ((keeps_eliminateConstructed heliminate).stands (.inl ⟨hprotocol, hratios⟩))
    have hfresh := isFresh_toPolynomial hp hpass hform hq hstands
    rw [← valueAt_toPolynomial hq (hreads.of_extends (hlast.fresh hfresh).2),
      Sparse.isZero_iff.1 (hverdict.symm.trans hproved), Polynomial.valueAt_zero]

end Proof

/-- Coordinates and free ratios have some values at any placement. -/
theorem exists_readsAt_of_stands {c : Context} (hp : Appended p) {settings : Settings}
    (hpass : p.IsPass settings pass) (halign : settings.alignBasePoints = false)
    (hfree : ∀ l ∈ c.freePoints, ∃ t ∈ p.steps, t.label = l ∧ t.construction = .point .free)
    (hs : s.Stands c p pass.protocol) (place : Label → ℚ × ℚ) (ratio : Quantity → ℚ) :
    ∃ σ, s.ReadsAt c.freePoints σ place ratio := by
  rcases hs with ⟨rfl, hratios⟩ | hs
  · exact exists_readsAt_of_isPlaced hp.ordered hfree (isPlaced_self hp)
      (Progress.isFresh_of_nil hratios) place ratio
  · have hplaced : IsPlaced p ({ protocol := pass.protocol } : Progress) :=
      isPlaced_of_run hp halign hpass.run rfl
    exact exists_readsAt_of_isPlaced hp.ordered hfree hplaced hs place ratio

end Prover

end Planimetry.Area
