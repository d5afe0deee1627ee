import Planimetry.Proofs.Area.Orientation
import Planimetry.Proofs.Area.Stages

/-! How a proof can fail: the question stays open, or a denominator is zero wherever the definitions in use
hold. -/

namespace Planimetry.Area

namespace Context

variable {c : Context} {q : Quantity} {e e' : Expr} {p l : Label} {used used' : List Label}

/-- A regular expression that is defined wherever the definitions of some points hold. -/
structure Admits (c : Context) (used : List Label) (e : Expr) : Prop where
  isRegular : e.IsRegular
  isDefined : ∀ place ratio, c.HoldAt used place ratio → e.IsDefined (Quantity.valueAt place ratio)

/-- The error leaves the question open, or is a zero denominator while the definitions of the points in use
hold nowhere. -/
def Excuses (c : Context) (used : List Label) (e : Error) : Prop :=
  e.isInconclusive = true ∨
    (∃ n, e = .zeroDenominator n) ∧ ∀ place ratio, ¬c.HoldAt used place ratio

section Elimination

variable {P Q : Quantity → Prop} {fails : Error → Prop}

/-- What becomes of an expression: it is over some quantities, and at most one more definition is in use. -/
def Eliminates (Q : Quantity → Prop) (p : Label) (used : List Label) (e : Expr) (used' : List Label) :
    Prop :=
  e.Over Q ∧ ∀ l ∈ used', l ∈ used ∨ l = p

theorem ends_node {x y : Using Expr} {f : Expr → Expr → Expr}
    (hf : ∀ a b, a.Over Q → b.Over Q → (f a b).Over Q)
    (hx : ∀ used, Ends x used (Eliminates Q p used) fun err _ => fails err)
    (hy : ∀ used, Ends y used (Eliminates Q p used) fun err _ => fails err) :
    Ends (do return f (← x) (← y)) used (Eliminates Q p used) fun err _ => fails err := by
  refine (hx used).bind ?_
  rintro a used₁ - ⟨ha, h₁⟩
  refine (hy used₁).bind ?_
  rintro b used₂ - ⟨hb, h₂⟩
  exact ends_pure ⟨hf a b ha hb, fun l hl => (h₂ l hl).elim (h₁ l) .inr⟩

/-- What the elimination of a point makes of quantities, it makes of expressions without markers. -/
theorem ends_eliminate_of_atoms
    (hatom : ∀ q, P q → ∀ used, Ends (c.eliminateAtom q p) used (Eliminates Q p used) fun err _ => fails err)
    (he : e.Over P) : Ends (c.eliminate e p) used (Eliminates Q p used) fun err _ => fails err := by
  induction e generalizing used with
  | number q => exact ends_pure ⟨trivial, fun l hl => .inl hl⟩
  | atom q => exact hatom q he used
  | add l r ihl ihr | sub l r ihl ihr | mul l r ihl ihr | div l r ihl ihr =>
      exact ends_node (fun _ _ => .intro) (fun _ => ihl he.1) fun _ => ihr he.2
  | neg e ih =>
      refine (ih he).bind ?_
      rintro a used₁ - ha
      exact ends_pure ha
  | elim e p _ => exact he.elim

/-- The definition of a point in a quantity gives its value, unless the definition or a lemma is missing. -/
theorem ends_eliminateQuantity (hq : q.mentions p = true)
    (hvalue : ∀ d, c.find? p = some d → ∀ e, d.eliminate q = .ok e → e.Over Q) :
    Ends (c.eliminateQuantity q p) used (Eliminates Q p used) fun err _ => err.IsMissing := by
  refine (ends_liftM ?_).bind ?_
  · intro e he
    unfold definition at he
    split at he
    next =>
      cases he
      trivial
    next =>
      split at he
      next => cases he
      next =>
        cases he
        trivial
  · rintro d _ - ⟨hd, rfl⟩
    have hfind := definition_eq_ok hd
    refine ends_modify.bind ?_
    rintro _ used' hrecord -
    obtain ⟨-, -, hamong⟩ := returns_recordUse hrecord
    refine (ends_liftM fun e he => ?_).mono ?_ fun _ _ h => h
    · exact Definition.eliminate_eq_error (point_of_find? hfind ▸ hq) he
    · rintro e _ - ⟨he, rfl⟩
      exact ⟨hvalue d hfind e he, hamong⟩

variable (hc : c.IsRegular)

include hc

theorem ends_eliminateAtom (hq : q.IsRegular) :
    Ends (c.eliminateAtom q p) used (Eliminates Quantity.IsRegular p used) fun err _ => err.IsMissing := by
  obtain ⟨b, hb⟩ := exists_concerns (c := c) (l := p) hq
  refine (ends_liftM_of_ok hb).bind ?_
  rintro _ _ - ⟨rfl, rfl⟩
  cases b with
  | false => exact ends_pure ⟨hq, fun l hl => .inl hl⟩
  | true =>
      refine ends_eliminateQuantity (mentions_of_concerns hb) fun d hfind e he => ?_
      exact (hc d (List.mem_of_find?_eq_some hfind)).eliminate he

/-- Elimination from a regular expression fails only if a definition or a lemma is missing. -/
theorem ends_eliminate (he : e.IsRegular) :
    Ends (c.eliminate e p) used (Eliminates Quantity.IsRegular p used) fun err _ => err.IsMissing :=
  ends_eliminate_of_atoms (fun _ hq _ => ends_eliminateAtom hc hq) he

end Elimination

/-- Elimination keeps an expression defined where the definitions in use hold. -/
theorem Admits.eliminate (hc : c.IsRegular) (he : c.Admits used e) :
    Ends (c.eliminate e p) used
      (fun e' used' => c.Admits used' e' ∧ ∀ l ∈ used', l ∈ used ∨ l = p)
      fun err _ => err.IsMissing := by
  refine (ends_eliminate hc he.isRegular).mono ?_ fun _ _ h => h
  rintro e' used' hreturns ⟨hregular, hamong⟩
  refine ⟨⟨hregular, fun place ratio hholds => ?_⟩, hamong⟩
  have hdefined := he.isDefined place ratio (hholds.mono (grows_eliminate hreturns).1.subset)
  exact (denotes_eliminate hreturns (Expr.denotes_self hdefined) fun hp => hholds p hp).1.1

end Context

theorem Quantity.IsOriented.isRegular {q : Quantity} (h : q.IsOriented) : q.IsRegular := by
  cases q with
  | ratio a b c d => exact (h a b c d rfl).isRegular
  | _ => trivial

namespace Prover

variable {m : Prover} {p : Protocol} {pass : Transformation} {s s' : Progress} {e : Expr} {l : Label}
  {k : Quantity}

/-- A stretch of a proof fails only for an accepted reason. -/
abbrev Fares {α : Type} (m : Prover) (x : Proving α) (s : Progress) (post : α → Progress → Prop) :
    Prop :=
  Ends x s post fun e s' => m.context.Excuses s'.used e

/-- A simplification uses no definition; it fails as the expression has none. -/
theorem ends_simplification (m : Prover) (e : Expr) (s : Progress) : Ends (m.simplify e) s
    (fun e' s' => (∃ settled, e.simplify m.settings.maxSimplifySteps = .ok (e', settled)) ∧ s'.used = s.used)
    fun err s' => e.simplify m.settings.maxSimplifySteps = .error err ∧ s' = s := by
  refine (ends_liftM fun err herr => ⟨herr, rfl⟩).bind ?_
  rintro ⟨e', settled⟩ _ - ⟨hsimplify, rfl⟩
  dsimp only
  cases settled with
  | true => exact ends_pure ⟨⟨true, hsimplify⟩, rfl⟩
  | false =>
      refine ends_modify.bind ?_
      rintro _ _ - rfl
      exact ends_pure ⟨⟨false, hsimplify⟩, rfl⟩

theorem ends_simplify (he : m.context.Admits s.used e) :
    m.Fares (m.simplify e) s fun e' s' => m.context.Admits s'.used e' ∧ s'.used = s.used := by
  refine (ends_simplification m e s).mono ?_ ?_
  · rintro e' s' - ⟨⟨settled, hsimplify⟩, hused⟩
    rw [hused]
    exact ⟨⟨he.isRegular.simplifyWithin hsimplify, fun place ratio hholds =>
      ((Expr.denotes_self (he.isDefined place ratio hholds)).simplify
        (respectsOrientation_valueAt place ratio) hsimplify).1⟩, rfl⟩
  · rintro err s' ⟨herr, rfl⟩
    obtain ⟨hzero, hnowhere⟩ := he.isRegular.simplifyWithin_eq_error herr
    refine .inr ⟨hzero, fun place ratio hholds => ?_⟩
    exact hnowhere _ (respectsOrientation_valueAt place ratio) (he.isDefined place ratio hholds)

section Regular

variable (hc : m.context.IsRegular)

include hc

theorem ends_eliminateAll {ps : List Label} (he : m.context.Admits s.used e) :
    m.Fares (m.eliminateAll ps e) s fun r s' =>
      m.context.Admits s'.used r.1 ∧ ∀ l ∈ s'.used, l ∈ s.used ∨ l ∈ ps := by
  refine (ends_eliminateAll_of_step (I := fun rest e' s' => rest ⊆ ps ∧ m.context.Admits s'.used e' ∧
    ∀ l ∈ s'.used, l ∈ s.used ∨ l ∈ ps) ?_ ?_ ?_ ⟨List.Subset.refl _, he, fun l hl => .inl hl⟩).mono
    (fun _ _ _ h => h.2) fun _ _ h => h
  · rintro p rest e' s' err ⟨-, he', -⟩ herr
    obtain ⟨b, hb⟩ := Context.exists_mentions (c := m.context) (l := p) he'.isRegular
    cases hb.symm.trans herr
  · rintro p rest e' s' ⟨hrest, h⟩ -
    exact ⟨(List.cons_subset.1 hrest).2, h⟩
  · rintro p rest e' s' ⟨hrest, he', hamong⟩ -
    obtain ⟨hp, hrest⟩ := List.cons_subset.1 hrest
    refine (ends_recording (he'.eliminate hc)).mono ?_ fun _ _ h => .inl h.isInconclusive
    rintro a s₁ - ⟨ha, h₁⟩
    refine (ends_simplify ha).mono ?_ fun _ _ h => h
    rintro b s₂ - ⟨hb, h₂⟩
    refine ⟨hrest, hb, fun l hl => ?_⟩
    rw [h₂] at hl
    rcases h₁ l hl with hl | rfl
    · exact hamong l hl
    · exact .inr hp

/-- Elimination up to a constructed point, or of all of them. -/
theorem ends_eliminateConstructed {before : Option Label} (he : m.context.Admits s.used e)
    (hbefore : ∀ l ∈ before, l ∈ m.context.order) (hs : s.IsSteady m.context p pass.protocol) :
    m.Fares (m.eliminateConstructed e before) s fun r s' =>
      m.context.Admits s'.used r.1 ∧ s'.IsSteady m.context p pass.protocol := by
  obtain ⟨points, later, hpoints, horder, -⟩ := exists_pointsBefore hbefore
  have hall : m.Fares (m.eliminateConstructed e before) s fun r s' =>
      m.context.Admits s'.used r.1 ∧ ∀ l ∈ s'.used, l ∈ s.used ∨ l ∈ points := by
    refine (ends_liftM_of_ok hpoints).bind ?_
    rintro _ _ - ⟨rfl, rfl⟩
    refine (ends_simplify he).bind ?_
    rintro a s₁ - ⟨ha, h₁⟩
    refine (ends_eliminateAll hc ha).mono ?_ fun _ _ h => h
    rintro r s' - ⟨hr, hamong⟩
    exact ⟨hr, fun l hl => (hamong l hl).imp (fun hl => h₁ ▸ hl) List.mem_reverse.1⟩
  refine hall.mono ?_ fun _ _ h => h
  rintro ⟨last, trace⟩ s' hreturns ⟨hlast, hamong⟩
  refine ⟨hlast, hs.of_keeps (keeps_eliminateConstructed hreturns) fun l hl => ?_⟩
  exact (hamong l hl).imp_right fun hl => horder ▸ List.mem_append_left _ hl

end Regular

section Coordinates

/-- The points of a quantity are free and have coordinates, or it is a free ratio. -/
def Reads (m : Prover) (p : Protocol) : Quantity → Prop
  | .ratio a b c d => m.context.isParameter (.ratio a b c d) = .ok true
  | .area a b c | .pythagoras a b c => ∀ l ∈ [a, b, c], ∃ xy, m.freeCoordinates p l = .ok xy

theorem reads_of_steps {q : Protocol} (h : q.steps = p.steps) (k : Quantity) :
    m.Reads q k ↔ m.Reads p k := by
  cases k <;> simp only [Reads, freeCoordinates_of_steps h]

/-- A stretch of a proof returns where a condition holds, and leaves the question open elsewhere. -/
abbrev Requires {α : Type} (x : Proving α) (s : Progress) (condition : Prop)
    (post : α → Progress → Prop) : Prop :=
  Ends x s (fun a s' => condition ∧ post a s') fun e _ => e.isInconclusive = true ∧ ¬condition

/-- Stretches with conditions one after the other. -/
theorem requires_bind {α β : Type} {x : Proving α} {f : α → Proving β} {condition condition' : Prop}
    {post : α → Progress → Prop} {post' : β → Progress → Prop} (hx : Requires x s condition post)
    (hf : ∀ a t, Returns x s a t → post a t → Requires (f a) t condition' post') :
    Requires (x >>= f) s (condition ∧ condition') post' := by
  have hfirst : Requires x s condition post → Ends x s (fun a t => condition ∧ post a t) fun e _ =>
      e.isInconclusive = true ∧ ¬(condition ∧ condition') := fun h =>
    h.mono (fun _ _ _ h => h) fun _ _ h => ⟨h.1, fun hall => h.2 hall.1⟩
  refine (hfirst hx).bind ?_
  rintro a t hreturns ⟨hcondition, hpost⟩
  refine (hf a t hreturns hpost).mono (fun _ _ _ h => ⟨⟨hcondition, h.1⟩, h.2⟩) fun _ _ h => ?_
  exact ⟨h.1, fun hall => h.2 hall.2⟩

/-- Points without coordinates are no free ones. -/
theorem requires_freeCoordinates (q : Protocol) :
    Requires (liftM (m.freeCoordinates q l)) s (∃ xy, m.freeCoordinates q l = .ok xy)
      fun _ s' => s = s' := by
  refine (ends_liftM fun err herr => ?_).mono (fun xy _ _ h => ⟨⟨xy, h.1⟩, h.2⟩) fun _ _ h => h
  refine ⟨?_, fun ⟨xy, hxy⟩ => nomatch herr.symm.trans hxy⟩
  unfold freeCoordinates at herr
  split at herr
  next =>
    split at herr
    next => cases herr
    next =>
      cases herr
      rfl
  next =>
    cases herr
    rfl

theorem requires_inCoordinates {t : Template} (ht : ∀ r ∈ t.roles, r ∈ ["A", "B", "C"])
    (a b c : Label) : Requires (m.inCoordinates t a b c) s
      (∀ l ∈ [a, b, c], ∃ xy, m.freeCoordinates s.protocol l = .ok xy) fun _ s' => s = s' := by
  simp only [List.forall_mem_cons]
  refine ends_get.bind ?_
  rintro _ _ - ⟨rfl, rfl⟩
  refine requires_bind (requires_freeCoordinates _) ?_
  rintro first _ - rfl
  refine requires_bind (requires_freeCoordinates _) ?_
  rintro second _ - rfl
  refine requires_bind (requires_freeCoordinates _) ?_
  rintro third _ - rfl
  have hroles : ∀ r ∈ t.roles,
      ([("A", first), ("B", second), ("C", third)].lookup r).isSome = true := by
    intro r hr
    have hmem := ht r hr
    rw [List.mem_cons, List.mem_cons, List.mem_singleton] at hmem
    rcases hmem with rfl | rfl | rfl <;> rfl
  dsimp only
  rw [Template.instantiate_of_isSome hroles]
  exact ends_pure ⟨List.forall_mem_nil _, rfl⟩

/-- A free ratio has a variable. -/
theorem ends_ratioVariable {fails : Error → Progress → Prop} :
    Ends (ratioVariable k) s (fun _ s' => s.used = s'.used) fails := by
  refine ends_get.bind ?_
  rintro _ _ - ⟨rfl, rfl⟩
  split
  next => exact ends_pure rfl
  next =>
    refine ends_set.bind ?_
    rintro _ _ - rfl
    exact ends_pure rfl

theorem requires_quantityPolynomial (hk : k.IsOriented) :
    Requires (m.quantityPolynomial k) s (m.Reads s.protocol k) fun _ s' => s.used = s'.used := by
  cases k with
  | area a b c =>
      refine (requires_inCoordinates ?_ a b c).mono (fun _ _ _ h => ⟨h.1, congr_arg _ h.2⟩) fun _ _ h => h
      decide +kernel
  | pythagoras a b c =>
      refine (requires_inCoordinates ?_ a b c).mono (fun _ _ _ h => ⟨h.1, congr_arg _ h.2⟩) fun _ _ h => h
      decide +kernel
  | ratio a b c d =>
      obtain ⟨parameter, hparameter⟩ := Context.exists_isParameter (c := m.context) hk.isRegular
      refine (ends_liftM_of_ok hparameter).bind ?_
      rintro _ _ - ⟨rfl, rfl⟩
      cases parameter with
      | false =>
          refine ends_throw ⟨rfl, fun htrue => ?_⟩
          cases hparameter.symm.trans htrue
      | true =>
          refine ends_ratioVariable.bind ?_
          rintro v s₁ - hused
          exact ends_pure ⟨hparameter, hused⟩

theorem requires_productPolynomial {fs : Factors} (hfs : ∀ f ∈ fs, f.IsOriented) (q : Polynomial) :
    Requires (m.productPolynomial q fs) s (∀ f ∈ fs, m.Reads s.protocol f)
      fun _ s' => s.used = s'.used := by
  induction fs generalizing q s with
  | nil => exact ends_pure ⟨List.forall_mem_nil _, rfl⟩
  | cons f fs ih =>
      obtain ⟨hf, hfs⟩ := List.forall_mem_cons.1 hfs
      simp only [List.forall_mem_cons]
      refine requires_bind (requires_quantityPolynomial hf) ?_
      intro r s₁ hreturns hused
      have hrest := ih (s := s₁) hfs (q * r)
      simp only [reads_of_steps (extends_quantityPolynomial hreturns).steps, ← hused] at hrest
      exact hrest

theorem requires_sumPolynomial {ts : List (Factors × ℚ)}
    (hts : ∀ t ∈ ts, ∀ f ∈ t.1, f.IsOriented) (q : Polynomial) :
    Requires (m.sumPolynomial q ts) s (∀ t ∈ ts, ∀ f ∈ t.1, m.Reads s.protocol f)
      fun _ s' => s.used = s'.used := by
  induction ts generalizing q s with
  | nil => exact ends_pure ⟨List.forall_mem_nil _, rfl⟩
  | cons t ts ih =>
      obtain ⟨ht, hts⟩ := List.forall_mem_cons.1 hts
      simp only [List.forall_mem_cons]
      refine requires_bind (requires_productPolynomial ht _) ?_
      intro r s₁ hreturns hused
      have hextends := product_of_quantities isStepwise_extends
        (fun _ _ _ _ _ hk => extends_quantityPolynomial hk) hreturns
      have hrest := ih (s := s₁) hts (q + r)
      simp only [reads_of_steps hextends.steps, ← hused] at hrest
      exact hrest

variable (hp : Appended p) (hpass : p.IsPass m.settings pass)

include hp hpass

omit hp in
theorem exists_placePoints_of_stands (hs : s.Stands m.context p pass.protocol) :
    ∃ s', Returns m.placePoints s () s' := by
  by_cases hplaced : ∀ u ∈ s.protocol.points, u.isPlaced = true
  · exact ⟨s, returns_placePoints_of_isPlaced hplaced⟩
  · rcases hs with ⟨hprotocol, -⟩ | hs
    · obtain ⟨events, hreturns⟩ := returns_placePoints_of_isPass (hprotocol ▸ hpass) hplaced
      exact ⟨_, hreturns⟩
    · refine absurd (fun u hu => hpass.placed u ?_) hplaced
      unfold Protocol.points at hu ⊢
      rwa [← hs.steps]

/-- An expanded form has a polynomial if the pass gives coordinates to all points in it, and the other
quantities are free ratios. -/
theorem requires_toPolynomial {form : Expansion} (hform : e.normalForm = .ok form)
    (hs : s.Stands m.context p pass.protocol) :
    Requires (m.toPolynomial form) s (∀ t ∈ form.entries, ∀ f ∈ t.1, m.Reads pass.protocol f)
      fun _ s' => s.used = s'.used := by
  obtain ⟨s₁, hplace⟩ := exists_placePoints_of_stands hpass hs
  have hsteps := reads_of_steps (m := m) (isFresh_placePoints hp hpass hplace hs).1.steps
  have hused : s₁.used = s.used := (returns_placePoints hplace).2.1
  have hsum := requires_sumPolynomial (m := m) (s := s₁) (Expr.isOriented_normalForm hform) 0
  simp only [hsteps, hused] at hsum
  unfold Requires Ends toPolynomial
  rw [run_bind_of_returns hplace]
  exact hsum

/-- The polynomial of an expanded form. -/
theorem ends_toPolynomial {form : Expansion} (hform : e.normalForm = .ok form)
    (hs : s.IsSteady m.context p pass.protocol) :
    m.Fares (m.toPolynomial form) s fun _ s' => s'.IsSteady m.context p pass.protocol := by
  refine (requires_toPolynomial hp hpass hform hs.stands).mono ?_ fun _ _ h => .inl h.1
  rintro q s' hreturns ⟨-, hused⟩
  exact ⟨.inr (isFresh_toPolynomial hp hpass hform hreturns hs.stands), hused ▸ hs.used⟩

end Coordinates

section Proof

variable (hp : Appended p)

include hp

theorem isRegular_of_start {e : Expr} (h : start p none = .ok e) : e.IsRegular := by
  obtain ⟨st, relation, -, -, hrelation, -⟩ := start_of_statement hp h
  cases relation <;> cases hrelation <;> simp [Expr.Over, Quantity.IsRegular, Expr.zero]

variable (hpass : p.IsPass m.settings pass) (hc : m.context.IsRegular)
  (hdefined : ∀ l, ∀ e ∈ m.context.denominators l, ∀ ν, e.IsDefined ν)

include hpass hc hdefined

/-- The stages of a proof from a regular expression that is defined everywhere. -/
theorem isStaged_of_isRegular : m.IsStaged p pass.protocol (fun _ e => ∀ used, m.context.Admits used e)
    Expr.IsRegular (fun _ => True) fun err s' => m.context.Excuses s'.used err where
  eliminates := by
    intro before e s he hbefore hs
    refine (ends_eliminateConstructed hc (he s.used) hbefore hs).mono ?_ fun _ _ h => h
    exact fun r s' _ h => ⟨h.1.isRegular, h.2⟩
  expands := by
    intro e s err he herr
    obtain ⟨form, hform⟩ := he.exists_normalForm
    cases hform.symm.trans herr
  reads := by
    intro e form s _ hform hs
    exact (ends_toPolynomial hp hpass hform hs).mono (fun _ _ _ h => ⟨trivial, h⟩) fun _ _ h => h
  denominators := fun l e he used => ⟨hc.denominators e he, fun _ _ _ => hdefined l e he _⟩

/-- A proof fails only if the question stays open, or at a zero denominator where the definitions in use hold
nowhere. -/
theorem ends_prove (hprotocol : s.protocol = p) (hratios : s.ratios = []) (hused : s.used = []) :
    m.Fares (m.prove none) s fun _ s' => s'.IsSteady m.context p pass.protocol := by
  have hs : s.IsSteady m.context p pass.protocol :=
    ⟨.inl ⟨hprotocol, hratios⟩, hused ▸ List.nil_subset _⟩
  refine ((isStaged_of_isRegular hp hpass hc hdefined).ends_prove (fun err herr => .inl ?_)
    (fun e hstart used => ?_) hs).mono (fun _ _ _ h => h.2) fun _ _ h => h
  · exact isInconclusive_of_start herr
  · obtain ⟨st, relation, -, -, hrelation, -⟩ := start_of_statement (hprotocol ▸ hp) hstart
    refine ⟨isRegular_of_start (hprotocol ▸ hp) hstart, fun place ratio _ => ?_⟩
    obtain ⟨x, hx, -⟩ : ∃ x, e.Denotes (Quantity.valueAt place ratio) x ∧ _ :=
      ofRelation_eq_ok hrelation
    exact hx.1

end Proof

end Prover

end Planimetry.Area
