import Planimetry.Proofs.Area.NormalForm
import Planimetry.Proofs.Area.Source

/-! Expressions without markers over some quantities: all that a proof does to them brings in no other
quantities than those of definitions. Where no quantity is a ratio to a segment from a point to itself, it can
fail in few ways. -/

namespace Planimetry.Area

variable {ν : Quantity → ℚ}

/-- A point has no definition, or the definition no lemma for a quantity. -/
def Error.IsMissing : Error → Prop
  | .unsupported .. | .notConstructed _ | .noLemma .. => True
  | _ => False

theorem Error.IsMissing.isInconclusive {err : Error} (h : err.IsMissing) : err.isInconclusive = true := by
  unfold IsMissing at h
  split at h
  next => rfl
  next => rfl
  next => rfl
  next => exact h.elim

namespace Quantity

/-- The quantity is not a ratio to a segment from a point to itself. -/
def IsRegular : Quantity → Prop
  | .ratio _ _ c d => c ≠ d
  | _ => True

/-- The quantity is an area or a Pythagoras difference. -/
def IsMeasured : Quantity → Prop
  | .ratio .. => False
  | _ => True

variable {q : Quantity}

theorem IsMeasured.isRegular (h : q.IsMeasured) : q.IsRegular := by
  cases q with
  | ratio a b c d => exact h.elim
  | _ => trivial

theorem isDivision_of_simplify {err : Error} (h : q.simplify = .error err) : err.isDivision = true := by
  cases q with
  | area a b c => cases h
  | pythagoras a b c => cases h
  | ratio a b u v =>
      unfold Quantity.simplify at h
      dsimp only at h
      split_ifs at h
      cases h
      rfl

theorem IsRegular.exists_orient (h : q.IsRegular) : ∃ o, q.orient = .ok o := by
  cases q with
  | area a b c => exact ⟨_, rfl⟩
  | pythagoras a b c => exact ⟨_, rfl⟩
  | ratio a b c d =>
      unfold orient
      dsimp only
      rw [if_neg h]
      split
      next => exact ⟨_, rfl⟩
      next => exact ⟨_, rfl⟩

theorem IsRegular.exists_simplify (h : q.IsRegular) : ∃ e, q.simplify = .ok e := by
  cases q with
  | area a b c => exact ⟨_, rfl⟩
  | pythagoras a b c => exact ⟨_, rfl⟩
  | ratio a b c d =>
      unfold simplify
      dsimp only
      rw [if_neg h]
      split_ifs <;> exact ⟨_, rfl⟩

end Quantity

namespace Expr

variable {P Q : Quantity → Prop}

/-- The expression has no markers, and all its quantities have a property. -/
def Over (P : Quantity → Prop) : Expr → Prop
  | .number _ => True
  | .atom q => P q
  | .add l r | .sub l r | .mul l r | .div l r => l.Over P ∧ r.Over P
  | .neg e => e.Over P
  | .elim .. => False

/-- The expression has no markers, and no ratio to a segment from a point to itself. -/
abbrev IsRegular (e : Expr) : Prop := e.Over Quantity.IsRegular

/-- The expression has neither markers nor fractions, and all its quantities have a property. -/
def IsPlain (P : Quantity → Prop) : Expr → Prop
  | .number _ => True
  | .atom q => P q
  | .add l r | .sub l r | .mul l r => l.IsPlain P ∧ r.IsPlain P
  | .neg e => e.IsPlain P
  | .div .. | .elim .. => False

variable {a b e e' : Expr} {err : Error} {f g : Option Expr}

theorem Over.mono (h : ∀ q, P q → Q q) (he : e.Over P) : e.Over Q := by
  induction e with
  | number q => trivial
  | atom q => exact h q he
  | neg e ih => exact ih he
  | elim e p _ => exact he.elim
  | add l r ihl ihr | sub l r ihl ihr | mul l r ihl ihr | div l r ihl ihr => exact ⟨ihl he.1, ihr he.2⟩

section Simplification

theorem Over.rewrites (h : a.Rewrites b) (ha : a.Over P) : b.Over P := by
  cases h <;> simp_all [Over, zero, one]

theorem isStable_over (P : Quantity → Prop) : IsStable fun a b => a.Over P → b.Over P where
  number q h := h
  atom h ha := by
    rcases Quantity.simplify_eq_ok h with rfl | ⟨c, rfl⟩
    · exact ha
    · trivial
  neg ha := ha
  add ha hb := And.imp ha hb
  sub ha hb := And.imp ha hb
  mul ha hb := And.imp ha hb
  div ha hb := And.imp ha hb
  elim _ _ := False.elim
  rewrites h hbc ha := (h ha).rewrites hbc

theorem Over.simplifyOnce (he : e.Over P) (h : e.simplifyOnce = .ok e') : e'.Over P :=
  (isStable_over P).of_simplifyOnce h he

theorem Over.simplifyWithin {n : ℕ} {settled : Bool} (he : e.Over P)
    (h : e.simplifyWithin n = .ok (e', settled)) : e'.Over P :=
  of_simplifyWithin Over.simplifyOnce he h

theorem simplifyDiv_eq_error (h : a.simplifyDiv b = .error err) :
    err = .zeroDenominator a ∧ b.isZero = true := by
  revert h
  fun_cases Expr.simplifyDiv a b <;> intro h <;> cases h
  exact ⟨rfl, by assumption⟩

/-- A pass fails only at a division by zero. -/
theorem isDivision_of_simplifyOnce (h : e.simplifyOnce = .error err) : err.isDivision = true := by
  induction e with
  | number q => cases h
  | atom q => exact Quantity.isDivision_of_simplify h
  | neg e ih | elim e p ih =>
      apply ih
      refine (bind_eq_error h).resolve_right ?_
      rintro ⟨f, -, h⟩
      cases h
  | add l r ihl ihr | sub l r ihl ihr | mul l r ihl ihr =>
      rcases bind_eq_error h with h | ⟨l', -, h⟩
      · exact ihl h
      rcases bind_eq_error h with h | ⟨r', -, h⟩
      · exact ihr h
      · cases h
  | div n d ihn ihd =>
      rcases bind_eq_error h with h | ⟨n', -, h⟩
      · exact ihn h
      rcases bind_eq_error h with h | ⟨d', -, h⟩
      · exact ihd h
      · obtain ⟨rfl, -⟩ := simplifyDiv_eq_error h
        rfl

theorem isDivision_of_simplifyWithin {n : ℕ} (h : e.simplifyWithin n = .error err) :
    err.isDivision = true := by
  obtain ⟨a, -, ha⟩ := exists_of_simplifyWithin_eq_error (p := fun _ => True) (fun _ _ => trivial) trivial h
  exact isDivision_of_simplifyOnce ha

/-- A pass over a regular expression fails at a zero denominator only, where the expression is defined
nowhere. -/
theorem IsRegular.simplifyOnce_eq_error (he : e.IsRegular) (h : e.simplifyOnce = .error err) :
    (∃ n, err = .zeroDenominator n) ∧ ∀ ν, RespectsOrientation ν → ¬e.IsDefined ν := by
  induction e with
  | number q => cases h
  | atom q =>
      obtain ⟨f, hf⟩ := Quantity.IsRegular.exists_simplify he
      rw [Expr.simplifyOnce, hf] at h
      cases h
  | neg e ih =>
      refine ih he ((bind_eq_error h).resolve_right ?_)
      rintro ⟨f, -, h⟩
      cases h
  | add l r ihl ihr | sub l r ihl ihr | mul l r ihl ihr =>
      rcases bind_eq_error h with h | ⟨l', -, h⟩
      · exact (ihl he.1 h).imp_right fun hl ν hν hdefined => hl ν hν hdefined.1
      rcases bind_eq_error h with h | ⟨r', -, h⟩
      · exact (ihr he.2 h).imp_right fun hr ν hν hdefined => hr ν hν hdefined.2
      · cases h
  | div n d ihn ihd =>
      rcases bind_eq_error h with h | ⟨n', -, h⟩
      · exact (ihn he.1 h).imp_right fun hn ν hν hdefined => hn ν hν hdefined.1
      rcases bind_eq_error h with h | ⟨d', hd, h⟩
      · exact (ihd he.2 h).imp_right fun hd ν hν hdefined => hd ν hν hdefined.2.1
      · obtain ⟨rfl, hzero⟩ := simplifyDiv_eq_error h
        refine ⟨⟨_, rfl⟩, fun ν hν hdefined => hdefined.2.2 ?_⟩
        have hvalue := (denotes_self hdefined.2.1).simplifyOnce hν hd
        rw [isZero_iff.1 hzero] at hvalue
        exact (denotes_number_iff.1 hvalue).symm
  | elim e p _ => exact he.elim

theorem IsRegular.simplifyWithin_eq_error {n : ℕ} (he : e.IsRegular)
    (h : e.simplifyWithin n = .error err) :
    (∃ n, err = .zeroDenominator n) ∧ ∀ ν, RespectsOrientation ν → ¬e.IsDefined ν := by
  let kept (a : Expr) : Prop := a.IsRegular ∧ ∀ ν, RespectsOrientation ν → e.IsDefined ν → a.IsDefined ν
  have hkept {a b : Expr} (ha : kept a) (hpass : a.simplifyOnce = .ok b) : kept b :=
    ⟨ha.1.simplifyOnce hpass, fun ν hν hdefined =>
      ((denotes_self (ha.2 ν hν hdefined)).simplifyOnce hν hpass).1⟩
  obtain ⟨a, ⟨hregular, hdefined⟩, ha⟩ :=
    exists_of_simplifyWithin_eq_error hkept ⟨he, fun _ _ h => h⟩ h
  obtain ⟨hzero, hnowhere⟩ := hregular.simplifyOnce_eq_error ha
  exact ⟨hzero, fun ν hν h => hnowhere ν hν (hdefined ν hν h)⟩

end Simplification

section NormalForm

theorem IsPlain.isDefined (he : e.IsPlain P) (ν : Quantity → ℚ) : e.IsDefined ν := by
  induction e with
  | number q => trivial
  | atom q => trivial
  | neg e ih => exact ih he
  | add l r ihl ihr | sub l r ihl ihr | mul l r ihl ihr => exact ⟨ihl he.1, ihr he.2⟩
  | div n d _ _ => exact he.elim
  | elim e p _ => exact he.elim

theorem IsPlain.times (ha : a.IsPlain P) (hf : ∀ b ∈ f, b.IsPlain P) : (a.times f).IsPlain P := by
  cases f with
  | none => exact ha
  | some b => exact ⟨ha, hf b rfl⟩

theorem isPlain_timesOption (hf : ∀ b ∈ f, b.IsPlain P) (hg : ∀ b ∈ g, b.IsPlain P) :
    ∀ b ∈ timesOption f g, b.IsPlain P := by
  cases f with
  | none => exact hg
  | some a =>
      rintro b hb
      cases hb
      exact (hf a rfl).times hg

/-- The parts of the single fraction are plain. -/
theorem Over.split (he : e.Over P) : e.split.1.IsPlain P ∧ ∀ d ∈ e.split.2, d.IsPlain P := by
  induction e with
  | number q => exact ⟨trivial, nofun⟩
  | atom q => exact ⟨he, nofun⟩
  | elim e p _ => exact he.elim
  | neg e ih => exact ih he
  | mul l r ihl ihr =>
      obtain ⟨hn, hc⟩ := ihl he.1
      obtain ⟨hm, hd⟩ := ihr he.2
      exact ⟨⟨hn, hm⟩, isPlain_timesOption hc hd⟩
  | div n d ihn ihd =>
      obtain ⟨hn, hc⟩ := ihn he.1
      obtain ⟨hm, hd⟩ := ihd he.2
      refine ⟨hn.times hd, isPlain_timesOption hc ?_⟩
      rintro f hf
      cases hf
      exact hm
  | add l r ihl ihr | sub l r ihl ihr =>
      obtain ⟨hn, hc⟩ := ihl he.1
      obtain ⟨hm, hd⟩ := ihr he.2
      unfold Expr.split
      dsimp only
      split
      next => exact ⟨⟨hn, hm⟩, hc⟩
      next => exact ⟨⟨hn.times hd, hm.times hc⟩, isPlain_timesOption hc hd⟩

theorem IsPlain.joinAdd (ha : a.IsPlain P) (hb : b.IsPlain P) : (a.joinAdd b).IsPlain P := by
  induction a with
  | add l r _ ih => exact ⟨ha.1, ih ha.2⟩
  | _ => exact ⟨ha, hb⟩

theorem IsPlain.joinMul (ha : a.IsPlain P) (hb : b.IsPlain P) : (a.joinMul b).IsPlain P := by
  induction a with
  | mul l r _ ih => exact ⟨ha.1, ih ha.2⟩
  | _ => exact ⟨ha, hb⟩

theorem IsPlain.rightAssociative (he : e.IsPlain P) : e.rightAssociative.IsPlain P := by
  have hminus : minusOne.IsPlain P := trivial
  induction e with
  | number q => exact he
  | atom q => exact he
  | neg e ih => exact hminus.joinMul (ih he)
  | add l r ihl ihr => exact (ihl he.1).joinAdd (ihr he.2)
  | sub l r ihl ihr => exact (ihl he.1).joinAdd (hminus.joinMul (ihr he.2))
  | mul l r ihl ihr => exact (ihl he.1).joinMul (ihr he.2)
  | div n d _ _ => exact he.elim
  | elim e p _ => exact he.elim

theorem IsPlain.forall_quantities (he : e.IsPlain P) : ∀ q ∈ e.quantities, P q := by
  induction e with
  | number q => exact List.forall_mem_nil _
  | atom q => exact List.forall_mem_singleton.2 he
  | neg e ih => exact ih he
  | add l r ihl ihr | sub l r ihl ihr | mul l r ihl ihr =>
      exact List.forall_mem_append.2 ⟨ihl he.1, ihr he.2⟩
  | div n d _ _ => exact he.elim
  | elim e p _ => exact he.elim

theorem IsPlain.exists_expand (he : e.IsPlain Quantity.IsRegular) : ∃ s, e.expand = .ok s := by
  induction e with
  | number q => exact ⟨_, rfl⟩
  | atom q =>
      obtain ⟨o, ho⟩ := Quantity.IsRegular.exists_orient he
      unfold expand Expansion.ofQuantity
      rw [ho]
      exact ⟨_, rfl⟩
  | neg e ih =>
      obtain ⟨s, hs⟩ := ih he
      unfold expand
      rw [hs]
      exact ⟨_, rfl⟩
  | add l r ihl ihr | sub l r ihl ihr | mul l r ihl ihr =>
      obtain ⟨s, hs⟩ := ihl he.1
      obtain ⟨t, ht⟩ := ihr he.2
      unfold expand
      rw [hs, ht]
      exact ⟨_, rfl⟩
  | div n d _ _ => exact he.elim
  | elim e p _ => exact he.elim

/-- The expanded form of a plain expression has its value everywhere. -/
theorem IsPlain.valueAt_expand {s : Expansion} (he : e.IsPlain P) (hν : RespectsOrientation ν)
    (h : e.expand = .ok s) : s.valueAt ν = e.valueAt ν :=
  (denotes_self (he.isDefined ν)).expand hν h

/-- The factors in a normal form come from the quantities of the expression. -/
theorem Over.forall_factor_normalForm {s : Expansion} (he : e.Over P)
    (horient : ∀ q, P q → ∀ o k, q.orient = .ok o → o.quantity = some k → Q k)
    (h : e.normalForm = .ok s) : ∀ t ∈ s.entries, ∀ f ∈ t.1, Q f := by
  unfold normalForm at h
  rw [numerator_eq] at h
  refine forall_factor_expand (fun q hq => horient q ?_) h
  exact he.split.1.rightAssociative.forall_quantities q hq

/-- A regular expression has a normal form. -/
theorem IsRegular.exists_normalForm (he : e.IsRegular) : ∃ s, e.normalForm = .ok s := by
  unfold normalForm
  rw [numerator_eq]
  exact he.split.1.rightAssociative.exists_expand

end NormalForm

end Expr

namespace Rule

variable {P : Quantity → Prop} {K : Label → Prop} {r : Rule} {weights : List (Label × Expr)} {a b c : Label}

/-- The points of the rule have a property, and the quantities in it another one. -/
def Over (P : Quantity → Prop) (K : Label → Prop) : Rule → Prop
  | .affine weights => ∀ w ∈ weights, K w.1 ∧ w.2.Over P
  | .turn p u v r => K p ∧ K u ∧ K v ∧ r.Over P

/-- All expressions of the rule are regular. -/
abbrev IsRegular (r : Rule) : Prop := r.Over Quantity.IsRegular fun _ => True

theorem Over.mono {P' : Quantity → Prop} {K' : Label → Prop} (hP : ∀ q, P q → P' q) (hK : ∀ l, K l → K' l)
    (hr : r.Over P K) : r.Over P' K' := by
  cases r with
  | affine weights => exact fun w hw => ⟨hK _ (hr w hw).1, (hr w hw).2.mono hP⟩
  | turn p u v e => exact ⟨hK _ hr.1, hK _ hr.2.1, hK _ hr.2.2.1, hr.2.2.2.mono hP⟩

theorem over_weighted (h : ∀ w ∈ weights, K w.1 ∧ w.2.Over P) : (weighted weights).Over P K :=
  forall_foldl_addWeight (fun _ _ he hf => ⟨he, hf⟩) (List.forall_mem_nil _) h

theorem over_total {es : List Expr} (h : ∀ e ∈ es, e.Over P) : (total es).Over P := by
  cases es with
  | nil => trivial
  | cons e es =>
      unfold total
      induction es generalizing e with
      | nil => exact h e List.mem_cons_self
      | cons f es ih =>
          obtain ⟨he, hrest⟩ := List.forall_mem_cons.1 h
          exact ⟨he, ih f hrest⟩

theorem over_average {quantity : Label → Quantity} (hquantity : ∀ w ∈ weights, P (quantity w.1))
    (hweights : ∀ w ∈ weights, w.2.Over P) : (average weights fun l => .atom (quantity l)).Over P := by
  refine over_total fun e he => ?_
  obtain ⟨w, hw, rfl⟩ := List.mem_map.1 he
  exact ⟨hweights w hw, hquantity w hw⟩

section Elimination

variable (hP : ∀ q : Quantity, q.IsMeasured → (∀ l ∈ q.labels, K l) → P q)

include hP

omit hP in
theorem labels_of_three {a b c : Label} (ha : K a) (hb : K b) (hc : K c) : ∀ l ∈ [a, b, c], K l :=
  List.forall_mem_cons.2 ⟨ha, List.forall_mem_cons.2 ⟨hb, List.forall_mem_singleton.2 hc⟩⟩

theorem Over.area {a b c : Label} (ha : K a) (hb : K b) (hc : K c) : (Rule.area a b c).Over P :=
  hP _ trivial (labels_of_three ha hb hc)

theorem Over.pythagoras {a b c : Label} (ha : K a) (hb : K b) (hc : K c) : (Rule.pythagoras a b c).Over P :=
  hP _ trivial (labels_of_three ha hb hc)

theorem Over.areaWith (hr : r.Over P K) (ha : K a) (hb : K b) : (r.areaWith a b).Over P := by
  cases r with
  | affine weights =>
      exact over_average (fun w hw => Over.area hP ha hb (hr w hw).1) fun w hw => (hr w hw).2
  | turn p u v e =>
      obtain ⟨hp, hu, hv, he⟩ := hr
      exact ⟨Over.area hP ha hb hp, ⟨trivial, he⟩, Over.pythagoras hP ha hu hv, Over.pythagoras hP hb hu hv⟩

theorem Over.pythagorasWith (hr : r.Over P K) (ha : K a) (hb : K b) : (r.pythagorasWith a b).Over P := by
  cases r with
  | affine weights =>
      exact over_average (fun w hw => Over.pythagoras hP ha hb (hr w hw).1) fun w hw => (hr w hw).2
  | turn p u v e =>
      obtain ⟨hp, hu, hv, he⟩ := hr
      exact ⟨Over.pythagoras hP ha hb hp, ⟨trivial, he⟩, Over.area hP hu hv ha, Over.area hP hu hv hb⟩

theorem Over.pythagorasAt (hr : r.Over P K) (ha : K a) (hc : K c) : (r.pythagorasAt a c).Over P := by
  cases r with
  | affine weights =>
      refine over_total fun e he => ?_
      rcases List.mem_append.1 he with he | he
      · obtain ⟨w, hw, rfl⟩ := List.mem_map.1 he
        exact ⟨(hr w hw).2, Over.pythagoras hP ha (hr w hw).1 hc⟩
      · obtain ⟨w, hw, rfl⟩ := List.mem_map.1 he
        obtain ⟨hfst, hsnd⟩ := mem_pairs hw
        have hends := Over.pythagoras hP (hr _ hfst).1 (hr _ hsnd).1 (hr _ hfst).1
        exact ⟨⟨(hr _ hfst).2, (hr _ hsnd).2⟩, hends⟩
  | turn p u v e =>
      obtain ⟨hp, hu, hv, he⟩ := hr
      have hareas : (Expr.sub (.add (Rule.area u v a) (Rule.area u v c))
          (.mul (.number 2) (Rule.area u v p))).Over P :=
        ⟨⟨Over.area hP hu hv ha, Over.area hP hu hv hc⟩, trivial, Over.area hP hu hv hp⟩
      exact ⟨⟨Over.pythagoras hP ha hp hc, ⟨trivial, he⟩, hareas⟩, ⟨he, he⟩, Over.pythagoras hP hu hv hu⟩

end Elimination

end Rule

namespace Definition

/-- All expressions of the definition are regular. -/
structure IsRegular (d : Definition) : Prop where
  rule : d.rule.IsRegular
  denominators : ∀ e ∈ d.denominators, e.IsRegular

variable {P : Quantity → Prop} {K : Label → Prop} {d : Definition} {q : Quantity} {e : Expr} {err : Error}

/-- A definition gives values over its own quantities and over areas and Pythagoras differences of its points
and the other ones. -/
theorem over_eliminate (hP : ∀ q : Quantity, q.IsMeasured → (∀ l ∈ q.labels, K l) → P q)
    (hd : d.rule.Over P K) (hq : ∀ l ∈ q.labels, l ≠ d.point → K l) (h : d.eliminate q = .ok e) :
    e.Over P := by
  cases q with
  | area a b c =>
      have ha := hq a (by simp [Quantity.labels])
      have hb := hq b (by simp [Quantity.labels])
      have hc := hq c (by simp [Quantity.labels])
      change d.area a b c = .ok e at h
      unfold Definition.area at h
      split at h
      next _ hb' hc' =>
        cases h
        exact hd.areaWith hP (hb (beq_eq_false_iff_ne.1 hb')) (hc (beq_eq_false_iff_ne.1 hc'))
      next ha' _ hc' =>
        cases h
        exact hd.areaWith hP (hc (beq_eq_false_iff_ne.1 hc')) (ha (beq_eq_false_iff_ne.1 ha'))
      next ha' hb' _ =>
        cases h
        exact hd.areaWith hP (ha (beq_eq_false_iff_ne.1 ha')) (hb (beq_eq_false_iff_ne.1 hb'))
      next => cases h
      next => exact Except.ok.inj h ▸ trivial
  | pythagoras a b c =>
      have ha := hq a (by simp [Quantity.labels])
      have hb := hq b (by simp [Quantity.labels])
      have hc := hq c (by simp [Quantity.labels])
      cases h
      unfold Definition.pythagoras
      split
      next =>
        split
        next => trivial
        next hends =>
          rw [Bool.or_eq_true, decide_eq_true_iff, decide_eq_true_iff, not_or] at hends
          exact hd.pythagorasAt hP (ha hends.1) (hc hends.2)
      next hb' =>
        split
        next => exact hd.pythagorasAt hP (hb hb') (hb hb')
        next hends =>
          split
          next hc' =>
            rw [Bool.and_eq_true, decide_eq_true_iff, decide_eq_true_iff] at hends
            exact hd.pythagorasWith hP (ha fun ha' => hends ⟨ha', hc'⟩) (hb hb')
          next hc' => exact hd.pythagorasWith hP (hc hc') (hb hb')
  | ratio a b u v => cases h

/-- A definition gives a regular value. -/
theorem IsRegular.eliminate (hd : d.IsRegular) (h : d.eliminate q = .ok e) : e.IsRegular :=
  over_eliminate (fun _ hq _ => hq.isRegular) hd.rule (fun _ _ _ => trivial) h

/-- A definition gives a value to each area and each Pythagoras difference of its point. -/
theorem exists_eliminate (hmentions : q.mentions d.point = true) (hq : q.IsMeasured) :
    ∃ e, d.eliminate q = .ok e := by
  cases q with
  | area a b c =>
      change ∃ e, d.area a b c = .ok e
      unfold Definition.area
      split
      next => exact ⟨_, rfl⟩
      next => exact ⟨_, rfl⟩
      next => exact ⟨_, rfl⟩
      next ha hb hc =>
        exfalso
        have hmem : d.point ∈ [a, b, c] := List.contains_iff_mem.1 hmentions
        rw [List.mem_cons, List.mem_cons, List.mem_singleton] at hmem
        rcases hmem with heq | heq | heq
        · exact beq_eq_false_iff_ne.1 ha heq.symm
        · exact beq_eq_false_iff_ne.1 hb heq.symm
        · exact beq_eq_false_iff_ne.1 hc heq.symm
      next => exact ⟨_, rfl⟩
  | pythagoras a b c => exact ⟨_, rfl⟩
  | ratio a b u v => exact hq.elim

/-- There is no lemma for ratios; any other quantity that mentions the point has a value. -/
theorem eliminate_eq_error (hmentions : q.mentions d.point = true) (h : d.eliminate q = .error err) :
    err.IsMissing := by
  have hmissing (hq : q.IsMeasured) : err.IsMissing := by
    obtain ⟨e, he⟩ := exists_eliminate hmentions hq
    cases he.symm.trans h
  cases q with
  | area a b c => exact hmissing trivial
  | pythagoras a b c => exact hmissing trivial
  | ratio a b u v =>
      cases h
      trivial

end Definition

namespace Context

variable {p : Protocol} {d : Definition} {c : Context} {q : Quantity} {e e' : Expr} {l : Label}
  {err : Error} {used used' : List Label}

/-- All definitions are regular. -/
def IsRegular (c : Context) : Prop := ∀ d ∈ c.definitions, d.IsRegular

/-- The points that span a line differ. -/
theorem ne_of_span (hp : p.Accepted) {n : ℕ} {u v : Label} (h : (span p n l c).1 = .ok (u, v)) :
    u ≠ v := by
  obtain ⟨m, s, -, hs, -, -, hlocus | ⟨line, a, b, -, rfl, -⟩⟩ := span_eq_ok h
  · exact hp.ne_of_lineThrough hs hlocus
  · exact ne_secondLabel _ _

/-- The rules of points are over areas, Pythagoras differences and the free ratio of the point. -/
theorem over_of_describes {own : Label} {rule : PointRule} {r : Rule} {denominators : List Expr}
    {parameter : Option Quantity} (h : Rule.Describes p own rule r denominators parameter) :
    r.Over (fun q => q.IsMeasured ∨ q ∈ parameter) (fun _ => True) ∧
      ∀ e ∈ denominators, e.Over fun q => q.IsMeasured ∨ q ∈ parameter := by
  have hnumbers {P : Quantity → Prop} (weights : List (Label × ℚ)) :
      (Rule.weighted (weights.map fun w => (w.1, .number w.2))).Over P fun _ => True := by
    refine Rule.over_weighted fun w hw => ?_
    obtain ⟨w, -, rfl⟩ := List.mem_map.1 hw
    exact ⟨trivial, trivial⟩
  cases h with
  | midpoint a b => exact ⟨hnumbers [(a, 1 / 2), (b, 1 / 2)], List.forall_mem_nil _⟩
  | shifted q a b => exact ⟨hnumbers [(q, 1), (b, 1), (a, -1)], List.forall_mem_nil _⟩
  | symmetric q o => exact ⟨hnumbers [(o, 2), (q, -1)], List.forall_mem_nil _⟩
  | rotated q o => exact ⟨⟨trivial, trivial, trivial, trivial⟩, List.forall_mem_nil _⟩
  | foot q a b =>
      refine ⟨Rule.over_weighted ?_, List.forall_mem_singleton.2 (.inl trivial)⟩
      simp [Expr.Over, Quantity.IsMeasured, Expr.one]
  | intersection hl hm =>
      refine ⟨Rule.over_weighted ?_, List.forall_mem_singleton.2 ⟨.inl trivial, .inl trivial⟩⟩
      simp [Expr.Over, Quantity.IsMeasured]
  | onLine hl =>
      refine ⟨Rule.over_weighted ?_, List.forall_mem_nil _⟩
      simp [Expr.Over, Expr.one]

/-- Definitions are over areas, Pythagoras differences and their own free ratios. -/
theorem StemsFrom.over (hc : c.StemsFrom p) (hd : d ∈ c.definitions) :
    d.rule.Over (fun q => q.IsMeasured ∨ q ∈ d.parameter) (fun _ => True) ∧
      ∀ e ∈ d.denominators, e.Over fun q => q.IsMeasured ∨ q ∈ d.parameter := by
  obtain ⟨s, -, hof | hsecond⟩ := hc.definitions d hd
  · obtain ⟨rule, -, hdescribes⟩ := hof.rule
    exact over_of_describes hdescribes
  · obtain ⟨through, line, a, b, n, c, -, -, -, hrule⟩ := hsecond.rule
    refine ⟨?_, hsecond.denominators ▸ List.forall_mem_nil _⟩
    rcases hrule with ⟨-, hrule⟩ | ⟨-, hrule⟩ <;> rw [hrule]
    · refine Rule.over_weighted ?_
      simp [Expr.Over]
    · exact ⟨trivial, trivial, trivial, trivial⟩

theorem StemsFrom.isRegular_parameter (hc : c.StemsFrom p) (hp : p.Accepted) (hd : d ∈ c.definitions)
    (hq : q ∈ d.parameter) : q.IsRegular := by
  obtain ⟨s, u, v, -, hdivision⟩ := hc.exists_isDivision hd hq
  obtain ⟨l, c', -, hspan⟩ := hdivision.line
  exact hdivision.ratio ▸ ne_of_span hp hspan

/-- All definitions for a figure are regular. -/
theorem isRegular_ofProtocol (hp : p.Accepted) : (ofProtocol p).IsRegular := by
  intro d hd
  obtain ⟨hrule, hdenominators⟩ := (stemsFrom_ofProtocol p).over hd
  have hregular (q : Quantity) (hq : q.IsMeasured ∨ q ∈ d.parameter) : q.IsRegular :=
    hq.elim Quantity.IsMeasured.isRegular ((stemsFrom_ofProtocol p).isRegular_parameter hp hd)
  exact ⟨hrule.mono hregular fun _ h => h, fun e he => (hdenominators e he).mono hregular⟩

theorem IsRegular.denominators (hc : c.IsRegular) : ∀ e ∈ c.denominators l, e.IsRegular := by
  intro e he
  unfold Context.denominators at he
  cases hd : c.find? l with
  | none =>
      rw [hd] at he
      cases he
  | some d =>
      rw [hd] at he
      exact (hc d (List.mem_of_find?_eq_some hd)).denominators e he

theorem isParameter_ratio (c : Context) (a b u v : Label) : c.isParameter (.ratio a b u v) =
    Quantity.orient (.ratio a b u v) >>= fun o => .ok (c.parameters.contains o.quantity) := rfl

theorem exists_isParameter (hq : q.IsRegular) : ∃ b, c.isParameter q = .ok b := by
  cases q with
  | area | pythagoras => exact ⟨false, rfl⟩
  | ratio a b u v =>
      obtain ⟨o, ho⟩ := hq.exists_orient
      rw [isParameter_ratio, ho]
      exact ⟨_, rfl⟩

theorem exists_concerns (hq : q.IsRegular) : ∃ b, c.concerns l q = .ok b := by
  obtain ⟨b, hb⟩ := exists_isParameter (c := c) hq
  unfold concerns
  split
  next =>
    rw [hb]
    exact ⟨_, rfl⟩
  next => exact ⟨_, rfl⟩

theorem exists_mentions (he : e.IsRegular) : ∃ b, c.mentions l e = .ok b := by
  induction e with
  | number q => exact ⟨false, rfl⟩
  | atom q => exact exists_concerns he
  | neg e ih => exact ih he
  | elim e p _ => exact he.elim
  | add d e ihl ihr | sub d e ihl ihr | mul d e ihl ihr | div d e ihl ihr =>
      obtain ⟨b, hb⟩ := ihl he.1
      unfold mentions
      rw [hb]
      cases b with
      | false => exact ihr he.2
      | true => exact ⟨true, rfl⟩

end Context

end Planimetry.Area
