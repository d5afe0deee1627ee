import Mathlib.Logic.Function.Basic
import Planimetry.Proofs.Area.Geometry

/-! Placements by definitions: the free points stand anywhere, free ratios have any value, and every other
point stands where its definition puts it. -/

namespace Planimetry.Area

section ReadsOnly

/-- The value depends on the places of no other points. -/
def Quantity.ReadsOnly (P : Label → Prop) : Quantity → Prop
  | .ratio .. => True
  | q => ∀ l ∈ q.labels, P l

/-- The value depends on the places of no other points. -/
def Expr.ReadsOnly (P : Label → Prop) : Expr → Prop
  | .number _ => True
  | .atom q => q.ReadsOnly P
  | .add l r | .sub l r | .mul l r | .div l r => l.ReadsOnly P ∧ r.ReadsOnly P
  | .neg e | .elim e _ => e.ReadsOnly P

/-- The point depends on the places of no other points. -/
def Rule.ReadsOnly (P : Label → Prop) : Rule → Prop
  | .affine weights => ∀ w ∈ weights, P w.1 ∧ w.2.ReadsOnly P
  | .turn p u v r => P p ∧ P u ∧ P v ∧ r.ReadsOnly P

variable {P Q : Label → Prop} {place place' : Label → ℚ × ℚ} {ratio : Quantity → ℚ}

theorem Quantity.ReadsOnly.mono {q : Quantity} (h : ∀ l, P l → Q l) (hq : q.ReadsOnly P) :
    q.ReadsOnly Q := by
  cases q with
  | ratio a b c d => trivial
  | _ => exact fun l hl => h l (hq l hl)

theorem Expr.ReadsOnly.mono {e : Expr} (h : ∀ l, P l → Q l) (he : e.ReadsOnly P) :
    e.ReadsOnly Q := by
  induction e with
  | number q => trivial
  | atom q => exact Quantity.ReadsOnly.mono h he
  | neg e ih => exact ih he
  | elim e p ih => exact ih he
  | _ l r ihl ihr => exact ⟨ihl he.1, ihr he.2⟩

theorem Rule.ReadsOnly.mono {r : Rule} (h : ∀ l, P l → Q l) (hr : r.ReadsOnly P) :
    r.ReadsOnly Q := by
  cases r with
  | affine weights => exact fun w hw => ⟨h _ (hr w hw).1, (hr w hw).2.mono h⟩
  | turn p u v r => exact ⟨h _ hr.1, h _ hr.2.1, h _ hr.2.2.1, hr.2.2.2.mono h⟩

theorem Quantity.valueAt_congr {q : Quantity} (hq : q.ReadsOnly P)
    (h : ∀ l, P l → place l = place' l) : q.valueAt place ratio = q.valueAt place' ratio := by
  cases q with
  | ratio a b c d => rfl
  | area a b c =>
      simp only [valueAt, h a (hq a (by simp [labels])), h b (hq b (by simp [labels])),
        h c (hq c (by simp [labels]))]
  | pythagoras a b c =>
      simp only [valueAt, h a (hq a (by simp [labels])), h b (hq b (by simp [labels])),
        h c (hq c (by simp [labels]))]

theorem Expr.valueAt_congr {e : Expr} (he : e.ReadsOnly P) (h : ∀ l, P l → place l = place' l) :
    e.valueAt (Quantity.valueAt place ratio) = e.valueAt (Quantity.valueAt place' ratio) := by
  induction e with
  | number q => rfl
  | atom q => exact Quantity.valueAt_congr he h
  | neg e ih => exact congr_arg _ (ih he)
  | elim e p ih => exact ih he
  | _ l r ihl ihr =>
      unfold valueAt
      rw [ihl he.1, ihr he.2]

theorem weightedSum_congr {weights : List (Label × Expr)} {f g : Label → ℚ}
    (hweights : ∀ w ∈ weights, P w.1 ∧ w.2.ReadsOnly P) (h : ∀ l, P l → place l = place' l)
    (hfg : ∀ l, P l → f l = g l) :
    weightedSum (Quantity.valueAt place ratio) weights f =
      weightedSum (Quantity.valueAt place' ratio) weights g := by
  refine congr_arg List.sum (List.map_congr_left fun w hw => ?_)
  rw [Expr.valueAt_congr (hweights w hw).2 h, hfg _ (hweights w hw).1]

theorem Rule.pointAt_congr {r : Rule} (hr : r.ReadsOnly P) (h : ∀ l, P l → place l = place' l) :
    r.pointAt (Quantity.valueAt place ratio) place =
      r.pointAt (Quantity.valueAt place' ratio) place' := by
  cases r with
  | affine weights =>
      simp only [pointAt]
      rw [weightedSum_congr hr h fun l hl => congr_arg Prod.fst (h l hl),
        weightedSum_congr hr h fun l hl => congr_arg Prod.snd (h l hl)]
  | turn p u v r =>
      simp only [pointAt, h p hr.1, h u hr.2.1, h v hr.2.2.1, Expr.valueAt_congr hr.2.2.2 h]

end ReadsOnly

/-- A definition on known points, which is defined unless one of its denominators is zero. A free ratio
is that of the point on the line of two others. -/
structure Definition.IsProper (known : Label → Prop) (d : Definition) : Prop where
  reads : d.rule.ReadsOnly known ∧ ∀ e ∈ d.denominators, e.ReadsOnly known
  denominators (ν : Quantity → ℚ) : ∀ e ∈ d.denominators, e.IsDefined ν
  isDefined (ν : Quantity → ℚ) : (∀ e ∈ d.denominators, e.valueAt ν ≠ 0) → d.rule.IsDefined ν
  parameter : ∀ q ∈ d.parameter,
    ∃ u v, q = .ratio u d.point u v ∧ known u ∧ u ≠ v ∧ u ≠ d.point ∧ v ≠ d.point

theorem Definition.IsProper.mono {P Q : Label → Prop} {d : Definition} (h : ∀ l, P l → Q l)
    (hd : d.IsProper P) : d.IsProper Q where
  reads := ⟨hd.reads.1.mono h, fun e he => (hd.reads.2 e he).mono h⟩
  denominators := hd.denominators
  isDefined := hd.isDefined
  parameter := fun q hq => by
    obtain ⟨u, v, hratio, hu, hne⟩ := hd.parameter q hq
    exact ⟨u, v, hratio, h u hu, hne⟩

/-- Definitions of new points on free points and on those defined before; the last one comes first. -/
inductive IsOrdered (free : List Label) : List Definition → Prop
  | nil : IsOrdered free []
  | cons {d : Definition} {ds : List Definition} (hfree : d.point ∉ free)
    (hnew : d.point ∉ ds.map Definition.point)
    (hproper : d.IsProper fun l => l ∈ free ∨ l ∈ ds.map Definition.point)
    (h : IsOrdered free ds) : IsOrdered free (d :: ds)

theorem IsOrdered.notMem {free : List Label} {ds : List Definition} {l : Label} (h : IsOrdered free ds)
    (hl : l ∈ free) : l ∉ ds.map Definition.point := by
  induction h with
  | nil => exact List.not_mem_nil
  | @cons d ds hfree hnew hproper h ih =>
      rw [List.map_cons, List.mem_cons, not_or]
      exact ⟨fun heq => hfree (heq ▸ hl), ih⟩

/-- The points placed by their definitions one after another; the last definition comes first. -/
def placeAll (free : Label → ℚ × ℚ) (ratio : Quantity → ℚ) : List Definition → Label → ℚ × ℚ
  | [] => free
  | d :: ds =>
    Function.update (placeAll free ratio ds) d.point
      (d.rule.pointAt (Quantity.valueAt (placeAll free ratio ds) ratio) (placeAll free ratio ds))

/-- The value of a canonical ratio where the free ratio of each random point has a value. -/
def ratioOf (ratios : Label → ℚ) : List Definition → Quantity → ℚ
  | [], _ => 0
  | d :: ds, k =>
    match d.parameter.map Quantity.orient with
    | some (.ok o) => if o.quantity = some k then o.factor * ratios d.point else ratioOf ratios ds k
    | _ => ratioOf ratios ds k

section Place

variable {free : List Label} {ds : List Definition} {d : Definition} {f : Label → ℚ × ℚ}
  {ratio : Quantity → ℚ} {ratios : Label → ℚ} {l : Label}

theorem placeAll_of_notMem (h : l ∉ ds.map Definition.point) : placeAll f ratio ds l = f l := by
  induction ds with
  | nil => rfl
  | cons d ds ih =>
      rw [List.map_cons, List.mem_cons, not_or] at h
      unfold placeAll
      rw [Function.update_of_ne h.1, ih h.2]

theorem placeAll_cons_of_known (hfree : d.point ∉ free) (hnew : d.point ∉ ds.map Definition.point)
    (hl : l ∈ free ∨ l ∈ ds.map Definition.point) :
    placeAll f ratio (d :: ds) l = placeAll f ratio ds l := by
  refine Function.update_of_ne ?_ _ _
  rintro rfl
  exact hl.elim hfree hnew

theorem IsOrdered.isProper (h : IsOrdered free ds) (hd : d ∈ ds) :
    d.IsProper fun l => l ∈ free ∨ l ∈ ds.map Definition.point := by
  induction h with
  | nil => cases hd
  | @cons d' ds hfree hnew hproper h ih =>
      have hmono (l : Label) (hl : l ∈ free ∨ l ∈ ds.map Definition.point) :
          l ∈ free ∨ l ∈ (d' :: ds).map Definition.point :=
        hl.imp_right (List.mem_cons_of_mem _)
      rcases List.mem_cons.1 hd with rfl | hd
      · exact hproper.mono hmono
      · exact (ih hd).mono hmono

theorem IsOrdered.find?_eq (h : IsOrdered free ds) (hd : d ∈ ds) :
    (ds.find? fun e => e.point == d.point) = some d := by
  induction h with
  | nil => cases hd
  | @cons d' ds hfree hnew hproper h ih =>
      rcases List.mem_cons.1 hd with rfl | hd
      · exact List.find?_cons_of_pos (beq_self_eq_true _)
      · rw [List.find?_cons_of_neg, ih hd]
        rw [beq_iff_eq]
        exact fun heq => hnew (heq ▸ List.mem_map_of_mem hd)

/-- All points stand where their definitions put them. -/
theorem IsOrdered.point_placeAll (h : IsOrdered free ds) (hd : d ∈ ds) :
    placeAll f ratio ds d.point =
      d.rule.pointAt (Quantity.valueAt (placeAll f ratio ds) ratio) (placeAll f ratio ds) := by
  induction h with
  | nil => cases hd
  | @cons d' ds hfree hnew hproper h ih =>
      have hknown (l : Label) (hl : l ∈ free ∨ l ∈ ds.map Definition.point) :
          placeAll f ratio ds l = placeAll f ratio (d' :: ds) l :=
        (placeAll_cons_of_known hfree hnew hl).symm
      rcases List.mem_cons.1 hd with rfl | hd
      · rw [← Rule.pointAt_congr hproper.reads.1 hknown]
        exact Function.update_self _ _ _
      · rw [← hknown _ (.inr (List.mem_map_of_mem hd)), ih hd]
        exact Rule.pointAt_congr (h.isProper hd).reads.1 hknown

/-- Definitions hold where they put their points, unless a denominator is zero. -/
theorem IsOrdered.holdsAt (h : IsOrdered free ds)
    (hne : ∀ d ∈ ds, ∀ e ∈ d.denominators,
      e.valueAt (Quantity.valueAt (placeAll f ratio ds) ratio) ≠ 0) :
    ∀ d ∈ ds, d.HoldsAt (placeAll f ratio ds) ratio :=
  fun d hd => ⟨(h.isProper hd).isDefined _ (hne d hd), h.point_placeAll hd⟩

/-- The ratio in which a point divides the segment of two others has an orientation that is not a
number. -/
theorem Quantity.orient_division {u v p : Label} (huv : u ≠ v) (hup : u ≠ p) (hvp : v ≠ p) :
    ∃ o k, (Quantity.ratio u p u v).orient = .ok o ∧ o.quantity = some k ∧
      (o.factor = 1 ∨ o.factor = -1) ∧ k.IsCanonical ∧ ∃ s t v w, k = .ratio s t v w ∧
        (s = u ∧ t = p ∨ s = p ∧ t = u) := by
  have horient : Quantity.orient (.ratio u p u v) = .ok (Quantity.orientRatio u p u v) :=
    (if_neg huv).trans (if_neg hup)
  have hsome : (Quantity.orientRatio u p u v).quantity ≠ none := by
    unfold Quantity.orientRatio
    by_cases hpu : p < u <;> by_cases hvu : v < u <;> simp [hpu, hvu, huv, hvp.symm]
  obtain ⟨k, hk⟩ := Option.ne_none_iff_exists'.1 hsome
  exact ⟨_, k, horient, hk, Quantity.orientRatio_eq_some hup huv hk⟩

/-- The orientation of a free ratio. -/
theorem Definition.IsProper.orient_parameter {known : Label → Prop} (hd : d.IsProper known)
    {q : Quantity} (hq : q ∈ d.parameter) :
    ∃ o k u, q.orient = .ok o ∧ o.quantity = some k ∧ (o.factor = 1 ∨ o.factor = -1) ∧
      k.IsCanonical ∧ known u ∧ ∃ s t v w, k = .ratio s t v w ∧
        (s = u ∧ t = d.point ∨ s = d.point ∧ t = u) := by
  obtain ⟨u, v, rfl, hu, huv, hud, hvd⟩ := hd.parameter q hq
  obtain ⟨o, k, ho, hk, hfactor, hcanonical, hends⟩ := Quantity.orient_division huv hud hvd
  exact ⟨o, k, u, ho, hk, hfactor, hcanonical, hu, hends⟩

/-- A canonical ratio has the value that all free ratios with this orientation give to it. -/
theorem ratioOf_eq {k : Quantity} {x : ℚ}
    (hsome : ∃ d ∈ ds, ∃ q ∈ d.parameter, ∃ o, q.orient = .ok o ∧ o.quantity = some k)
    (hagree : ∀ d ∈ ds, ∀ q ∈ d.parameter, ∀ o, q.orient = .ok o → o.quantity = some k →
      o.factor * ratios d.point = x) : ratioOf ratios ds k = x := by
  induction ds with
  | nil =>
      obtain ⟨d, hd, -⟩ := hsome
      cases hd
  | cons d ds ih =>
      obtain ⟨hfirst, hrest⟩ := List.forall_mem_cons.1 hagree
      unfold ratioOf
      split
      next o hmap =>
        obtain ⟨q, hq, ho⟩ := Option.map_eq_some_iff.1 hmap
        split
        next hk => exact hfirst q hq o ho hk
        next hk =>
          refine ih ?_ hrest
          obtain ⟨e, he, q', hq', o', ho', hk'⟩ := hsome
          rcases List.mem_cons.1 he with rfl | he
          · obtain rfl := Option.some.inj (hq.symm.trans hq')
            obtain rfl := Except.ok.inj (ho.symm.trans ho')
            exact absurd hk' hk
          · exact ⟨e, he, q', hq', o', ho', hk'⟩
      next hnone =>
        refine ih ?_ hrest
        obtain ⟨e, he, q', hq', o', ho', hk'⟩ := hsome
        rcases List.mem_cons.1 he with rfl | he
        · exact absurd ((congr_arg (Option.map Quantity.orient) hq').trans (congr_arg some ho'))
            (hnone o')
        · exact ⟨e, he, q', hq', o', ho', hk'⟩

/-- Different points have different free ratios. -/
theorem ratioOf_parameter (h : IsOrdered free ds) (hd : d ∈ ds) {q k : Quantity} {o : Oriented}
    (hq : q ∈ d.parameter) (ho : q.orient = .ok o) (hk : o.quantity = some k) :
    ratioOf ratios ds k = o.factor * ratios d.point := by
  induction h with
  | nil => cases hd
  | @cons d' ds hfree hnew hproper h ih =>
      unfold ratioOf
      rcases List.mem_cons.1 hd with rfl | hd
      · rw [Option.mem_def.1 hq, Option.map_some, ho]
        dsimp only
        rw [if_pos hk]
      · cases hq' : d'.parameter with
        | none => exact ih hd
        | some q' =>
            obtain ⟨o', k', u', ho', hk', -, -, -, s', t', v', w', hratio', hends'⟩ :=
              hproper.orient_parameter hq'
            obtain ⟨o₁, k₁, u, ho₁, hk₁, -, -, hu, s, t, v, w, hratio, hends⟩ :=
              (h.isProper hd).orient_parameter hq
            obtain rfl := Except.ok.inj (ho.symm.trans ho₁)
            obtain rfl := Option.some.inj (hk.symm.trans hk₁)
            rw [Option.map_some, ho']
            dsimp only
            rw [if_neg fun heq => ?_]
            · exact ih hd
            · have hpoint : d'.point ≠ d.point := fun heq => hnew (heq ▸ List.mem_map_of_mem hd)
              have hknown : d'.point ≠ u := fun heq => (heq ▸ hu).elim hfree hnew
              rw [hk', Option.some.injEq, hratio, hratio', Quantity.ratio.injEq] at heq
              obtain ⟨rfl, rfl, -⟩ := heq
              rcases hends' with ⟨-, ht⟩ | ⟨hs, -⟩
              · exact hends.elim (fun h => hpoint (ht.symm.trans h.2))
                  fun h => hknown (ht.symm.trans h.2)
              · exact hends.elim (fun h => hknown (hs.symm.trans h.1))
                  fun h => hpoint (hs.symm.trans h.1)

end Place

end Planimetry.Area
