import Mathlib.Data.Sym.Sym2.Order
import Planimetry.Proofs.Area.Geometry
import Planimetry.Proofs.Area.Regular

/-! Orientation under other names: the order of labels decides which of some quantities that differ by a
sign is canonical, but not which ones differ by a sign. -/

namespace Planimetry.Area

variable {ν : Quantity → ℚ} {f : Label → Label} {a b c d x y z : Label} {q r : Quantity} {o : Oriented}

namespace Quantity

/-! ### Canonical quantities -/

/-- Of labels in ascending order, all rotations have the area of the canonical quantity, and all
reflections its inverse. -/
theorem orientArea_of_lt (hxy : x < y) (hyz : y < z) :
    orientArea x y z = ⟨1, some (.area x y z)⟩ ∧ orientArea y z x = ⟨1, some (.area x y z)⟩ ∧
      orientArea z x y = ⟨1, some (.area x y z)⟩ ∧ orientArea x z y = ⟨-1, some (.area x y z)⟩ ∧
      orientArea y x z = ⟨-1, some (.area x y z)⟩ ∧ orientArea z y x = ⟨-1, some (.area x y z)⟩ := by
  have hxz : x < z := hxy.trans hyz
  unfold orientArea
  simp only [hxy, hyz, hxz, hxy.asymm, hyz.asymm, hxz.asymm, hxy.ne, hyz.ne, hxz.ne, hxy.ne', hyz.ne',
    hxz.ne', List.nodup_cons, List.mem_cons, List.not_mem_nil, or_self, not_false_eq_true,
    List.nodup_nil, and_self, not_true_eq_false, if_false, if_true, decide_true, decide_false,
    Bool.and_true, Bool.and_false, Bool.false_eq_true]

theorem orientArea_of_not_nodup (h : ¬[a, b, c].Nodup) : orientArea a b c = ⟨0, none⟩ := if_pos h

/-- Three different labels are in one of six orders. -/
theorem exists_lt_of_nodup (h : [a, b, c].Nodup) : ∃ x y z, x < y ∧ y < z ∧
    ((a, b, c) = (x, y, z) ∨ (a, b, c) = (y, z, x) ∨ (a, b, c) = (z, x, y) ∨
      (a, b, c) = (x, z, y) ∨ (a, b, c) = (y, x, z) ∨ (a, b, c) = (z, y, x)) := by
  simp only [List.nodup_cons, List.mem_cons, List.not_mem_nil, or_false, not_or, not_false_eq_true,
    List.nodup_nil, and_true] at h
  obtain ⟨⟨hab, hac⟩, hbc⟩ := h
  rcases lt_or_gt_of_ne hab with hab | hab <;> rcases lt_or_gt_of_ne hbc with hbc | hbc
  · exact ⟨a, b, c, hab, hbc, by simp⟩
  · rcases lt_or_gt_of_ne hac with hac | hac
    · exact ⟨a, c, b, hac, hbc, by simp⟩
    · exact ⟨c, a, b, hac, hab, by simp⟩
  · rcases lt_or_gt_of_ne hac with hac | hac
    · exact ⟨b, a, c, hab, hac, by simp⟩
    · exact ⟨b, c, a, hbc, hac, by simp⟩
  · exact ⟨c, b, a, hbc, hab, by simp⟩

/-- The canonical quantity of an area is on the same points, in ascending order. -/
theorem orientArea_eq_some {k : Quantity} (hk : (orientArea a b c).quantity = some k) :
    ∃ x y z, x < y ∧ y < z ∧ k = .area x y z ∧ [x, y, z] ⊆ [a, b, c] := by
  by_cases hnodup : [a, b, c].Nodup
  · obtain ⟨x, y, z, hxy, hyz, horder⟩ := exists_lt_of_nodup hnodup
    have := orientArea_of_lt hxy hyz
    refine ⟨x, y, z, hxy, hyz, Option.some.inj (hk.symm.trans ?_), ?_⟩
    · rcases horder with h | h | h | h | h | h <;> cases h <;> simp only [this]
    · rcases horder with h | h | h | h | h | h <;> cases h <;> simp
  · rw [orientArea_of_not_nodup hnodup] at hk
    cases hk

theorem isCanonical_orientArea {k : Quantity} (hk : (orientArea a b c).quantity = some k) :
    k.IsCanonical := by
  obtain ⟨x, y, z, hxy, hyz, rfl, -⟩ := orientArea_eq_some hk
  exact congr_arg Except.ok (orientArea_of_lt hxy hyz).1

/-- The canonical quantity of a Pythagoras difference is on the same points. -/
theorem orientPythagoras_eq_some {k : Quantity} (hk : (orientPythagoras a b c).quantity = some k) :
    ∃ x y z, k = .pythagoras x y z ∧ [x, y, z] ⊆ [a, b, c] := by
  unfold orientPythagoras at hk
  split_ifs at hk <;> cases hk
  · exact ⟨b, a, b, rfl, by simp⟩
  · exact ⟨c, b, a, rfl, by simp⟩
  · exact ⟨a, b, c, rfl, List.Subset.refl _⟩

theorem isCanonical_orientPythagoras {k : Quantity}
    (hk : (orientPythagoras a b c).quantity = some k) : k.IsCanonical := by
  unfold orientPythagoras at hk
  split_ifs at hk with hzero hsame hlt <;> cases hk <;>
    refine congr_arg Except.ok ?_ <;>
    simp only [Bool.or_eq_true, Bool.and_eq_true, decide_eq_true_eq, not_or, not_and] at *
  · obtain ⟨rfl, hba⟩ := hsame
    simp [hba.ne, hba.ne', hba.asymm, orientPythagoras]
  · simp [hlt.ne, hlt.asymm, Ne.symm hzero.1, Ne.symm hzero.2, orientPythagoras]
  · rw [orientPythagoras, if_neg (by simpa using hzero), if_neg (by simpa using hsame), if_neg hlt]

theorem orientRatio_swap_left (hab : a ≠ b) :
    orientRatio b a c d = ⟨-(orientRatio a b c d).factor, (orientRatio a b c d).quantity⟩ := by
  unfold orientRatio
  rcases lt_or_gt_of_ne hab with hlt | hlt <;>
    simp only [hlt, hlt.asymm, if_true, if_false, apply_ite Oriented.factor, apply_ite Oriented.quantity] <;>
    split_ifs <;> simp

theorem orientRatio_swap_right (hcd : c ≠ d) :
    orientRatio a b d c = ⟨-(orientRatio a b c d).factor, (orientRatio a b c d).quantity⟩ := by
  unfold orientRatio
  rcases lt_or_gt_of_ne hcd with hlt | hlt <;>
    simp only [hlt, hlt.asymm, if_true, if_false, apply_ite Oriented.factor, apply_ite Oriented.quantity] <;>
    split_ifs <;> simp

/-- Orientation leads to canonical quantities. -/
theorem isCanonical_orient (h : q.orient = .ok o) {k : Quantity} (hk : o.quantity = some k) :
    k.IsCanonical := by
  cases q with
  | area a b c =>
      cases h
      exact isCanonical_orientArea hk
  | pythagoras a b c =>
      cases h
      exact isCanonical_orientPythagoras hk
  | ratio a b c d => exact (orient_ratio h k hk).2.1

theorem IsCanonical.isRegular (h : q.IsCanonical) : q.IsRegular := by
  cases q with
  | ratio a b c d =>
      intro hcd
      have hempty : orient (.ratio a b c d) = .error (.emptyRatio (.ratio a b c d)) := if_pos hcd
      cases hempty.symm.trans h
  | _ => trivial

/-- Any values of canonical quantities are values of all quantities. -/
theorem respectsOrientation_ratioAt (value : Quantity → ℚ) : RespectsOrientation (ratioAt value) := by
  intro q o h
  rw [ratioAt_eq h]
  unfold Oriented.valueAt
  cases hk : o.quantity with
  | none => rfl
  | some k => exact congr_arg _ (ratioAt_of_isCanonical (isCanonical_orient h hk)).symm

end Quantity

/-! ### Orientation without an order -/

/-- Quantities have the values that their symmetries ask for. -/
structure RespectsSymmetry (ν : Quantity → ℚ) : Prop where
  area_rotate (a b c : Label) : ν (.area b c a) = ν (.area a b c)
  area_swap (a b c : Label) : ν (.area a c b) = -ν (.area a b c)
  pythagoras_swap (a b c : Label) : ν (.pythagoras c b a) = ν (.pythagoras a b c)
  pythagoras_end (a c : Label) : ν (.pythagoras a a c) = 0
  pythagoras_segment (a b : Label) : ν (.pythagoras b a b) = ν (.pythagoras a b a)
  ratio_swap_left (a b : Label) {c d : Label} (h : c ≠ d) : ν (.ratio b a c d) = -ν (.ratio a b c d)
  ratio_swap_right (a b : Label) {c d : Label} (h : c ≠ d) : ν (.ratio a b d c) = -ν (.ratio a b c d)
  ratio_self {a b : Label} (h : a ≠ b) : ν (.ratio a b a b) = 1

namespace RespectsOrientation

variable (hν : RespectsOrientation ν)

include hν

theorem area_eq (a b c : Label) : ν (.area a b c) = (Quantity.orientArea a b c).valueAt ν :=
  hν (.area a b c) _ rfl

theorem pythagoras_eq (a b c : Label) :
    ν (.pythagoras a b c) = (Quantity.orientPythagoras a b c).valueAt ν :=
  hν (.pythagoras a b c) _ rfl

theorem ratio_eq (hab : a ≠ b) (hcd : c ≠ d) :
    ν (.ratio a b c d) = (Quantity.orientRatio a b c d).valueAt ν :=
  hν (.ratio a b c d) _ ((if_neg hcd).trans (if_neg hab))

/-- The values of quantities that respect orientation have its symmetries. -/
theorem respectsSymmetry : RespectsSymmetry ν where
  area_rotate a b c := by
    rw [hν.area_eq, hν.area_eq]
    by_cases hnodup : [a, b, c].Nodup
    · obtain ⟨x, y, z, hxy, hyz, horder⟩ := Quantity.exists_lt_of_nodup hnodup
      have := Quantity.orientArea_of_lt hxy hyz
      rcases horder with h | h | h | h | h | h <;> cases h <;> simp only [this]
    · have hperm : [b, c, a].Perm [a, b, c] := List.perm_append_singleton a [b, c]
      have hnodup' : ¬[b, c, a].Nodup := fun h => hnodup (hperm.nodup_iff.1 h)
      rw [← hν.area_eq, ← hν.area_eq, hν.area_eq_zero hnodup, hν.area_eq_zero hnodup']
  area_swap a b c := by
    rw [hν.area_eq, hν.area_eq]
    by_cases hnodup : [a, b, c].Nodup
    · obtain ⟨x, y, z, hxy, hyz, horder⟩ := Quantity.exists_lt_of_nodup hnodup
      have := Quantity.orientArea_of_lt hxy hyz
      rcases horder with h | h | h | h | h | h <;> cases h <;>
        simp only [this, Oriented.valueAt, neg_mul, one_mul, neg_neg]
    · have hnodup' : ¬[a, c, b].Nodup := fun h => hnodup (((List.Perm.swap b c []).cons a).nodup_iff.1 h)
      rw [← hν.area_eq, ← hν.area_eq, hν.area_eq_zero hnodup, hν.area_eq_zero hnodup', neg_zero]
  pythagoras_swap a b c := by
    rw [hν.pythagoras_eq, hν.pythagoras_eq]
    rcases lt_trichotomy a c with hac | rfl | hac
    · unfold Quantity.orientPythagoras
      simp only [eq_comm (a := c) (b := b), eq_comm (a := b) (b := a), hac.ne, hac.ne', hac, hac.asymm,
        Bool.or_comm (decide (b = c)), decide_false, Bool.false_and, Bool.false_eq_true, if_false,
        if_true]
    · rfl
    · unfold Quantity.orientPythagoras
      simp only [eq_comm (a := c) (b := b), eq_comm (a := b) (b := a), hac.ne, hac.ne', hac, hac.asymm,
        Bool.or_comm (decide (b = c)), decide_false, Bool.false_and, Bool.false_eq_true, if_false,
        if_true]
  pythagoras_end a c := hν.pythagoras_eq_zero (.inl rfl)
  pythagoras_segment a b := by
    rw [hν.pythagoras_eq, hν.pythagoras_eq]
    rcases lt_trichotomy a b with hab | rfl | hab
    · simp [Quantity.orientPythagoras, hab, hab.ne, hab.ne', hab.asymm]
    · rfl
    · simp [Quantity.orientPythagoras, hab, hab.ne, hab.ne', hab.asymm]
  ratio_swap_left a b {c d} hcd := by
    by_cases hab : a = b
    · rw [hab, hν.ratio_eq_zero hcd, neg_zero]
    · rw [hν.ratio_eq hab hcd, hν.ratio_eq (Ne.symm hab) hcd]
      rw [Quantity.orientRatio_swap_left hab, Oriented.valueAt, neg_mul]
      rfl
  ratio_swap_right a b {c d} hcd := by
    by_cases hab : a = b
    · rw [hab, hν.ratio_eq_zero hcd, hν.ratio_eq_zero (Ne.symm hcd), neg_zero]
    · rw [hν.ratio_eq hab hcd, hν.ratio_eq hab (Ne.symm hcd)]
      rw [Quantity.orientRatio_swap_right hcd, Oriented.valueAt, neg_mul]
      rfl
  ratio_self hab := hν.ratio_eq_one hab

end RespectsOrientation

namespace RespectsSymmetry

variable (hν : RespectsSymmetry ν)

include hν

theorem area_eq_zero (h : ¬[a, b, c].Nodup) : ν (.area a b c) = 0 := by
  have hsame : a = b ∨ a = c ∨ b = c := by
    by_contra hne
    push Not at hne
    exact h (by simpa [and_assoc] using hne)
  have hlast (s t : Label) : ν (.area s t t) = 0 := eq_zero_of_neg_eq (hν.area_swap s t t).symm
  rcases hsame with rfl | rfl | rfl
  · rw [hν.area_rotate, hlast]
  · rw [hν.area_rotate, hν.area_rotate, hlast]
  · exact hlast a b

theorem ratio_eq_zero (hcd : c ≠ d) : ν (.ratio a a c d) = 0 :=
  eq_zero_of_neg_eq (hν.ratio_swap_left a a hcd).symm

theorem ratio_eq (hab : a ≠ b) (hcd : c ≠ d) :
    ν (.ratio a b c d) = (Quantity.orientRatio a b c d).valueAt ν := by
  have hself {s t u v : Label} (h : (s, t) = (u, v)) (hne : s ≠ t) : ν (.ratio s t u v) = 1 := by
    cases h
    exact hν.ratio_self hne
  have hleft := hν.ratio_swap_left b a hcd
  have hright := hν.ratio_swap_right a b hcd.symm
  have hboth := hν.ratio_swap_right b a hcd.symm
  unfold Quantity.orientRatio Oriented.valueAt
  by_cases hba : b < a <;> by_cases hdc : d < c <;> simp only [hba, hdc, if_true, if_false] <;>
    split_ifs with hsame <;> simp only [Option.elim_some, Option.elim_none]
  · linarith [hself hsame hab.symm]
  · linarith
  · linarith [hself hsame hab.symm]
  · linarith
  · linarith [hself hsame hab]
  · linarith
  · linarith [hself hsame hab]
  · linarith

/-- Values with the symmetries of quantities respect every orientation. -/
theorem respectsOrientation : RespectsOrientation ν := by
  intro q o h
  cases q with
  | area a b c =>
      cases h
      by_cases hnodup : [a, b, c].Nodup
      · obtain ⟨x, y, z, hxy, hyz, horder⟩ := Quantity.exists_lt_of_nodup hnodup
        have := Quantity.orientArea_of_lt hxy hyz
        rcases horder with h | h | h | h | h | h <;> cases h <;>
          simp only [this, Oriented.valueAt, Option.elim_some, neg_mul, one_mul]
        · exact hν.area_rotate _ _ _
        · exact (hν.area_rotate _ _ _).symm
        · exact hν.area_swap _ _ _
        · rw [hν.area_rotate, hν.area_rotate, hν.area_swap]
        · rw [hν.area_rotate, hν.area_swap]
      · rw [Quantity.orientArea_of_not_nodup hnodup, hν.area_eq_zero hnodup]
        exact (zero_mul _).symm
  | pythagoras a b c =>
      cases h
      unfold Quantity.orientPythagoras Oriented.valueAt
      split_ifs with hzero hsame hlt
      · rw [Bool.or_eq_true, decide_eq_true_iff, decide_eq_true_iff] at hzero
        refine Eq.trans ?_ (zero_mul _).symm
        rcases hzero with rfl | rfl
        · exact hν.pythagoras_end a c
        · rw [hν.pythagoras_swap, hν.pythagoras_end]
      · rw [Bool.and_eq_true, decide_eq_true_iff] at hsame
        obtain rfl := hsame.1
        exact (hν.pythagoras_segment b a).trans (one_mul _).symm
      · exact (hν.pythagoras_swap c b a).trans (one_mul _).symm
      · exact (one_mul _).symm
  | ratio a b c d =>
      unfold Quantity.orient at h
      dsimp only at h
      split_ifs at h with hcd hab <;> cases h
      · rw [hab, hν.ratio_eq_zero hcd]
        exact (zero_mul _).symm
      · exact hν.ratio_eq hab hcd

end RespectsSymmetry

/-- Values under other names respect orientation, too. -/
theorem RespectsOrientation.relabel (hν : RespectsOrientation ν) (hf : f.Injective) :
    RespectsOrientation fun q => ν (q.relabel f) :=
  have hν := hν.respectsSymmetry
  RespectsSymmetry.respectsOrientation
    { area_rotate := fun _ _ _ => hν.area_rotate _ _ _
      area_swap := fun _ _ _ => hν.area_swap _ _ _
      pythagoras_swap := fun _ _ _ => hν.pythagoras_swap _ _ _
      pythagoras_end := fun _ _ => hν.pythagoras_end _ _
      pythagoras_segment := fun _ _ => hν.pythagoras_segment _ _
      ratio_swap_left := fun _ _ _ _ h => hν.ratio_swap_left _ _ (hf.ne h)
      ratio_swap_right := fun _ _ _ _ h => hν.ratio_swap_right _ _ (hf.ne h)
      ratio_self := fun h => hν.ratio_self (hf.ne h) }

namespace Quantity

/-! ### Canonical ratios -/

/-- The two segments of a ratio that is not a number. -/
def segments (a b c d : Label) : Option (Sym2 Label × Sym2 Label) :=
  if a = b ∨ s(a, b) = s(c, d) then none else some (s(a, b), s(c, d))

/-- The ratio of two segments, the ends of each in ascending order. -/
def ofSegments (e : Sym2 Label × Sym2 Label) : Quantity :=
  .ratio e.1.inf e.1.sup e.2.inf e.2.sup

theorem ofSegments_injective : Function.Injective ofSegments := by
  intro e e' h
  obtain ⟨hinf, hsup, hinf', hsup'⟩ := Quantity.ratio.inj h
  exact Prod.ext (Sym2.inf_eq_inf_and_sup_eq_sup.1 ⟨hinf, hsup⟩)
    (Sym2.inf_eq_inf_and_sup_eq_sup.1 ⟨hinf', hsup'⟩)

theorem ends_eq (a b : Label) :
    (if b < a then (b, a) else (a, b)) = (s(a, b).inf, s(a, b).sup) := by
  rw [Sym2.inf_mk, Sym2.sup_mk]
  split
  next h => rw [inf_eq_right.2 h.le, sup_eq_left.2 h.le]
  next h => rw [inf_eq_left.2 (not_lt.1 h), sup_eq_right.2 (not_lt.1 h)]

/-- The canonical quantity of a ratio depends on its segments only. -/
theorem quantity_orient_ratio (h : orient (.ratio a b c d) = .ok o) :
    o.quantity = (segments a b c d).map ofSegments := by
  unfold orient segments at *
  dsimp only at h
  split_ifs at h with hcd hab <;> cases h
  · rw [if_pos (.inl hab)]
    rfl
  · have hsame : (s(a, b).inf, s(a, b).sup) = (s(c, d).inf, s(c, d).sup) ↔ s(a, b) = s(c, d) :=
      Prod.mk.injEq .. ▸ Sym2.inf_eq_inf_and_sup_eq_sup
    simp only [orientRatio, ends_eq, hsame, hab, false_or]
    split <;> rfl

theorem segments_relabel (hf : f.Injective) (a b c d : Label) :
    segments (f a) (f b) (f c) (f d) =
      (segments a b c d).map (Prod.map (Sym2.map f) (Sym2.map f)) := by
  have hsame : s(f a, f b) = s(f c, f d) ↔ s(a, b) = s(c, d) :=
    (Sym2.map.injective hf).eq_iff (a := s(a, b)) (b := s(c, d))
  unfold segments
  simp only [hf.eq_iff, hsame]
  split <;> rfl

/-- Which ratios have the same canonical quantity does not depend on the names. -/
theorem quantity_orient_relabel (hf : f.Injective) {a' b' c' d' : Label} {o₁ o₂ o₁' o₂' : Oriented}
    (h₁ : orient (.ratio a b c d) = .ok o₁) (h₂ : orient (.ratio a' b' c' d') = .ok o₂)
    (h₁' : orient (.ratio (f a) (f b) (f c) (f d)) = .ok o₁')
    (h₂' : orient (.ratio (f a') (f b') (f c') (f d')) = .ok o₂') :
    o₁'.quantity = o₂'.quantity ↔ o₁.quantity = o₂.quantity := by
  rw [quantity_orient_ratio h₁, quantity_orient_ratio h₂, quantity_orient_ratio h₁',
    quantity_orient_ratio h₂', segments_relabel hf, segments_relabel hf,
    (Option.map_injective ofSegments_injective).eq_iff,
    (Option.map_injective ofSegments_injective).eq_iff,
    (Option.map_injective ((Sym2.map.injective hf).prodMap (Sym2.map.injective hf))).eq_iff]

end Quantity

end Planimetry.Area
