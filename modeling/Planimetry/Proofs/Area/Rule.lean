import Planimetry.Proofs.Area.Placement

/-! Rules by which points are constructed: where they are defined, and what they depend on. -/

namespace Planimetry.Area

namespace Rule

variable {P : Label → Prop} {Q : Expr → Prop} {ν : Quantity → ℚ} {place : Label → ℚ × ℚ}
  {p : Label} {w : Expr} {ws weights : List (Label × Expr)}

theorem forall_addWeight (hadd : ∀ e f, Q e → Q f → Q (.add e f)) (hp : P p) (hw : Q w)
    (h : ∀ v ∈ ws, P v.1 ∧ Q v.2) : ∀ v ∈ addWeight p w ws, P v.1 ∧ Q v.2 := by
  induction ws with
  | nil => exact List.forall_mem_singleton.2 ⟨hp, hw⟩
  | cons v ws ih =>
      obtain ⟨hv, hrest⟩ := List.forall_mem_cons.1 h
      unfold addWeight
      split
      · exact List.forall_mem_cons.2 ⟨⟨hv.1, hadd _ _ hv.2 hw⟩, hrest⟩
      · exact List.forall_mem_cons.2 ⟨hv, ih hrest⟩

theorem weightedSum_addWeight (f : Label → ℚ) :
    weightedSum ν (addWeight p w ws) f = weightedSum ν ws f + w.valueAt ν * f p := by
  induction ws with
  | nil =>
      unfold addWeight
      rw [weightedSum_cons, add_comm]
  | cons v ws ih =>
      unfold addWeight
      split
      next heq =>
        rw [weightedSum_cons, weightedSum_cons, ← heq]
        simp only [Expr.valueAt]
        ring
      next =>
        rw [weightedSum_cons, weightedSum_cons, ih, add_assoc]

theorem forall_foldl_addWeight (hadd : ∀ e f, Q e → Q f → Q (.add e f))
    (hws : ∀ v ∈ ws, P v.1 ∧ Q v.2) (h : ∀ v ∈ weights, P v.1 ∧ Q v.2) :
    ∀ v ∈ weights.foldl (fun ws w => addWeight w.1 w.2 ws) ws, P v.1 ∧ Q v.2 := by
  induction weights generalizing ws with
  | nil => exact hws
  | cons v weights ih =>
      obtain ⟨hv, hrest⟩ := List.forall_mem_cons.1 h
      exact ih (forall_addWeight hadd hv.1 hv.2 hws) hrest

/-- Merging the weights of a point does not change weighted sums. -/
theorem weightedSum_foldl_addWeight (f : Label → ℚ) :
    weightedSum ν (weights.foldl (fun ws w => addWeight w.1 w.2 ws) ws) f =
      weightedSum ν ws f + weightedSum ν weights f := by
  induction weights generalizing ws with
  | nil => exact (add_zero _).symm
  | cons v weights ih =>
      rw [List.foldl_cons, ih, weightedSum_addWeight, weightedSum_cons, add_assoc]

theorem readsOnly_weighted (h : ∀ v ∈ weights, P v.1 ∧ v.2.ReadsOnly P) :
    (weighted weights).ReadsOnly P :=
  forall_foldl_addWeight (fun _ _ he hf => ⟨he, hf⟩) (List.forall_mem_nil _) h

theorem isDefined_weighted (h : ∀ v ∈ weights, v.2.IsDefined ν)
    (hsum : weightedSum ν weights (fun _ => 1) = 1) : (weighted weights).IsDefined ν := by
  have hweights := forall_foldl_addWeight (P := fun _ => True) (Q := fun e => e.IsDefined ν)
    (fun _ _ he hf => ⟨he, hf⟩) (List.forall_mem_nil _) fun v hv => ⟨trivial, h v hv⟩
  refine ⟨fun v hv => (hweights v hv).2, ?_⟩
  rw [weightedSum_foldl_addWeight, hsum]
  exact zero_add 1

/-- Numbers that add up to one make a rule. -/
theorem isDefined_of_numbers {r : Rule} (weights : List (Label × ℚ))
    (hrule : r = .weighted (weights.map fun w => (w.1, .number w.2)))
    (hsum : (weights.map Prod.snd).sum = 1) (ν : Quantity → ℚ) : r.IsDefined ν := by
  rw [hrule]
  refine isDefined_weighted (fun v hv => ?_) ?_
  · obtain ⟨w, hw, rfl⟩ := List.mem_map.1 hv
    trivial
  · unfold weightedSum
    rw [List.map_map]
    exact (congr_arg List.sum (List.map_congr_left fun w _ => mul_one w.2)).trans hsum

theorem isDefined_between {a b : Label} {e : Expr} (he : e.IsDefined ν) :
    (between a b e).IsDefined ν := by
  refine isDefined_weighted (by simp [Expr.IsDefined, Expr.one, he]) ?_
  simp only [weightedSum, List.map_cons, List.map_nil, List.sum_cons, List.sum_nil, Expr.valueAt,
    Expr.one]
  ring

/-- Parts of a whole that is not zero make a rule. -/
theorem isDefined_parts {a b : Label} {e f : Expr} (he : e.IsDefined ν) (hf : f.IsDefined ν)
    (hne : e.valueAt ν - f.valueAt ν ≠ 0) :
    (weighted [(b, .div e (.sub e f)), (a, .div (.neg f) (.sub e f))]).IsDefined ν := by
  refine isDefined_weighted ?_ ?_
  · simpa [Expr.IsDefined, Expr.valueAt, he, hf] using hne
  · simp only [weightedSum, List.map_cons, List.map_nil, List.sum_cons, List.sum_nil, Expr.valueAt]
    field_simp
    ring

theorem pointAt_weighted : (weighted weights).pointAt ν place =
    (weightedSum ν weights fun l => (place l).1, weightedSum ν weights fun l => (place l).2) := by
  unfold weighted pointAt
  dsimp only
  rw [weightedSum_foldl_addWeight, weightedSum_foldl_addWeight]
  exact congr_arg₂ Prod.mk (zero_add _) (zero_add _)

end Rule

namespace Definition

variable {known : Label → Prop} {d : Definition} {u v : Label}

/-- A definition without denominators and free ratio. -/
theorem isProper_of_plain (hdenominators : d.denominators = []) (hparameter : d.parameter = none)
    (hreads : d.rule.ReadsOnly known) (hdefined : ∀ ν, d.rule.IsDefined ν) : d.IsProper known where
  reads := ⟨hreads, hdenominators ▸ List.forall_mem_nil _⟩
  denominators := fun _ => hdenominators ▸ List.forall_mem_nil _
  isDefined := fun ν _ => hdefined ν
  parameter := by
    rw [hparameter]
    exact nofun

/-- A definition by numbers that add up to one. -/
theorem isProper_of_numbers (weights : List (Label × ℚ)) (hdenominators : d.denominators = [])
    (hparameter : d.parameter = none)
    (hrule : d.rule = .weighted (weights.map fun w => (w.1, .number w.2)))
    (hknown : ∀ w ∈ weights, known w.1) (hsum : (weights.map Prod.snd).sum = 1) :
    d.IsProper known := by
  refine isProper_of_plain hdenominators hparameter ?_ (Rule.isDefined_of_numbers weights hrule hsum)
  rw [hrule]
  refine Rule.readsOnly_weighted fun v hv => ?_
  obtain ⟨w, hw, rfl⟩ := List.mem_map.1 hv
  exact ⟨hknown w hw, trivial⟩

theorem isProper_of_turn {q : Label} (hdenominators : d.denominators = [])
    (hparameter : d.parameter = none) (hrule : d.rule = .turn q u v .one) (hq : known q)
    (hu : known u) (hv : known v) : d.IsProper known := by
  refine isProper_of_plain hdenominators hparameter ?_ fun ν => ?_ <;> rw [hrule]
  · exact ⟨hq, hu, hv, trivial⟩
  · exact trivial

theorem isProper_foot {own q a b : Label} {description : String} (hq : known q) (ha : known a)
    (hb : known b) :
    IsProper known
      { point := own, description
        rule := .between a b (.div (.atom (.pythagoras q a b)) (.atom (.pythagoras a b a)))
        denominators := [.atom (.pythagoras a b a)] } where
  reads := by
    refine ⟨Rule.readsOnly_weighted ?_, ?_⟩ <;>
      simp [ha, hb, hq, Expr.ReadsOnly, Expr.one, Quantity.ReadsOnly, Quantity.labels]
  denominators := fun _ => List.forall_mem_singleton.2 trivial
  isDefined := fun ν hne =>
    Rule.isDefined_between ⟨trivial, trivial, hne _ List.mem_cons_self⟩
  parameter := nofun

theorem isProper_intersection {own a b : Label} {description : String} (ha : known a) (hb : known b)
    (hu : known u) (hv : known v) :
    IsProper known
      { point := own, description
        rule := .weighted [
          (b, .div (.atom (.area a u v)) (.sub (.atom (.area a u v)) (.atom (.area b u v)))),
          (a, .div (.neg (.atom (.area b u v))) (.sub (.atom (.area a u v)) (.atom (.area b u v))))]
        denominators := [.sub (.atom (.area a u v)) (.atom (.area b u v))] } where
  reads := by
    refine ⟨Rule.readsOnly_weighted ?_, ?_⟩ <;>
      simp [ha, hb, hu, hv, Expr.ReadsOnly, Quantity.ReadsOnly, Quantity.labels]
  denominators := fun _ => List.forall_mem_singleton.2 ⟨trivial, trivial⟩
  isDefined := fun ν hne => Rule.isDefined_parts trivial trivial (hne _ List.mem_cons_self)
  parameter := nofun

theorem isProper_onLine {own : Label} {description : String} (hu : known u) (hv : known v)
    (huv : u ≠ v) (huo : u ≠ own) (hvo : v ≠ own) :
    IsProper known
      { point := own, description
        rule := .between u v (.atom (.ratio u own u v))
        parameter := some (.ratio u own u v) } where
  reads := by
    refine ⟨Rule.readsOnly_weighted ?_, List.forall_mem_nil _⟩
    simp [hu, hv, Expr.ReadsOnly, Expr.one, Quantity.ReadsOnly]
  denominators := fun _ => List.forall_mem_nil _
  isDefined := fun ν _ => Rule.isDefined_between trivial
  parameter := by
    intro q hq
    cases hq
    exact ⟨u, v, rfl, hu, huv, huo, hvo⟩

end Definition

end Planimetry.Area
