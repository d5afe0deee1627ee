import Planimetry.Proofs.Figure.Placing

/-! Lines as pairs of places that span them, and placements that meet the conditions of a figure: points
constructed on a line lie on it. -/

namespace Planimetry

namespace Construction

/-- The line on which a random point is taken. -/
def randomLine? : Construction → Option Label
  | .point (.onLine l) => some l
  | _ => none

/-- The line to which another one is parallel or perpendicular. -/
def base? : Construction → Option Label
  | .set (.parallel _ l) | .set (.perpendicular _ l) => some l
  | _ => none

end Construction

namespace Step

variable {s : Step}

theorem founders_of_lineThrough {a b : Label} (h : s.construction = .set (.lineThrough a b)) :
    s.founders = [a, b] := by
  unfold founders kind argument
  rw [h]
  simp [Construction.kind, Kind.spec, Kind.points, Construction.argument, Kind.roleNames,
    Construction.arguments, List.lookup]

theorem founders_of_directed {through line : Label}
    (h : s.construction = .set (.parallel through line) ∨
      s.construction = .set (.perpendicular through line)) : s.founders = [through] := by
  unfold founders kind argument
  rcases h with h | h <;> rw [h] <;> rfl

theorem sets_of_intersection {l m : Label} (h : s.construction = .point (.intersection l m)) :
    s.sets = [l, m] := by
  unfold sets kind argument
  rw [h]
  simp [Construction.kind, Kind.spec, Construction.argument, Kind.roleNames, Construction.arguments,
    List.lookup]

end Step

namespace Protocol

/-- Two places that span a line: those of the points through which it runs, or that of its point and
the end of a vector from there, which is that of the line to which it is parallel or perpendicular. -/
def lineEnds (p : Protocol) (place : Label → ℚ × ℚ) : ℕ → Label → Option ((ℚ × ℚ) × (ℚ × ℚ))
  | 0, _ => none
  | depth + 1, l =>
    match (p.get? l).map Step.construction with
    | some (.set (.lineThrough a b)) => some (place a, place b)
    | some (.set (.parallel through line)) =>
      (lineEnds p place depth line).map fun e => (place through, place through + (e.2 - e.1))
    | some (.set (.perpendicular through line)) =>
      (lineEnds p place depth line).map fun e => (place through, place through + turned (e.2 - e.1))
    | _ => none

/-- A placement fits a figure: it meets all conditions of the points, and each random point divides the
segment between the places that span its line in its ratio. -/
structure FitsAt (p : Protocol) (place : Label → ℚ × ℚ) (ratios : Label → ℚ) : Prop where
  conditions : ∀ s ∈ p.steps, ∀ ways ∈ (p.alternatives s).toOption, ∀ way ∈ ways, ∀ c ∈ way,
    c.HoldsAt place
  random : ∀ s ∈ p.steps, ∀ l ∈ s.construction.randomLine?, ∀ e ∈ p.lineEnds place p.size l,
    place s.label = e.1 + ratios s.label • (e.2 - e.1)

/-- A placement fits a figure, and each line that two different places span and to which another one is
parallel or perpendicular has points at two places known by then. -/
structure MeetsAt (p : Protocol) (place : Label → ℚ × ℚ) (ratios : Label → ℚ) : Prop
    extends p.FitsAt place ratios where
  directed : ∀ s ∈ p.steps, ∀ line ∈ s.construction.base?, ∀ base ∈ p.get? line,
    ∀ e ∈ p.lineEnds place p.size line, e.1 ≠ e.2 →
      ∃ ab ∈ pairs (p.knownMembers base s.index), place ab.1 ≠ place ab.2

variable {p : Protocol} {place : Label → ℚ × ℚ} {ratios : Label → ℚ} {s t : Step} {l : Label}
  {n : ℕ} {u v : ℚ × ℚ}

section Ends

variable {a b through line : Label} {e : (ℚ × ℚ) × (ℚ × ℚ)} (hs : p.get? l = some s)

include hs

theorem lineEnds_of_lineThrough (h : s.construction = .set (.lineThrough a b)) :
    p.lineEnds place (n + 1) l = some (place a, place b) := by
  unfold lineEnds
  rw [hs, Option.map_some, h]

theorem lineEnds_of_parallel (h : s.construction = .set (.parallel through line))
    (he : p.lineEnds place n line = some e) :
    p.lineEnds place (n + 1) l = some (place through, place through + (e.2 - e.1)) := by
  unfold lineEnds
  rw [hs, Option.map_some, h]
  dsimp only
  rw [he, Option.map_some]

theorem lineEnds_of_perpendicular (h : s.construction = .set (.perpendicular through line))
    (he : p.lineEnds place n line = some e) :
    p.lineEnds place (n + 1) l = some (place through, place through + turned (e.2 - e.1)) := by
  unfold lineEnds
  rw [hs, Option.map_some, h]
  dsimp only
  rw [he, Option.map_some]

end Ends

theorem lineEnds_succ {e : (ℚ × ℚ) × (ℚ × ℚ)} (h : p.lineEnds place n l = some e) :
    p.lineEnds place (n + 1) l = some e := by
  induction n generalizing l e with
  | zero => cases h
  | succ n ih =>
      unfold lineEnds at h ⊢
      split at h
      next => exact h
      next =>
        obtain ⟨e', he', rfl⟩ := Option.map_eq_some_iff.1 h
        rw [ih he']
        rfl
      next =>
        obtain ⟨e', he', rfl⟩ := Option.map_eq_some_iff.1 h
        rw [ih he']
        rfl
      next => cases h

/-- Further levels do not change the places that span a line. -/
theorem lineEnds_mono {m : ℕ} {e : (ℚ × ℚ) × (ℚ × ℚ)} (hnm : n ≤ m) (h : p.lineEnds place n l = some e) :
    p.lineEnds place m l = some e := by
  induction hnm with
  | refl => exact h
  | step _ ih => exact lineEnds_succ ih

theorem mem_pairs_of_sublist {α : Type} {a b : α} {xs : List α} (h : [a, b].Sublist xs) :
    (a, b) ∈ pairs xs := by
  induction xs with
  | nil => cases h
  | cons x xs ih =>
      cases h with
      | cons _ h => exact List.mem_append_right _ (ih h)
      | cons_cons _ h =>
          exact List.mem_append_left _ (List.mem_map_of_mem (List.singleton_sublist.1 h))

/-- A point on a line or circle is a random one, or an intersection point. -/
theorem construction_of_mem_sets (h : l ∈ t.sets) :
    t.construction = .point (.onLine l) ∨ t.construction = .point (.onCircle l) ∨
      ∃ m, t.construction = .point (.intersection l m) ∨
        t.construction = .point (.intersection m l) := by
  unfold Step.sets Step.argument Step.kind at h
  cases hconstruction : t.construction with
  | set locus =>
      rw [hconstruction] at h
      cases locus <;> cases h
  | statement relation =>
      rw [hconstruction] at h
      cases relation <;> cases h
  | point rule =>
      rw [hconstruction] at h
      cases rule with
      | onLine m => exact .inl (List.mem_singleton.1 h ▸ rfl)
      | onCircle m => exact .inr (.inl (List.mem_singleton.1 h ▸ rfl))
      | intersection first second =>
          have hlabel : l = first ∨ l = second := by
            simpa [Construction.kind, Kind.spec, Construction.argument, Kind.roleNames,
              Construction.arguments, List.lookup] using h
          rcases hlabel with rfl | rfl
          · exact .inr (.inr ⟨second, .inl rfl⟩)
          · exact .inr (.inr ⟨first, .inr rfl⟩)
      | _ => cases h

theorem mem_arguments_of_mem_sets (h : l ∈ t.sets) : l ∈ t.construction.arguments := by
  rcases construction_of_mem_sets h with h | h | ⟨m, h | h⟩ <;> rw [h] <;>
    simp [Construction.arguments]

/-- A point is constructed on earlier lines and circles. -/
theorem Ordered.index_lt_of_mem_sets (hp : p.Ordered) (hs : s ∈ p.steps) (ht : t ∈ p.steps)
    (h : s.label ∈ t.sets) : s.index < t.index := by
  obtain ⟨u, hu, hlabel, hlt⟩ := hp.arguments t ht _ (mem_arguments_of_mem_sets h)
  rwa [hp.eq_of_label hu hs hlabel] at hlt

/-- The ways to place a point on a line or circle combine its conditions there with others. -/
theorem exists_way (hp : Appended p) (ht : t ∈ p.steps) (hl : l ∈ t.sets) {cs : List Condition}
    (hcs : p.conditionsOn l t.label t.index = .ok cs) {c : Condition} (hc : c ∈ cs) :
    ∃ ways, p.alternatives t = .ok ways ∧ ∃ way ∈ ways, c ∈ way := by
  have hother (role m : Label) (hrole : ((role, Expectation.set), m) ∈
      t.kind.spec.roles.zip t.construction.arguments) :
      ∃ ds d, p.conditionsOn m t.label t.index = .ok ds ∧ d ∈ ds := by
    obtain ⟨ds, hds, hne, -⟩ :=
      exists_conditionsOn hp.ordered hp.furnished hp.accepted ht (fun c hc => hc) hrole
    obtain ⟨d, hd⟩ := List.exists_mem_of_ne_nil ds hne
    exact ⟨ds, d, hds, hd⟩
  unfold alternatives
  unfold Step.kind at hother
  rcases construction_of_mem_sets hl with h | h | ⟨m, h | h⟩
  · refine ⟨cs.map fun c => [c], ?_, [c], List.mem_map_of_mem hc, List.mem_cons_self⟩
    simp only [h, pointAlternatives, hcs, bind, Except.bind, pure, Except.pure]
  · refine ⟨cs.map fun c => [c], ?_, [c], List.mem_map_of_mem hc, List.mem_cons_self⟩
    simp only [h, pointAlternatives, hcs, bind, Except.bind, pure, Except.pure]
  · obtain ⟨ds, d, hds, hd⟩ := hother "second" m (by
      rw [h]
      exact List.mem_cons_of_mem _ List.mem_cons_self)
    refine ⟨cs.flatMap fun c => ds.map fun d => [c, d], ?_, [c, d],
      List.mem_flatMap.2 ⟨c, hc, List.mem_map_of_mem hd⟩, List.mem_cons_self⟩
    simp only [h, pointAlternatives, hcs, hds, bind, Except.bind, pure, Except.pure]
  · obtain ⟨ds, d, hds, hd⟩ := hother "first" m (by
      rw [h]
      exact List.mem_cons_self)
    refine ⟨ds.flatMap fun d => cs.map fun c => [d, c], ?_, [d, c],
      List.mem_flatMap.2 ⟨d, hd, List.mem_map_of_mem hc⟩,
      List.mem_cons_of_mem _ List.mem_cons_self⟩
    simp only [h, pointAlternatives, hcs, hds, bind, Except.bind, pure, Except.pure]

/-- The points with which a line is taken lie on it. -/
theorem cross_eq_zero_of_mem_founders (hp : p.Ordered) (hs : s ∈ p.steps)
    (hends : p.lineEnds place n s.label = some (u, v)) (hl : l ∈ s.founders) :
    cross (place l - u) (v - u) = 0 := by
  cases n with
  | zero => cases hends
  | succ n =>
      have hself (x : ℚ × ℚ) : cross (x - x) (v - u) = 0 := by simp [cross]
      unfold lineEnds at hends
      rw [hp.get?_eq hs, Option.map_some] at hends
      split at hends
      next a b h =>
        cases hends
        rw [Step.founders_of_lineThrough (Option.some.inj h), List.mem_pair] at hl
        rcases hl with rfl | rfl
        · exact hself _
        · unfold cross
          ring
      next through line h =>
        obtain ⟨e, -, heq⟩ := Option.map_eq_some_iff.1 hends
        obtain ⟨rfl, -⟩ := Prod.mk.inj heq
        rw [Step.founders_of_directed (.inl (Option.some.inj h)), List.mem_singleton] at hl
        rw [hl]
        exact hself _
      next through line h =>
        obtain ⟨e, -, heq⟩ := Option.map_eq_some_iff.1 hends
        obtain ⟨rfl, -⟩ := Prod.mk.inj heq
        rw [Step.founders_of_directed (.inr (Option.some.inj h)), List.mem_singleton] at hl
        rw [hl]
        exact hself _
      next => cases hends

namespace MeetsAt

variable (hp : Appended p) (h : p.MeetsAt place ratios)

include hp h

/-- The conditions that keep a point on a line hold. -/
theorem holdsAt_membership (hs : s ∈ p.steps) {locus : Locus} (hlocus : s.construction = .set locus)
    (ht : t ∈ p.steps) (hmem : s.label ∈ t.sets) {c : Condition}
    (hc : c ∈ p.membership s locus t.label t.index) : c.HoldsAt place := by
  have hcs : p.conditionsOn s.label t.label t.index = .ok (p.membership s locus t.label t.index) := by
    unfold conditionsOn
    simp only [hp.ordered.get?_eq hs, hlocus]
  obtain ⟨ways, hways, way, hway, hc⟩ := exists_way hp ht hmem hcs hc
  exact h.conditions t ht ways (by rw [hways]; rfl) way hway c hc

/-- A line that two different places span and to which another one is parallel or perpendicular has its
direction from two of its points, to which all points of the other one are referred. -/
theorem exists_direction {through line : Label} {locus : Locus} {template : Template}
    {e : (ℚ × ℚ) × (ℚ × ℚ)} (hs : s ∈ p.steps) (hlocus : s.construction = .set locus)
    (hbase : (Construction.set locus).base? = some line) (hthrough : s.founders = [through])
    (hends : p.lineEnds place p.size line = some e) (hspan : e.1 ≠ e.2)
    (hmembership : ∀ l before, p.membership s locus l before = match p.get? line with
      | none => []
      | some base => (p.knownMembers s before).flatMap fun q =>
        (pairs (p.knownMembers base s.index)).map fun ab =>
          ⟨template, [(Template.own, l), ("P", q), ("A", ab.1), ("B", ab.2)]⟩) :
    ∃ base ∈ p.steps, base.label = line ∧ ∃ a ∈ base.members, ∃ b ∈ base.members,
      place b - place a ≠ 0 ∧ ∀ t ∈ p.steps, s.label ∈ t.sets → Condition.HoldsAt place
        ⟨template, [(Template.own, t.label), ("P", through), ("A", a), ("B", b)]⟩ := by
  obtain ⟨b, hb, hlabel, -⟩ : ∃ b ∈ p.steps, b.label = line ∧ b.index < s.index := by
    refine hp.ordered.arguments s hs line ?_
    rw [hlocus]
    cases locus <;> cases hbase <;> simp [Construction.arguments]
  have hget : p.get? line = some b := hlabel ▸ hp.ordered.get?_eq hb
  obtain ⟨⟨x, y⟩, hxy, hne⟩ := h.directed s hs line (hlocus ▸ hbase) b hget e hends hspan
  obtain ⟨hx, hy⟩ := mem_pairs hxy
  refine ⟨b, hb, hlabel, x, (mem_knownMembers hx).1, y, (mem_knownMembers hy).1,
    sub_ne_zero.2 hne.symm, fun t ht hmem => h.holdsAt_membership hp hs hlocus ht hmem ?_⟩
  have hknown := hp.furnished.founders_sublist hp.ordered hs
    (hp.ordered.index_lt_of_mem_sets hs ht hmem).le
  rw [hthrough, List.singleton_sublist] at hknown
  rw [hmembership, hget]
  exact List.mem_flatMap.2 ⟨through, hknown, List.mem_map_of_mem hxy⟩

/-- Points constructed on a line that two places span lie on it. -/
theorem cross_eq_zero (hs : s ∈ p.steps) (hn : n ≤ p.size)
    (hends : p.lineEnds place n s.label = some (u, v)) (ht : t ∈ p.steps) (hmem : s.label ∈ t.sets) :
    cross (place t.label - u) (v - u) = 0 := by
  induction n generalizing s t u v with
  | zero => cases hends
  | succ n ih =>
      have hmembers {b : Step} (hb : b ∈ p.steps) {e : (ℚ × ℚ) × (ℚ × ℚ)}
          (he : p.lineEnds place n b.label = some e) :
          ∀ x ∈ b.members, cross (place x - e.1) (e.2 - e.1) = 0 := by
        intro x hx
        rcases hp.isJoined b hb x hx with hx | ⟨w, hw, rfl, hbw⟩
        · exact cross_eq_zero_of_mem_founders hp.ordered hb he hx
        · exact ih hb (Nat.le_of_succ_le hn) he hw hbw
      have hdirection {b : Step} (hb : b ∈ p.steps) {e : (ℚ × ℚ) × (ℚ × ℚ)}
          (he : p.lineEnds place n b.label = some e) {x y : Label} (hx : x ∈ b.members)
          (hy : y ∈ b.members) : cross (place y - place x) (e.2 - e.1) = 0 := by
        have hx := hmembers hb he x hx
        have hy := hmembers hb he y hy
        simp only [cross, Prod.fst_sub, Prod.snd_sub] at hx hy ⊢
        linear_combination hy - hx
      unfold lineEnds at hends
      rw [hp.ordered.get?_eq hs, Option.map_some] at hends
      split at hends
      next a b hlocus =>
        have hlocus := Option.some.inj hlocus
        cases hends
        have hknown := hp.furnished.founders_sublist hp.ordered hs
          (hp.ordered.index_lt_of_mem_sets hs ht hmem).le
        rw [Step.founders_of_lineThrough hlocus] at hknown
        have hcondition := (Condition.holdsAt_collinear _ _ _).1 (h.holdsAt_membership hp hs hlocus ht
          hmem (List.mem_map_of_mem (mem_pairs_of_sublist hknown)))
        simp only [cross, Prod.fst_sub, Prod.snd_sub] at hcondition ⊢
        linear_combination -hcondition
      next through line hlocus =>
        have hlocus := Option.some.inj hlocus
        obtain ⟨e, he, heq⟩ := Option.map_eq_some_iff.1 hends
        obtain ⟨rfl, rfl⟩ := Prod.mk.inj heq
        rw [add_sub_cancel_left]
        by_cases hspan : e.1 = e.2
        · rw [hspan, sub_self]
          exact cross_zero _
        obtain ⟨b, hb, rfl, x, hx, y, hy, hne, hholds⟩ := h.exists_direction hp hs hlocus rfl
          (Step.founders_of_directed (.inl hlocus)) (lineEnds_mono (Nat.le_of_succ_le hn) he) hspan
          fun _ _ => rfl
        exact cross_eq_zero_trans hne ((Condition.holdsAt_parallel _ _ _ _).1 (hholds t ht hmem))
          (hdirection hb he hx hy)
      next through line hlocus =>
        have hlocus := Option.some.inj hlocus
        obtain ⟨e, he, heq⟩ := Option.map_eq_some_iff.1 hends
        obtain ⟨rfl, rfl⟩ := Prod.mk.inj heq
        rw [add_sub_cancel_left, cross_turned]
        by_cases hspan : e.1 = e.2
        · rw [hspan, sub_self]
          exact dot_zero _
        obtain ⟨b, hb, rfl, x, hx, y, hy, hne, hholds⟩ := h.exists_direction hp hs hlocus rfl
          (Step.founders_of_directed (.inr hlocus)) (lineEnds_mono (Nat.le_of_succ_le hn) he) hspan
          fun _ _ => rfl
        exact dot_eq_zero_of_cross hne
          ((Condition.holdsAt_perpendicular _ _ _ _).1 (hholds t ht hmem)) (hdirection hb he hx hy)
      next => cases hends

end MeetsAt

end Protocol
end Planimetry
