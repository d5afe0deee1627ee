import Planimetry.Figure.Condition
import Planimetry.Proofs.Figure.Protocol
import Planimetry.Proofs.Template

/-! Conditions: where they hold, and the shape of those by which a point is placed. -/

namespace Planimetry

namespace Condition

/-- The template of a condition vanishes where the labels of its roles have the given places. -/
def HoldsAt (place : Label → ℚ × ℚ) (c : Condition) : Prop :=
  c.template.value (fun r => (c.roles.lookup r).map place) = .ok 0

instance (place : Label → ℚ × ℚ) (c : Condition) : Decidable (c.HoldsAt place) :=
  inferInstanceAs (Decidable (_ = _))

/-- A condition with all roles played holds where its template has the value zero. -/
theorem holdsAt_iff {place : Label → ℚ × ℚ} {c : Condition} (hpure : c.template.IsPure)
    (hroles : ∀ r ∈ c.template.roles, r ∈ c.roles.map Prod.fst) :
    c.HoldsAt place ↔ c.template.valueAt
      (Template.located fun r => ((c.roles.lookup r).map place).getD 0) = 0 := by
  have hplayed : ∀ r ∈ c.template.roles, ((c.roles.lookup r).map place).isSome = true := by
    intro r hr
    obtain ⟨e, he, heq⟩ := List.mem_map.1 (hroles r hr)
    rw [Option.isSome_map, List.lookup_isSome_iff]
    exact ⟨e, he, beq_iff_eq.2 heq.symm⟩
  unfold HoldsAt
  rw [Template.value_eq_located hpure hplayed, Except.ok.injEq]

/-- A condition that places a point: its template keeps the coordinates of the point apart, and the point
plays no other role than its own. -/
structure Places (own : Label) (c : Condition) : Prop where
  isPure : c.template.IsPure
  isApart : c.template.IsApart
  own_role : ∀ e ∈ c.roles, e.2 = own → e.1 = Template.own

variable {own : Label} {t : Template} {roles : List (Label × Label)}

theorem own_role_cons (h : ∀ e ∈ roles, e.2 ≠ own) :
    ∀ e ∈ (Template.own, own) :: roles, e.2 = own → e.1 = Template.own :=
  List.forall_mem_cons.2 ⟨fun _ => rfl, fun e he heq => absurd heq (h e he)⟩

theorem places_of_mem (ht : t ∈ Template.placing) (h : ∀ e ∈ roles, e.2 ≠ own) :
    Places own ⟨t, (Template.own, own) :: roles⟩ :=
  ⟨Template.isPure_of_mem_placing t ht, Template.isApart_of_mem_placing t ht, own_role_cons h⟩

theorem places_both {ts : Template × Template} {alternative : Alternative}
    (hfst : ts.1 ∈ Template.placing) (hsnd : ts.2 ∈ Template.placing)
    (h : ∀ e ∈ roles, e.2 ≠ own) (ha : alternative ∈ both own roles ts) :
    alternative.length ≤ 2 ∧ ∀ c ∈ alternative, c.Places own := by
  unfold both at ha
  rw [List.mem_singleton.1 ha]
  refine ⟨le_rfl, List.forall_mem_cons.2 ⟨places_of_mem hfst h, ?_⟩⟩
  exact List.forall_mem_singleton.2 (places_of_mem hsnd h)

end Condition

theorem Relation.isPure_condition (r : Relation) : r.condition.template.IsPure := by
  apply Template.isPure_of_mem_stating
  cases r <;> simp [Relation.condition, Template.stating]

theorem mem_pairs {α : Type} {xs : List α} {a b : α} (h : (a, b) ∈ pairs xs) : a ∈ xs ∧ b ∈ xs := by
  induction xs with
  | nil => cases h
  | cons x xs ih =>
      rcases List.mem_append.1 h with h | h
      · obtain ⟨y, hy, heq⟩ := List.mem_map.1 h
        cases heq
        exact ⟨List.mem_cons_self, List.mem_cons_of_mem _ hy⟩
      · exact ⟨List.mem_cons_of_mem _ (ih h).1, List.mem_cons_of_mem _ (ih h).2⟩

theorem mem_triples {α : Type} {xs : List α} {a b c : α} (h : (a, b, c) ∈ triples xs) :
    a ∈ xs ∧ b ∈ xs ∧ c ∈ xs := by
  induction xs with
  | nil => cases h
  | cons x xs ih =>
      rcases List.mem_append.1 h with h | h
      · obtain ⟨y, hy, heq⟩ := List.mem_map.1 h
        cases heq
        obtain ⟨hb, hc⟩ := mem_pairs hy
        exact ⟨List.mem_cons_self, List.mem_cons_of_mem _ hb, List.mem_cons_of_mem _ hc⟩
      · obtain ⟨ha, hb, hc⟩ := ih h
        exact ⟨List.mem_cons_of_mem _ ha, List.mem_cons_of_mem _ hb, List.mem_cons_of_mem _ hc⟩

namespace Protocol

variable {p : Protocol} {set point : Step} {l : Label}

theorem mem_knownMembers {before : Int} (h : l ∈ p.knownMembers set before) :
    l ∈ set.members ∧ ∃ m ∈ p.steps, m.label = l ∧ m.index < before := by
  unfold knownMembers at h
  obtain ⟨hl, hknown⟩ := List.mem_filter.1 h
  refine ⟨hl, ?_⟩
  split at hknown
  next m hm =>
    obtain ⟨hmem, hlabel⟩ := mem_of_get? hm
    rw [Bool.and_eq_true, decide_eq_true_iff, decide_eq_true_iff] at hknown
    exact ⟨m, hmem, hlabel, hknown.2⟩
  next => cases hknown

/-- A step with a smaller index has another label. -/
theorem Ordered.ne_label (hp : p.Ordered) (hpoint : point ∈ p.steps)
    (h : ∃ m ∈ p.steps, m.label = l ∧ m.index < point.index) : l ≠ point.label := by
  obtain ⟨m, hm, rfl, hlt⟩ := h
  intro heq
  rw [hp.eq_of_label hm hpoint heq] at hlt
  exact absurd hlt (lt_irrefl _)

theorem Ordered.ne_of_known (hp : p.Ordered) (hpoint : point ∈ p.steps) {before : Int}
    (hbefore : before ≤ point.index) (h : l ∈ p.knownMembers set before) : l ≠ point.label := by
  obtain ⟨-, m, hm, hlabel, hlt⟩ := mem_knownMembers h
  exact hp.ne_label hpoint ⟨m, hm, hlabel, hlt.trans_le hbefore⟩

theorem Ordered.ne_of_argument (hp : p.Ordered) (hpoint : point ∈ p.steps) (hset : set ∈ p.steps)
    (hle : set.index ≤ point.index) (h : l ∈ set.construction.arguments) : l ≠ point.label := by
  obtain ⟨m, hm, hlabel, hlt⟩ := hp.arguments set hset l h
  exact hp.ne_label hpoint ⟨m, hm, hlabel, by omega⟩

/-- The conditions for a point on a line that is directed like another one place the point. -/
theorem places_directed {t : Template} {own : Label} (ht : t ∈ Template.placing) {known base : List Label}
    (hknown : ∀ l ∈ known, l ≠ own) (hbase : ∀ l ∈ base, l ≠ own) {c : Condition}
    (hc : c ∈ known.flatMap fun through => (pairs base).map fun ab =>
      ⟨t, [(Template.own, own), ("P", through), ("A", ab.1), ("B", ab.2)]⟩) : c.Places own := by
  obtain ⟨through, hthrough, hc⟩ := List.mem_flatMap.1 hc
  obtain ⟨⟨a, b⟩, hab, rfl⟩ := List.mem_map.1 hc
  obtain ⟨ha, hb⟩ := mem_pairs hab
  refine Condition.places_of_mem ht ?_
  simpa using ⟨hknown through hthrough, hbase a ha, hbase b hb⟩

/-- The conditions for a point on a line or circle place the point. -/
theorem places_of_mem_membership (hp : p.Ordered) (hpoint : point ∈ p.steps) (hset : set ∈ p.steps)
    (hlt : set.index < point.index) {locus : Locus} (hlocus : set.construction = .set locus)
    {c : Condition} (hc : c ∈ p.membership set locus point.label point.index) :
    c.Places point.label := by
  have hargument {l : Label} (hl : l ∈ (Construction.set locus).arguments) : l ≠ point.label :=
    hp.ne_of_argument hpoint hset hlt.le (hlocus ▸ hl)
  have hroles {roles : List (Label × Label)}
      (h : roles.map Prod.snd = (Construction.set locus).arguments) :
      ∀ e ∈ roles, e.2 ≠ point.label := fun e he => hargument (h ▸ List.mem_map_of_mem he)
  have hknown {l : Label} (hl : l ∈ p.knownMembers set point.index) : l ≠ point.label :=
    hp.ne_of_known hpoint le_rfl hl
  have hbase {base : Step} : ∀ l ∈ p.knownMembers base set.index, l ≠ point.label := fun _ hl =>
    hp.ne_of_known hpoint hlt.le hl
  cases locus with
  | lineThrough a b =>
      obtain ⟨⟨a, b⟩, hab, rfl⟩ := List.mem_map.1 hc
      obtain ⟨ha, hb⟩ := mem_pairs hab
      refine Condition.places_of_mem (by simp [Template.placing]) ?_
      simpa using ⟨hknown ha, hknown hb⟩
  | parallel through line =>
      dsimp only [membership] at hc
      split at hc
      next => cases hc
      next => exact places_directed (by simp [Template.placing]) (fun _ => hknown) hbase hc
  | perpendicular through line =>
      dsimp only [membership] at hc
      split at hc
      next => cases hc
      next => exact places_directed (by simp [Template.placing]) (fun _ => hknown) hbase hc
  | bisector a b =>
      rw [List.mem_singleton.1 hc]
      exact Condition.places_of_mem (by simp [Template.placing]) (hroles rfl)
  | angleRay a vertex a1 o1 b1 =>
      rw [List.mem_singleton.1 hc]
      exact ⟨Template.isPure_angleRay, Template.isApart_angleRay,
        Condition.own_role_cons (hroles rfl)⟩
  | angleRayToSixty a vertex a1 o1 b1 a2 o2 b2 angle =>
      rw [List.mem_singleton.1 hc]
      exact ⟨Template.isPure_angleRayToSixty, Template.isApart_angleRayToSixty,
        Condition.own_role_cons (hroles rfl)⟩
  | circleThrough center through =>
      obtain ⟨through, hthrough, rfl⟩ := List.mem_map.1 hc
      refine Condition.places_of_mem (by simp [Template.placing]) ?_
      simpa using ⟨hargument (l := center) (by simp [Construction.arguments]), hknown hthrough⟩
  | circleWithDiameter a b =>
      rw [List.mem_singleton.1 hc]
      exact Condition.places_of_mem (by simp [Template.placing]) (hroles rfl)
  | circumscribed a b c =>
      obtain ⟨⟨a, b, c⟩, habc, rfl⟩ := List.mem_map.1 hc
      obtain ⟨ha, hb, hc⟩ := mem_triples habc
      refine Condition.places_of_mem (by simp [Template.placing]) ?_
      simpa using ⟨hknown ha, hknown hb, hknown hc⟩

theorem places_of_mem_conditionsOn (hp : p.Ordered) (hpoint : point ∈ p.steps)
    (hl : l ∈ point.construction.arguments) {cs : List Condition}
    (h : p.conditionsOn l point.label point.index = .ok cs) : ∀ c ∈ cs, c.Places point.label := by
  unfold conditionsOn at h
  split at h
  next => cases h
  next set hset =>
    obtain ⟨hmem, hlabel⟩ := mem_of_get? hset
    split at h
    next locus hlocus =>
      cases h
      obtain ⟨t, ht, htl, hlt⟩ := hp.arguments point hpoint l hl
      have heq : t = set := hp.eq_of_label ht hmem (htl.trans hlabel.symm)
      subst heq
      exact fun c hc => places_of_mem_membership hp hpoint ht hlt hlocus hc
    next => cases h

/-- Each way to place a point has two conditions at most, which place the point. -/
theorem places_of_mem_alternatives (hp : p.Ordered) (hpoint : point ∈ p.steps) {rule : PointRule}
    (hrule : point.construction = .point rule) {ways : List Alternative}
    (h : p.alternatives point = .ok ways) {alternative : Alternative}
    (ha : alternative ∈ ways) :
    alternative.length ≤ 2 ∧ ∀ c ∈ alternative, c.Places point.label := by
  have hargument {l : Label} (hl : l ∈ (Construction.point rule).arguments) : l ≠ point.label :=
    hp.ne_of_argument hpoint hpoint le_rfl (hrule ▸ hl)
  have hon {l : Label} (hl : l ∈ (Construction.point rule).arguments) {cs : List Condition}
      (h : p.conditionsOn l point.label point.index = .ok cs) : ∀ c ∈ cs, c.Places point.label :=
    places_of_mem_conditionsOn hp hpoint (hrule ▸ hl) h
  have hsingle {l : Label} (hl : l ∈ (Construction.point rule).arguments)
      (h : (p.conditionsOn l point.label point.index).map (List.map fun c => [c]) =
        .ok ways) : alternative.length ≤ 2 ∧ ∀ c ∈ alternative, c.Places point.label := by
    cases hcs : p.conditionsOn l point.label point.index with
    | error e => simp [hcs, Except.map] at h
    | ok cs =>
        rw [hcs] at h
        cases h
        obtain ⟨c, hc, rfl⟩ := List.mem_map.1 ha
        exact ⟨by simp, List.forall_mem_singleton.2 (hon hl hcs c hc)⟩
  have hboth {roles : List (Label × Label)} {ts : Template × Template}
      (hfst : ts.1 ∈ Template.placing) (hsnd : ts.2 ∈ Template.placing)
      (hroles : roles.map Prod.snd = (Construction.point rule).arguments)
      (h : Condition.both point.label roles ts = ways) :
      alternative.length ≤ 2 ∧ ∀ c ∈ alternative, c.Places point.label :=
    Condition.places_both hfst hsnd
      (fun e he => hargument (hroles ▸ List.mem_map_of_mem he)) (h ▸ ha)
  rw [alternatives_of_point hrule] at h
  cases rule with
  | free =>
      cases h
      cases ha
  | midpoint _ _ | foot _ _ _ | shifted _ _ _ | rotated _ _ | symmetric _ _ | reflected _ _ _
  | circleCenter _ _ _ | angleOfSixty =>
      exact hboth (by simp [Template.placing]) (by simp [Template.placing]) rfl (Except.ok.inj h)
  | onLine l => exact hsingle (by simp [Construction.arguments]) h
  | onCircle c => exact hsingle (by simp [Construction.arguments]) h
  | intersection l m =>
      obtain ⟨first, hl, h⟩ := bind_eq_ok h
      obtain ⟨second, hm, h⟩ := bind_eq_ok h
      cases h
      obtain ⟨c, hc, ha⟩ := List.mem_flatMap.1 ha
      obtain ⟨d, hd, rfl⟩ := List.mem_map.1 ha
      refine ⟨le_rfl, List.forall_mem_cons.2 ⟨?_, List.forall_mem_singleton.2 ?_⟩⟩
      · exact hon (by simp [Construction.arguments]) hl c hc
      · exact hon (by simp [Construction.arguments]) hm d hd

end Protocol
end Planimetry
