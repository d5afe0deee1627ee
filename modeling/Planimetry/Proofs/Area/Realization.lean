import Planimetry.Proofs.Area.Source

/-! Where definitions put the points, the conditions of the figure are met: the weights of a definition add
up to one, the points constructed on a line lie on it, and each constructed point satisfies its conditions. -/

namespace Planimetry

section Places

variable {x u w : ℚ × ℚ}

/-- A vector parallel to another one that is not zero is a multiple of it. -/
theorem exists_eq_smul_of_cross (hw : w ≠ 0) (h : cross x w = 0) : ∃ r : ℚ, x = r • w := by
  unfold cross at h
  rcases fst_ne_zero_or_snd_ne_zero hw with hw | hw
  · refine ⟨x.1 / w.1, Prod.ext ?_ ?_⟩
    · simp [hw]
    · rw [Prod.smul_snd, smul_eq_mul]
      field_simp
      linear_combination -h
  · refine ⟨x.2 / w.2, Prod.ext ?_ ?_⟩
    · rw [Prod.smul_fst, smul_eq_mul]
      field_simp
      linear_combination h
    · simp [hw]

theorem cross_smul_smul (r s : ℚ) : cross (r • w) (s • w) = 0 := by
  simp only [cross, Prod.smul_fst, Prod.smul_snd, smul_eq_mul]
  ring

theorem dot_smul_turned (r s : ℚ) : dot (r • turned w) (s • w) = 0 := by
  simp only [dot, turned, Prod.smul_mk, Prod.smul_fst, Prod.smul_snd, smul_eq_mul]
  ring

/-- A place on the line through two places, the first of which it is if they coincide. -/
def IsOnLine (u v x : ℚ × ℚ) : Prop := ∃ r : ℚ, x = u + r • (v - u)

variable {v y : ℚ × ℚ}

theorem isOnLine_left (u v : ℚ × ℚ) : IsOnLine u v u := ⟨0, by simp⟩

theorem isOnLine_right (u v : ℚ × ℚ) : IsOnLine u v v := ⟨1, by simp⟩

theorem isOnLine_of_cross (hne : v - u ≠ 0) (h : cross (x - u) (v - u) = 0) : IsOnLine u v x := by
  obtain ⟨r, hr⟩ := exists_eq_smul_of_cross hne h
  exact ⟨r, by rw [← hr, add_sub_cancel]⟩

/-- Places on a line differ by a multiple of the vector that spans it. -/
theorem IsOnLine.exists_sub (hx : IsOnLine u v x) (hy : IsOnLine u v y) :
    ∃ r : ℚ, x - y = r • (v - u) := by
  obtain ⟨r, rfl⟩ := hx
  obtain ⟨s, rfl⟩ := hy
  exact ⟨r - s, by module⟩

theorem IsOnLine.cross_eq_zero {z : ℚ × ℚ} (hx : IsOnLine u v x) (hy : IsOnLine u v y)
    (hz : IsOnLine u v z) : cross (y - x) (z - x) = 0 := by
  obtain ⟨r, hr⟩ := hy.exists_sub hx
  obtain ⟨s, hs⟩ := hz.exists_sub hx
  rw [hr, hs]
  exact cross_smul_smul r s

end Places

namespace Area

namespace Rule

variable {ν : Quantity → ℚ} {place : Label → ℚ × ℚ}

theorem known_of_between {P : Label → Prop} {a b : Label} {e : Expr}
    (h : (between a b e).ReadsOnly P) : P a ∧ P b := by
  unfold between weighted ReadsOnly at h
  by_cases hab : a = b
  · subst hab
    simp only [List.foldl_cons, List.foldl_nil, addWeight, if_pos, List.forall_mem_singleton] at h
    exact ⟨h.1, h.1⟩
  · simp only [List.foldl_cons, List.foldl_nil, addWeight, if_neg hab] at h
    exact ⟨(h _ List.mem_cons_self).1, (h _ (List.mem_cons_of_mem _ List.mem_cons_self)).1⟩

variable {p : Protocol} {own l m : Label} {r : Rule} {denominators : List Expr}
  {parameter : Option Quantity}

theorem Describes.of_onLine (h : Describes p own (.onLine l) r denominators parameter) :
    ∃ u v c, (Context.line p l c).1 = .ok (u, v) ∧ r = .between u v (.atom (.ratio u own u v)) := by
  cases h with
  | onLine hl => exact ⟨_, _, _, hl, rfl⟩

theorem Describes.of_intersection (h : Describes p own (.intersection l m) r denominators parameter) :
    ∃ u v a b c c', (Context.line p l c).1 = .ok (u, v) ∧ (Context.line p m c').1 = .ok (a, b) ∧
      r = .weighted [
        (b, .div (.atom (.area a u v)) (.sub (.atom (.area a u v)) (.atom (.area b u v)))),
        (a, .div (.neg (.atom (.area b u v))) (.sub (.atom (.area a u v)) (.atom (.area b u v))))] ∧
      denominators = [.sub (.atom (.area a u v)) (.atom (.area b u v))] := by
  cases h with
  | intersection hl hm => exact ⟨_, _, _, _, _, _, hl, hm, rfl, rfl⟩

end Rule

section Equations

variable {u v a b q : ℚ × ℚ}

/-- The common point of two lines, as the rule of an intersection point has it, lies on both. -/
theorem isOnLine_intersection (hne : signedArea a u v - signedArea b u v ≠ 0) {x : ℚ × ℚ}
    (hx : x = (signedArea a u v / (signedArea a u v - signedArea b u v)) • b +
      (-signedArea b u v / (signedArea a u v - signedArea b u v)) • a) :
    IsOnLine u v x ∧ IsOnLine a b x := by
  have hsum : -signedArea b u v / (signedArea a u v - signedArea b u v) =
      1 - signedArea a u v / (signedArea a u v - signedArea b u v) := by
    field_simp
    ring
  constructor
  · refine isOnLine_of_cross (fun hzero => hne ?_) ?_
    · rw [sub_eq_zero] at hzero
      subst hzero
      unfold signedArea
      ring
    · have harea (c : ℚ × ℚ) : cross (c - u) (v - u) = -2 * signedArea c u v := by
        unfold signedArea
        simp only [cross, Prod.fst_sub, Prod.snd_sub]
        ring
      have hcombination (s : ℚ) : cross (s • b + (1 - s) • a - u) (v - u) =
          s * cross (b - u) (v - u) + (1 - s) * cross (a - u) (v - u) := by
        simp only [cross, Prod.fst_sub, Prod.snd_sub, Prod.fst_add, Prod.snd_add, Prod.smul_fst,
          Prod.smul_snd, smul_eq_mul]
        ring
      rw [hx, hsum, hcombination, ← hsum, harea, harea]
      field_simp
      ring
  · refine ⟨signedArea a u v / (signedArea a u v - signedArea b u v), ?_⟩
    rw [hx, hsum]
    module

/-- The foot of a perpendicular, as its rule has it, lies on the line and below the point. -/
theorem cross_and_dot_foot (hne : pythagorasDifference a b a ≠ 0) {x : ℚ × ℚ}
    (hx : x = a + (pythagorasDifference q a b / pythagorasDifference a b a) • (b - a)) :
    cross (a - x) (b - x) = 0 ∧ dot (x - q) (b - a) = 0 := by
  constructor
  · exact (show IsOnLine a b x from ⟨_, hx⟩).cross_eq_zero (isOnLine_left a b) (isOnLine_right a b)
  · have hdot : pythagorasDifference a b a = 2 * dot (b - a) (b - a) := by
      unfold pythagorasDifference squareDistance
      simp only [dot, Prod.fst_sub, Prod.snd_sub]
      ring
    have hdot' : pythagorasDifference q a b = 2 * dot (q - a) (b - a) := by
      unfold pythagorasDifference squareDistance
      simp only [dot, Prod.fst_sub, Prod.snd_sub]
      ring
    have hcombination (s : ℚ) : dot (a + s • (b - a) - q) (b - a) =
        s * dot (b - a) (b - a) - dot (q - a) (b - a) := by
      simp only [dot, Prod.fst_sub, Prod.snd_sub, Prod.fst_add, Prod.snd_add, Prod.smul_fst,
        Prod.smul_snd, smul_eq_mul]
      ring
    rw [hdot] at hne
    rw [hx, hcombination, hdot', hdot, mul_div_mul_left _ _ two_ne_zero,
      div_mul_cancel₀ _ (right_ne_zero_of_mul hne), sub_self]

end Equations

namespace Context

/-- Definitions that hold at a placement where none of their denominators is zero. -/
structure Realizes (p : Protocol) (c : Context) (place : Label → ℚ × ℚ) (ratio : Quantity → ℚ) :
    Prop where
  covers : c.Covers p p.steps
  stems : c.StemsFrom p
  holds : ∀ d ∈ c.definitions, d.HoldsAt place ratio
  ne_zero : ∀ d ∈ c.definitions, ∀ e ∈ d.denominators, e.valueAt (Quantity.valueAt place ratio) ≠ 0

variable {p : Protocol} {c c' : Context} {place : Label → ℚ × ℚ} {ratio : Quantity → ℚ}
  {s t : Step} {d : Definition} {l u v : Label} {n : ℕ}

theorem second?_of_isSecondOf (hd : d.IsSecondOf p s) : second? s = some d.point := by
  obtain ⟨through, line, a, b, n, c, -, -, hpoint, hrule⟩ := hd.rule
  rw [hpoint]
  exact second?_of_directed (hrule.imp And.left And.left)

theorem HasLabels.isSeparated (hlabels : HasLabels p) (hp : Appended p) : IsSeparated p where
  ordered := hp.ordered
  accepted := hp.accepted
  labels := fun _ hs h => (List.nodup_append.1 hlabels).2.2 _ (List.mem_map_of_mem hs) _ h rfl

namespace Realizes

variable (h : c.Realizes p place ratio) (hp : Appended p) (hlabels : HasLabels p)

include h hp hlabels

/-- A constructed point has the definition that its rule makes, and stands where it puts the point. -/
theorem exists_definition (hs : s ∈ p.steps) {rule : PointRule} (hrule : s.construction = .point rule)
    (hfree : rule ≠ .free) : ∃ d ∈ c.definitions, d.point = s.label ∧
      Rule.Describes p s.label rule d.rule d.denominators d.parameter := by
  rcases h.covers.points s hs (Transformation.isPoint_iff.2 ⟨rule, hrule⟩) with hknown | hknown
  · obtain ⟨t, ht, hlabel, hconstruction⟩ := (h.covers.free _).1 hknown
    rw [hp.ordered.eq_of_label ht hs hlabel, hrule] at hconstruction
    exact absurd (Construction.point.inj hconstruction) hfree
  · obtain ⟨d, hd, hpoint⟩ := List.mem_map.1 hknown
    refine ⟨d, hd, hpoint, ?_⟩
    obtain ⟨t, ht, hof | hsecond⟩ := h.stems.definitions d hd
    · obtain rfl := hp.ordered.eq_of_label ht hs (hof.point.symm.trans hpoint)
      obtain ⟨rule', hrule', hdescribes⟩ := hof.rule
      obtain rfl := Construction.point.inj (hrule'.symm.trans hrule)
      exact hdescribes
    · refine absurd hpoint.symm ?_
      exact (List.nodup_append.1 hlabels).2.2 _ (List.mem_map_of_mem hs) _
        (mem_secondLabels_iff.2 ⟨t, ht, second?_of_isSecondOf hsecond⟩)

omit hp in
/-- The second point of a line, where it is known, is defined for that line. -/
theorem exists_second (hs : s ∈ p.steps) (hl : second? s = some l) (hknown : c.Knows l) :
    ∃ d ∈ c.definitions, d.point = l ∧ d.IsSecondOf p s := by
  have hne {t : Step} (ht : t ∈ p.steps) : t.label ≠ l :=
    (List.nodup_append.1 hlabels).2.2 _ (List.mem_map_of_mem ht) _ (mem_secondLabels_iff.2 ⟨s, hs, hl⟩)
  rcases hknown with hknown | hknown
  · obtain ⟨t, ht, hlabel, -⟩ := (h.covers.free l).1 hknown
    exact absurd hlabel (hne ht)
  · obtain ⟨d, hd, rfl⟩ := List.mem_map.1 hknown
    obtain ⟨t, ht, hof | hsecond⟩ := h.stems.definitions d hd
    · exact absurd hof.point.symm (hne ht)
    · rw [eq_of_nodup_filterMap (List.nodup_append.1 hlabels).2.1 hs ht hl (second?_of_isSecondOf hsecond)]
      exact ⟨d, hd, rfl, hsecond⟩

omit hp in
/-- The vector that spans a line is that of the line to which it is parallel, or that turned by a right
angle. -/
theorem span_direction (hs : s ∈ p.steps) {through line a b : Label}
    (hspan : (span p n line c').1 = .ok (a, b)) (hknown : c.Knows (secondLabel through s.label)) :
    (s.construction = .set (.parallel through line) →
      place (secondLabel through s.label) - place through = place b - place a) ∧
    (s.construction = .set (.perpendicular through line) →
      place (secondLabel through s.label) - place through = turned (place b - place a)) := by
  have hrule (hdirected : s.construction = .set (.parallel through line) ∨
      s.construction = .set (.perpendicular through line)) :
      s.construction = .set (.parallel through line) ∧
          place (secondLabel through s.label) = place through + (place b - place a) ∨
        s.construction = .set (.perpendicular through line) ∧
          place (secondLabel through s.label) = place through + turned (place b - place a) := by
    obtain ⟨d, hd, hpoint, hsecond⟩ :=
      h.exists_second hlabels hs (second?_of_directed hdirected) hknown
    obtain ⟨through', line', a', b', m, k, -, hspan', -, hrule⟩ := hsecond.rule
    have hplace := (h.holds d hd).point
    rw [hpoint] at hplace
    rcases hrule with ⟨hlocus, hrule⟩ | ⟨hlocus, hrule⟩ <;> rw [hlocus] at hdirected <;>
      rcases hdirected with heq | heq <;> cases heq <;>
      obtain ⟨rfl, rfl⟩ := span_unique hspan hspan'
    · rw [hrule, Rule.pointAt_shifted] at hplace
      exact .inl ⟨hlocus, hplace⟩
    · rw [hrule, Rule.pointAt_turn_one] at hplace
      exact .inr ⟨hlocus, hplace⟩
  constructor
  · intro hlocus
    rcases hrule (.inl hlocus) with ⟨-, hplace⟩ | ⟨hlocus', -⟩
    · rw [hplace, add_sub_cancel_left]
    · cases hlocus.symm.trans hlocus'
  · intro hlocus
    rcases hrule (.inr hlocus) with ⟨hlocus', -⟩ | ⟨-, hplace⟩
    · cases hlocus.symm.trans hlocus'
    · rw [hplace, add_sub_cancel_left]

/-- A point constructed on a line lies on it, and the points that span the line are known. -/
theorem isOnLine_of_mem_sets (hspan : (span p n s.label c').1 = .ok (u, v)) (ht : t ∈ p.steps)
    (hset : s.label ∈ t.sets) : IsOnLine (place u) (place v) (place t.label) ∧ c.Knows v := by
  have hdefinition {rule : PointRule} (hrule : t.construction = .point rule) (hfree : rule ≠ .free) :
      ∃ d ∈ c.definitions, place t.label = d.rule.pointAt (Quantity.valueAt place ratio) place ∧
        d.IsProper c.Knows ∧ Rule.Describes p t.label rule d.rule d.denominators d.parameter := by
    obtain ⟨d, hd, hpoint, hdescribes⟩ := h.exists_definition hp hlabels ht hrule hfree
    refine ⟨d, hd, ?_, h.covers.ordered.isProper hd, hdescribes⟩
    rw [← hpoint]
    exact (h.holds d hd).point
  have hmeet {l m : Label} (hrule : t.construction = .point (.intersection l m))
      (hl : s.label = l ∨ s.label = m) :
      IsOnLine (place u) (place v) (place t.label) ∧ c.Knows v := by
    obtain ⟨d, hd, hplace, hproper, hdescribes⟩ := hdefinition hrule (by simp)
    obtain ⟨u₁, v₁, a, b, c₁, c₂, hfirst, hsecond, hr, hdenominators⟩ := hdescribes.of_intersection
    have hdenominator := h.ne_zero d hd _ (hdenominators ▸ List.mem_cons_self)
    have hreads := hproper.reads.2 _ (hdenominators ▸ List.mem_cons_self)
    rw [hr, Rule.pointAt_pair] at hplace
    obtain ⟨hon, hon'⟩ := isOnLine_intersection hdenominator hplace
    rcases hl with rfl | rfl
    · obtain ⟨rfl, rfl⟩ := span_unique hspan hfirst
      exact ⟨hon, hreads.1 v (by simp [Quantity.labels])⟩
    · obtain ⟨rfl, rfl⟩ := span_unique hspan hsecond
      exact ⟨hon', hreads.2 v (by simp [Quantity.labels])⟩
  rcases Protocol.construction_of_mem_sets hset with hrule | hrule | ⟨m, hrule | hrule⟩
  · obtain ⟨d, -, hplace, hproper, hdescribes⟩ := hdefinition hrule (by simp)
    obtain ⟨u', v', c₁, hline, hr⟩ := hdescribes.of_onLine
    obtain ⟨rfl, rfl⟩ := span_unique hspan hline
    have hreads := hproper.reads.1
    rw [hr] at hreads
    rw [hr, Rule.pointAt_between] at hplace
    exact ⟨⟨_, hplace⟩, (Rule.known_of_between hreads).2⟩
  · obtain ⟨d, -, -, -, hdescribes⟩ := hdefinition hrule (by simp)
    cases hdescribes
  · exact hmeet hrule (.inl rfl)
  · exact hmeet hrule (.inr rfl)

/-- Every member of a line lies on it. -/
theorem isOnLine_of_mem_members (hs : s ∈ p.steps) (hspan : (span p n s.label c').1 = .ok (u, v))
    (hl : l ∈ s.members) : IsOnLine (place u) (place v) (place l) := by
  rcases hp.isJoined s hs l hl with hfounder | ⟨t, ht, rfl, hset⟩
  · obtain ⟨m, s', -, hs', hlabel, -, hspan⟩ := span_eq_ok hspan
    obtain rfl := hp.ordered.eq_of_label hs' hs hlabel
    rcases hspan with hlocus | ⟨line, a, b, hlocus, -, -⟩
    · rw [Step.founders_of_lineThrough hlocus, List.mem_pair] at hfounder
      rcases hfounder with rfl | rfl
      · exact isOnLine_left _ _
      · exact isOnLine_right _ _
    · rw [Step.founders_of_directed hlocus, List.mem_singleton] at hfounder
      rw [hfounder]
      exact isOnLine_left _ _
  · exact (h.isOnLine_of_mem_sets hp hlabels hspan ht hset).1

/-- The conditions that keep a constructed point on a line hold. -/
theorem holdsAt_membership (hs : s ∈ p.steps) {locus : Locus} (hlocus : s.construction = .set locus)
    (hspan : (line p s.label c').1 = .ok (u, v)) (ht : t ∈ p.steps) (hset : s.label ∈ t.sets)
    {k : Condition} (hk : k ∈ p.membership s locus t.label t.index) : k.HoldsAt place := by
  obtain ⟨hon, hknown⟩ := h.isOnLine_of_mem_sets hp hlabels hspan ht hset
  have hmember {l : Label} (hl : l ∈ p.knownMembers s t.index) : IsOnLine (place u) (place v) (place l) :=
    h.isOnLine_of_mem_members hp hlabels hs hspan (Protocol.mem_knownMembers hl).1
  obtain ⟨m, s', hm, hs', hlabel, -, hends⟩ := span_eq_ok hspan
  obtain rfl := hp.ordered.eq_of_label hs' hs hlabel
  rcases hends with hlocus' | ⟨base, a, b, hlocus', rfl, hbase⟩
  · obtain rfl := Construction.set.inj (hlocus.symm.trans hlocus')
    obtain ⟨⟨x, y⟩, hxy, rfl⟩ := List.mem_map.1 hk
    obtain ⟨hx, hy⟩ := mem_pairs hxy
    exact (Condition.holdsAt_collinear _ _ _).2 (hon.cross_eq_zero (hmember hx) (hmember hy))
  · obtain ⟨hparallel, hperpendicular⟩ := h.span_direction hlabels hs hbase hknown
    -- Both lines are measured by the vector that spans the one from which the direction comes.
    have hdirected (template : Template) (hks : p.membership s' locus t.label t.index =
        (p.get? base).elim [] fun b => (p.knownMembers s' t.index).flatMap fun q =>
          (pairs (p.knownMembers b s'.index)).map fun xy =>
            ⟨template, [(Template.own, t.label), ("P", q), ("A", xy.1), ("B", xy.2)]⟩) :
        ∃ q x y, k = ⟨template, [(Template.own, t.label), ("P", q), ("A", x), ("B", y)]⟩ ∧
          (∃ r : ℚ, place t.label - place q = r • (place (secondLabel u s'.label) - place u)) ∧
          ∃ r : ℚ, place y - place x = r • (place b - place a) := by
      rw [hks] at hk
      cases hget : p.get? base with
      | none =>
          rw [hget] at hk
          cases hk
      | some w =>
          rw [hget] at hk
          obtain ⟨q, hq, hk⟩ := List.mem_flatMap.1 hk
          obtain ⟨⟨x, y⟩, hxy, rfl⟩ := List.mem_map.1 hk
          obtain ⟨hx, hy⟩ := mem_pairs hxy
          obtain ⟨hw, hwl⟩ := Protocol.mem_of_get? hget
          have hbaseMember {l : Label} (hl : l ∈ p.knownMembers w s'.index) :
              IsOnLine (place a) (place b) (place l) :=
            h.isOnLine_of_mem_members hp hlabels hw (hwl ▸ hbase) (Protocol.mem_knownMembers hl).1
          exact ⟨q, x, y, rfl, hon.exists_sub (hmember hq), (hbaseMember hy).exists_sub (hbaseMember hx)⟩
    rcases hlocus' with hlocus' | hlocus' <;>
      obtain rfl := Construction.set.inj (hlocus.symm.trans hlocus')
    · obtain ⟨q, x, y, rfl, ⟨r, hr⟩, r', hr'⟩ :=
        hdirected (Template.parallel "P" Template.own "A" "B") (by
          unfold Protocol.membership
          dsimp only
          cases p.get? base <;> rfl)
      rw [hparallel hlocus'] at hr
      rw [Condition.holdsAt_parallel, hr, hr']
      exact cross_smul_smul r r'
    · obtain ⟨q, x, y, rfl, ⟨r, hr⟩, r', hr'⟩ :=
        hdirected (Template.perpendicular "P" Template.own "A" "B") (by
          unfold Protocol.membership
          dsimp only
          cases p.get? base <;> rfl)
      rw [hperpendicular hlocus'] at hr
      rw [Condition.holdsAt_perpendicular, hr, hr']
      exact dot_smul_turned r r'

theorem holdsAt_conditionsOn (hspan : (line p l c').1 = .ok (u, v)) (ht : t ∈ p.steps)
    (hset : l ∈ t.sets) {ks : List Condition} (hks : p.conditionsOn l t.label t.index = .ok ks) :
    ∀ k ∈ ks, k.HoldsAt place := by
  obtain ⟨m, s, -, hs, rfl, hget, hends⟩ := span_eq_ok hspan
  obtain ⟨locus, hlocus⟩ : ∃ locus, s.construction = .set locus := by
    rcases hends with hlocus | ⟨line, a, b, hlocus | hlocus, -⟩ <;> exact ⟨_, hlocus⟩
  unfold Protocol.conditionsOn at hks
  simp only [hget, hlocus, Except.ok.injEq] at hks
  subst hks
  exact fun k hk => h.holdsAt_membership hp hlabels hs hlocus hspan ht hset hk

/-- A constructed point meets all its conditions, whichever way it is placed by them. -/
theorem holdsAt_alternatives (hs : s ∈ p.steps) {ways : List Alternative} (hpoint : s.isPoint = true)
    (hways : p.alternatives s = .ok ways) : ∀ way ∈ ways, ∀ k ∈ way, k.HoldsAt place := by
  obtain ⟨rule, hrule⟩ := Transformation.isPoint_iff.1 hpoint
  rw [Protocol.alternatives_of_point hrule] at hways
  by_cases hfree : rule = .free
  · subst hfree
    cases hways
    exact List.forall_mem_nil _
  obtain ⟨d, hd, hlabel, hdescribes⟩ := h.exists_definition hp hlabels hs hrule hfree
  have hplace := (h.holds d hd).point
  have hne := h.ne_zero d hd
  rw [hlabel] at hplace
  obtain ⟨point, r, denominators, parameter, description⟩ := d
  dsimp only at hplace hne hdescribes
  cases hdescribes with
  | midpoint a b =>
      cases hways
      exact (Rule.eq_pointAt_midpoint_iff rfl rfl).1 hplace
  | shifted q a b =>
      cases hways
      exact (Rule.eq_pointAt_shifted_iff rfl rfl rfl).1 hplace
  | symmetric q o =>
      cases hways
      exact (Rule.eq_pointAt_symmetric_iff rfl rfl).1 hplace
  | rotated q o =>
      cases hways
      exact (Rule.eq_pointAt_rotated_iff rfl rfl).1 hplace
  | foot q a b =>
      cases hways
      have hbase := hne _ List.mem_cons_self
      rw [Rule.pointAt_between] at hplace
      simp only [Expr.valueAt, Quantity.valueAt] at hplace hbase
      obtain ⟨hcross, hdot⟩ := cross_and_dot_foot hbase hplace
      exact (Condition.holdsAt_foot _ _ _ _).2 (Prod.ext hcross hdot)
  | @intersection l m u v a b c₁ c₂ hl hm =>
      have hsets := Step.sets_of_intersection hrule
      unfold Protocol.pointAlternatives at hways
      obtain ⟨first, hfirst, hways⟩ := bind_eq_ok hways
      obtain ⟨second, hsecond, hways⟩ := bind_eq_ok hways
      cases hways
      intro way hway
      obtain ⟨k, hk, hway⟩ := List.mem_flatMap.1 hway
      obtain ⟨k', hk', rfl⟩ := List.mem_map.1 hway
      refine List.forall_mem_cons.2 ⟨?_, List.forall_mem_singleton.2 ?_⟩
      · exact h.holdsAt_conditionsOn hp hlabels hl hs (by simp [hsets]) hfirst k hk
      · exact h.holdsAt_conditionsOn hp hlabels hm hs (by simp [hsets]) hsecond k' hk'
  | @onLine l u v c₁ hl =>
      unfold Protocol.pointAlternatives at hways
      obtain ⟨ks, hks, hways⟩ := bind_eq_ok hways
      cases hways
      refine List.forall_mem_map.2 fun k hk => List.forall_mem_singleton.2 ?_
      refine h.holdsAt_conditionsOn hp hlabels hl hs ?_ hks k hk
      unfold Step.sets Step.kind Step.argument
      rw [hrule]
      exact List.mem_cons_self

end Realizes

section Placement

variable {free : Label → ℚ × ℚ} {ratios : Label → ℚ}

theorem IsValidAt.realizes (hp : Appended p) (hlabels : HasLabels p)
    (hsupported : (ofProtocol p).unsupported = []) (hvalid : (ofProtocol p).IsValidAt free ratios) :
    (ofProtocol p).Realizes p ((ofProtocol p).place free ratios) ((ofProtocol p).ratio ratios) where
  covers := covers_ofProtocol (hlabels.isSeparated hp) hsupported
  stems := stemsFrom_ofProtocol p
  holds := hvalid.holdsAt (covers_ofProtocol (hlabels.isSeparated hp) hsupported).toIsCoherent
  ne_zero := hvalid

/-- The definitions realise the figure. Let the labels be different, those of the second points of lines
included, and let each constructed point have a definition. Wherever the free points are placed and the
random points taken, unless a denominator is zero, the weights of each definition add up to one, the
members of each line that two points span lie on it, and each point meets all its conditions. -/
theorem realizes_ofProtocol (hp : Appended p) (hlabels : HasLabels p)
    (hsupported : (ofProtocol p).unsupported = []) (hvalid : (ofProtocol p).IsValidAt free ratios) :
    (∀ d ∈ (ofProtocol p).definitions, d.rule.IsDefined
      (Quantity.valueAt ((ofProtocol p).place free ratios) ((ofProtocol p).ratio ratios))) ∧
    (∀ s ∈ p.steps, ∀ c u v, (line p s.label c).1 = .ok (u, v) → ∀ l ∈ s.members,
      IsOnLine ((ofProtocol p).place free ratios u) ((ofProtocol p).place free ratios v)
        ((ofProtocol p).place free ratios l)) ∧
    ∀ s ∈ p.steps, s.isPoint = true → ∃ ways, p.alternatives s = .ok ways ∧
      ∀ way ∈ ways, ∀ k ∈ way, k.HoldsAt ((ofProtocol p).place free ratios) := by
  have h := hvalid.realizes hp hlabels hsupported
  refine ⟨fun d hd => (h.holds d hd).isDefined, fun s hs c u v hspan l hl => ?_, fun s hs hpoint => ?_⟩
  · exact h.isOnLine_of_mem_members hp hlabels hs hspan hl
  · obtain ⟨rule, hrule⟩ := Transformation.isPoint_iff.1 hpoint
    obtain ⟨ways, hways⟩ := Protocol.exists_bound hp.ordered hp.furnished hp.accepted hs hrule
    exact ⟨ways, hways.alternatives, h.holdsAt_alternatives hp hlabels hs hpoint hways.alternatives⟩

/-- Lines that take their direction from each other, with random points on them, their common point and the
foot of a perpendicular. -/
def ladderFigure : Protocol :=
  .figure [("A", .point .free), ("B", .point .free), ("C", .point .free),
    ("l", .set (.lineThrough "A" "B")), ("m", .set (.perpendicular "C" "l")), ("R", .point (.onLine "m")),
    ("n", .set (.parallel "A" "m")), ("S", .point (.onLine "n")), ("k", .set (.perpendicular "R" "n")),
    ("P", .point (.intersection "k" "n")), ("F", .point (.foot "P" "B" "C"))]

def ladderFree (l : Label) : ℚ × ℚ := if l = "A" then (0, 0) else if l = "B" then (4, 1) else (1, 2)

theorem realizes_ladderFigure :
    HasLabels ladderFigure ∧ (ofProtocol ladderFigure).unsupported = [] ∧
      (ofProtocol ladderFigure).IsValidAt ladderFree (fun _ => 3) ∧
      ∀ s ∈ ladderFigure.steps, s.isPoint = true → ∃ ways, ladderFigure.alternatives s = .ok ways ∧
        ∀ way ∈ ways, ∀ k ∈ way,
          k.HoldsAt ((ofProtocol ladderFigure).place ladderFree fun _ => 3) := by
  have hlabels : HasLabels ladderFigure := by decide +kernel
  have hsupported : (ofProtocol ladderFigure).unsupported = [] := by decide +kernel
  have hvalid : (ofProtocol ladderFigure).IsValidAt ladderFree fun _ => 3 := by decide +kernel
  exact ⟨hlabels, hsupported, hvalid,
    (realizes_ofProtocol (appended_figure _) hlabels hsupported hvalid).2.2⟩

/-- A parallel and a perpendicular to one line, the second points of which get one label. -/
def collidingFigure : Protocol :=
  .figure [("A", .point .free), ("A[x]", .point .free), ("B", .point .free), ("C", .point .free),
    ("g", .set (.lineThrough "B" "C")), ("x][y", .set (.parallel "A" "g")),
    ("y", .set (.perpendicular "A[x]" "g")), ("Q", .point (.onLine "x][y")), ("R", .point (.onLine "y")),
    ("s", .statement (.perpendicular "A[x]" "R" "B" "C"))]

def collidingFree (l : Label) : ℚ × ℚ :=
  if l = "A" then (0, 1) else if l = "B" then (0, 0) else if l = "C" then (1, 0) else (0, 2)

/-- No point is labelled like a second point, but two second points are labelled alike: the one that comes
first is taken for the other, and the random point on the perpendicular leaves that line. -/
theorem not_holdsAt_collidingFigure :
    Appended collidingFigure ∧ (∀ s ∈ collidingFigure.steps, s.label ∉ secondLabels collidingFigure) ∧
      (ofProtocol collidingFigure).unsupported = [] ∧
      (ofProtocol collidingFigure).IsValidAt collidingFree (fun _ => 1) ∧
      ∃ s ∈ collidingFigure.steps, ∃ ways ∈ (collidingFigure.alternatives s).toOption, ∃ way ∈ ways,
        ∃ k ∈ way, ¬k.HoldsAt ((ofProtocol collidingFigure).place collidingFree fun _ => 1) :=
  ⟨appended_figure _, by decide +kernel, by decide +kernel, by decide +kernel, by decide +kernel⟩

end Placement

end Context
end Area
end Planimetry
