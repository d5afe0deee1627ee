import Planimetry.Proofs.Figure.Membership

/-! Each condition of a point binds it to points constructed before it, and a point with conditions has at
least one way to meet them. -/

namespace Planimetry

/-- The role of the point under construction and some others are different, and they are all roles of the
template. -/
def Template.IsCovered (t : Template) (names : List Label) : Prop :=
  (own :: names).Nodup ∧ ∀ r ∈ t.roles, r ∈ own :: names

instance (t : Template) (names : List Label) : Decidable (t.IsCovered names) :=
  inferInstanceAs (Decidable (_ ∧ _))

namespace Template

theorem isCovered_of_hasVars {t : Template} {names : List Label} (hnodup : (own :: names).Nodup)
    (h : t.HasVars fun v => ∀ r a, v = .placeholder r a → r ∈ own :: names) : t.IsCovered names := by
  refine ⟨hnodup, fun r hr => ?_⟩
  obtain ⟨a, ha⟩ := mem_roles.1 hr
  exact h _ ha r a rfl

theorem hasRoles_angleTangent (names : List Label) {a o b : Label} (ha : a ∈ names) (ho : o ∈ names)
    (hb : b ∈ names) :
    TangentHasVars (fun v => ∀ r axis, v = .placeholder r axis → r ∈ names) (angleTangent a o b) :=
  tangentHasVars_angleTangent (fun _ _ _ h => (Variable.placeholder.inj h).1 ▸ ha)
    (fun _ _ _ h => (Variable.placeholder.inj h).1 ▸ ho)
    (fun _ _ _ h => (Variable.placeholder.inj h).1 ▸ hb)

theorem isCovered_angleRay : angleRay.IsCovered ["A", "O", "A1", "O1", "B1"] := by
  have hray := hasRoles_angleTangent (own :: ["A", "O", "A1", "O1", "B1"])
    (a := "A") (o := "O") (b := own) (by decide) (by decide) (by decide)
  have hgiven := hasRoles_angleTangent (own :: ["A", "O", "A1", "O1", "B1"])
    (a := "A1") (o := "O1") (b := "B1") (by decide) (by decide) (by decide)
  refine isCovered_of_hasVars (by decide) ?_
  exact (hray.1.mul hgiven.2).sub (hray.2.mul hgiven.1)

theorem isCovered_angleRayToSixty :
    angleRayToSixty.IsCovered ["A", "O", "A1", "O1", "B1", "A2", "O2", "B2", "T"] := by
  have hangle {a o b : Label} :=
    hasRoles_angleTangent (own :: ["A", "O", "A1", "O1", "B1", "A2", "O2", "B2", "T"])
      (a := a) (o := o) (b := b)
  have hfirst := hangle (a := "A1") (o := "O1") (b := "B1") (by decide) (by decide) (by decide)
  have hsecond := hangle (a := "A2") (o := "O2") (b := "B2") (by decide) (by decide) (by decide)
  have hray := hangle (a := "A") (o := "O") (b := own) (by decide) (by decide) (by decide)
  have hsum := (hfirst.tangentOfSum hsecond).tangentOfSum hray
  refine isCovered_of_hasVars (by decide) (hsum.1.sub (hsum.2.mul (hasVars_coordinate ?_)))
  intro r a h
  rw [← (Variable.placeholder.inj h).1]
  decide

/-- The pairs of templates by which points are placed, each with its roles beside that of the point itself. -/
def pairing : List ((Template × Template) × List Label) :=
  [(midpoint, ["A", "B"]), (shift, ["P", "A", "B"]), (centralSymmetry, ["P", "O"]),
    (quarterTurn, ["P", "O"]), (reflection, ["P", "A", "B"]), (foot, ["P", "A", "B"]),
    (circleCenter, ["A", "B", "C"]), (tangentOfSixty, [])]

theorem isCovered_of_mem_pairing {ts : Template × Template} {names : List Label}
    (h : (ts, names) ∈ pairing) : ts.1.IsCovered names ∧ ts.2.IsCovered names := by
  have hall : ∀ e ∈ pairing, e.1.1.IsCovered e.2 ∧ e.1.2.IsCovered e.2 := by decide +kernel
  exact hall _ h

/-- The templates that keep a point on a line or circle, other than those of rays, each with its roles beside that
of the point itself. -/
def keeping : List (Template × List Label) :=
  [(collinear own "A" "B", ["A", "B"]), (parallel "P" own "A" "B", ["P", "A", "B"]),
    (perpendicular "P" own "A" "B", ["P", "A", "B"]), (equidistant own "A" "B", ["A", "B"]),
    (onCircle own "O" "A", ["O", "A"]), (onCircleWithDiameter own "A" "B", ["A", "B"]),
    (concyclic "A" "B" "C" own, ["A", "B", "C"])]

theorem isCovered_of_mem_keeping (names : List Label) {t : Template} (h : (t, names) ∈ keeping) :
    t.IsCovered names := by
  have hall : ∀ e ∈ keeping, e.1.IsCovered e.2 := by decide +kernel
  exact hall _ h

end Template

/-- A point of the protocol that is constructed before a step. -/
def Protocol.HasEarlierPoint (p : Protocol) (s : Step) (l : Label) : Prop :=
  ∃ m ∈ p.steps, m.label = l ∧ m.isPoint = true ∧ m.index < s.index

/-- The condition binds a step to points constructed earlier: the step itself plays the role of the
point under construction, an earlier point plays each other role once, and no role of the template is
left open. -/
structure Condition.Binds (p : Protocol) (s : Step) (c : Condition) : Prop where
  own : (Template.own, s.label) ∈ c.roles
  earlier : ∀ e ∈ c.roles, e = (Template.own, s.label) ∨
    e.1 ≠ Template.own ∧ p.HasEarlierPoint s e.2
  nodup : (c.roles.map Prod.fst).Nodup
  covers : ∀ r ∈ c.template.roles, r ∈ c.roles.map Prod.fst

theorem Condition.binds_cons {p : Protocol} {s : Step} {t : Template} {roles : List (Label × Label)}
    {names : List Label} (ht : t.IsCovered names) (hnames : roles.map Prod.fst = names)
    (hearlier : ∀ l ∈ roles.map Prod.snd, p.HasEarlierPoint s l) :
    Binds p s ⟨t, (Template.own, s.label) :: roles⟩ := by
  subst hnames
  obtain ⟨hnodup, hcovers⟩ := ht
  refine ⟨List.mem_cons_self, List.forall_mem_cons.2 ⟨.inl rfl, fun e he => .inr ⟨?_, ?_⟩⟩, hnodup, hcovers⟩
  · exact fun heq => (List.nodup_cons.1 hnodup).1 (heq ▸ List.mem_map_of_mem he)
  · exact hearlier e.2 (List.mem_map_of_mem he)

/-- There are conditions, and each binds the step to earlier points. -/
def Condition.BindAll (p : Protocol) (s : Step) (cs : List Condition) : Prop :=
  cs ≠ [] ∧ ∀ c ∈ cs, c.Binds p s

theorem Condition.bindAll_map {α : Type} {p : Protocol} {s : Step} {xs : List α} {f : α → Condition}
    (hxs : xs ≠ []) (hf : ∀ x ∈ xs, (f x).Binds p s) : BindAll p s (xs.map f) :=
  ⟨fun hnil => hxs (List.map_eq_nil_iff.1 hnil), List.forall_mem_map.2 hf⟩

theorem pairs_ne_nil {α : Type} {xs : List α} (h : 2 ≤ xs.length) : pairs xs ≠ [] := by
  match xs, h with
  | a :: b :: xs, _ => exact List.cons_ne_nil _ _

theorem triples_ne_nil {α : Type} {xs : List α} (h : 3 ≤ xs.length) : triples xs ≠ [] := by
  match xs, h with
  | a :: b :: c :: xs, _ => exact List.cons_ne_nil _ _

namespace Protocol

open Template (pairing keeping isCovered_of_mem_pairing isCovered_of_mem_keeping)

variable {p : Protocol} {s set : Step} {l : Label}

theorem HasEarlierPoint.mono {t : Step} (h : p.HasEarlierPoint s l) (hle : s.index ≤ t.index) :
    p.HasEarlierPoint t l := by
  obtain ⟨m, hm, hlabel, hpoint, hlt⟩ := h
  exact ⟨m, hm, hlabel, hpoint, hlt.trans_le hle⟩

/-- Points that play roles of a step are constructed before it. -/
theorem Accepted.hasEarlierPoint (hp : p.Accepted) (hs : s ∈ p.steps) {names : List Label}
    (hroles : s.kind.spec.roles = Kind.points names) (hl : l ∈ s.construction.arguments) :
    p.HasEarlierPoint s l := by
  obtain ⟨i, hi, rfl⟩ := List.mem_iff_getElem.1 hl
  have hlength : s.construction.arguments.length = s.kind.spec.roles.length :=
    s.construction.length_arguments
  have hzip : i < (s.kind.spec.roles.zip s.construction.arguments).length := by
    rw [List.length_zip]
    omega
  obtain ⟨m, hm, hlabel, hlt, haccepts⟩ := hp.roles s hs _ (List.getElem_mem hzip)
  rw [List.getElem_zip] at hlabel haccepts
  have hrole : i < s.kind.spec.roles.length := hlength ▸ hi
  have hpoint : s.kind.spec.roles[i].2 = .exactly .point := by
    have hmem : s.kind.spec.roles[i] ∈ Kind.points names := hroles ▸ List.getElem_mem _
    obtain ⟨r, -, hr⟩ := List.mem_map.1 hmem
    rw [← hr]
  rw [hpoint] at haccepts
  exact ⟨m, hm, hlabel, Step.isPoint_of_accepts haccepts, hlt⟩

theorem Furnished.hasEarlierPoint (hp : p.Furnished) (hordered : p.Ordered) (hset : set ∈ p.steps)
    (h : l ∈ p.knownMembers set s.index) : p.HasEarlierPoint s l := by
  obtain ⟨hl, m, hm, hlabel, hlt⟩ := mem_knownMembers h
  obtain ⟨t, ht, htl, hpoint⟩ := hp.members set hset l hl
  have heq : t = m := hordered.eq_of_label ht hm (htl.trans hlabel.symm)
  exact ⟨m, hm, hlabel, heq ▸ hpoint, hlt⟩

/-- The members with which a line or circle was taken are known from there on. -/
theorem Furnished.founders_sublist (hp : p.Furnished) (hordered : p.Ordered) (hset : set ∈ p.steps)
    {before : Int} (hle : set.index ≤ before) :
    set.founders.Sublist (p.knownMembers set before) := by
  unfold knownMembers
  refine List.Sublist.trans ?_ ((hp.founders set hset).filter _)
  rw [List.filter_eq_self.2]
  intro l hl
  obtain ⟨r, hr, rfl⟩ := List.mem_map.1 hl
  have hargument := (List.of_mem_zip (set.construction.mem_zip_of_mem_members r hr)).2
  obtain ⟨m, hm, hlabel, hlt⟩ := hordered.arguments set hset _ hargument
  obtain ⟨i, hi⟩ := List.mem_iff_getElem?.1 hm
  have hindex := hordered.index i m hi
  have hget := hordered.get?_eq hm
  rw [hlabel] at hget
  change p.get? (set.argument r) = some m at hget
  rw [hget, Bool.and_eq_true, decide_eq_true_iff, decide_eq_true_iff]
  omega

/-- The conditions for a point on a line that is directed like another one. -/
theorem bindAll_directed {t : Template} (ht : t.IsCovered ["P", "A", "B"]) {known base : List Label}
    (hknown : ∀ l ∈ known, p.HasEarlierPoint s l) (hbase : ∀ l ∈ base, p.HasEarlierPoint s l)
    (hone : known ≠ []) (htwo : 2 ≤ base.length) :
    Condition.BindAll p s (known.flatMap fun through => (pairs base).map fun ab =>
      ⟨t, [(Template.own, s.label), ("P", through), ("A", ab.1), ("B", ab.2)]⟩) := by
  refine ⟨fun hnil => ?_, fun c hc => ?_⟩
  · obtain ⟨through, hthrough⟩ := List.exists_mem_of_ne_nil known hone
    exact pairs_ne_nil htwo (List.map_eq_nil_iff.1 (List.flatMap_eq_nil_iff.1 hnil through hthrough))
  · obtain ⟨through, hthrough, hc⟩ := List.mem_flatMap.1 hc
    obtain ⟨⟨a, b⟩, hab, rfl⟩ := List.mem_map.1 hc
    obtain ⟨ha, hb⟩ := mem_pairs hab
    refine Condition.binds_cons ht rfl ?_
    simpa using ⟨hknown through hthrough, hbase a ha, hbase b hb⟩

/-- Some conditions keep a point on a line or circle, and each binds the point to earlier ones. -/
theorem bindAll_membership (hp : p.Ordered) (hfurnished : p.Furnished) (haccepted : p.Accepted)
    (hset : set ∈ p.steps) (hlt : set.index < s.index) {locus : Locus}
    (hlocus : set.construction = .set locus) :
    Condition.BindAll p s (p.membership set locus s.label s.index) := by
  have hlength : set.founders.length ≤ (p.knownMembers set s.index).length :=
    (hfurnished.founders_sublist hp hset hlt.le).length_le
  have hknown : ∀ l ∈ p.knownMembers set s.index, p.HasEarlierPoint s l := fun l hl =>
    hfurnished.hasEarlierPoint hp hset hl
  have hkind : set.kind = (Construction.set locus).kind := congr_arg Construction.kind hlocus
  have hargument {names : List Label}
      (hroles : (Construction.set locus).kind.spec.roles = Kind.points names) :
      ∀ l ∈ (Construction.set locus).arguments, p.HasEarlierPoint s l := fun l hl =>
    (haccepted.hasEarlierPoint hset (by rw [hkind, hroles]) (hlocus ▸ hl)).mono hlt.le
  have hbase {base : Step} (hmem : base ∈ p.steps) :
      ∀ l ∈ p.knownMembers base set.index, p.HasEarlierPoint s l := fun l hl =>
    (hfurnished.hasEarlierPoint hp hmem hl).mono hlt.le
  unfold Step.founders at hlength
  rw [hkind] at hlength
  cases locus with
  | lineThrough a b =>
      refine Condition.bindAll_map (pairs_ne_nil hlength) fun ⟨a, b⟩ hab => ?_
      obtain ⟨ha, hb⟩ := mem_pairs hab
      refine Condition.binds_cons (isCovered_of_mem_keeping ["A", "B"] (by simp [keeping])) rfl ?_
      simpa using ⟨hknown a ha, hknown b hb⟩
  | parallel point line =>
      obtain ⟨base, hget, htwo⟩ := hfurnished.base set hset point line (.inl hlocus)
      unfold membership
      simp only [hget]
      exact bindAll_directed (isCovered_of_mem_keeping _ (by simp [keeping])) hknown
        (hbase (mem_of_get? hget).1) (List.ne_nil_of_length_pos hlength) htwo
  | perpendicular point line =>
      obtain ⟨base, hget, htwo⟩ := hfurnished.base set hset point line (.inr hlocus)
      unfold membership
      simp only [hget]
      exact bindAll_directed (isCovered_of_mem_keeping _ (by simp [keeping])) hknown
        (hbase (mem_of_get? hget).1) (List.ne_nil_of_length_pos hlength) htwo
  | bisector a b =>
      refine ⟨List.cons_ne_nil _ _, List.forall_mem_singleton.2 ?_⟩
      exact Condition.binds_cons (isCovered_of_mem_keeping ["A", "B"] (by simp [keeping])) rfl
        (hargument rfl)
  | angleRay a vertex a1 o1 b1 =>
      refine ⟨List.cons_ne_nil _ _, List.forall_mem_singleton.2 ?_⟩
      exact Condition.binds_cons Template.isCovered_angleRay rfl (hargument rfl)
  | angleRayToSixty a vertex a1 o1 b1 a2 o2 b2 angle =>
      refine ⟨List.cons_ne_nil _ _, List.forall_mem_singleton.2 ?_⟩
      exact Condition.binds_cons Template.isCovered_angleRayToSixty rfl (hargument rfl)
  | circleThrough center through =>
      refine Condition.bindAll_map (List.ne_nil_of_length_pos hlength) fun through hthrough => ?_
      refine Condition.binds_cons (isCovered_of_mem_keeping ["O", "A"] (by simp [keeping])) rfl ?_
      have hcenter := hargument rfl center List.mem_cons_self
      simpa using ⟨hcenter, hknown through hthrough⟩
  | circleWithDiameter a b =>
      refine ⟨List.cons_ne_nil _ _, List.forall_mem_singleton.2 ?_⟩
      exact Condition.binds_cons (isCovered_of_mem_keeping ["A", "B"] (by simp [keeping])) rfl
        (hargument rfl)
  | circumscribed a b c =>
      refine Condition.bindAll_map (triples_ne_nil hlength) fun ⟨a, b, c⟩ habc => ?_
      obtain ⟨ha, hb, hc⟩ := mem_triples habc
      refine Condition.binds_cons (isCovered_of_mem_keeping ["A", "B", "C"] (by simp [keeping])) rfl ?_
      simpa using ⟨hknown a ha, hknown b hb, hknown c hc⟩

/-- There are conditions for a point on an object that plays the role of a line or circle. -/
theorem exists_conditionsOn (hp : p.Ordered) (hfurnished : p.Furnished) (haccepted : p.Accepted)
    (hs : s ∈ p.steps) {role : Label} {expected : Expectation}
    (hexpected : ∀ c, expected.accepts c = true → Expectation.set.accepts c = true)
    (hrole : ((role, expected), l) ∈ s.kind.spec.roles.zip s.construction.arguments) :
    ∃ cs, p.conditionsOn l s.label s.index = .ok cs ∧ Condition.BindAll p s cs := by
  obtain ⟨set, hset, rfl, hlt, haccepts⟩ := haccepted.roles s hs _ hrole
  obtain ⟨locus, hlocus⟩ := Step.exists_locus (hexpected _ haccepts)
  refine ⟨p.membership set locus s.label s.index, ?_, ?_⟩
  · unfold conditionsOn
    simp only [hp.get?_eq hset, hlocus]
  · exact bindAll_membership hp hfurnished haccepted hset hlt hlocus

/-- Each way to place a point meets some conditions, which bind the point to earlier ones, and there is
a way unless the point is free. -/
structure Bound (p : Protocol) (s : Step) (ways : List Alternative) : Prop where
  alternatives : p.alternatives s = .ok ways
  ne_nil : s.kind.hasConditions = true → ways ≠ []
  binds : ∀ way ∈ ways, Condition.BindAll p s way

/-- One way to place a point, by both templates of a pair, with earlier points in the roles beside its own. -/
theorem bound_both (names : List Label) {ts : Template × Template} {roles : List (Label × Label)}
    (hts : (ts, names) ∈ pairing) (hnames : roles.map Prod.fst = names)
    (hearlier : ∀ l ∈ roles.map Prod.snd, p.HasEarlierPoint s l)
    (h : p.alternatives s = .ok (Condition.both s.label roles ts)) :
    p.Bound s (Condition.both s.label roles ts) := by
  obtain ⟨hfst, hsnd⟩ := isCovered_of_mem_pairing hts
  refine ⟨h, fun _ => List.cons_ne_nil _ _, List.forall_mem_singleton.2 ⟨List.cons_ne_nil _ _, ?_⟩⟩
  refine List.forall_mem_cons.2 ⟨?_, List.forall_mem_singleton.2 ?_⟩
  · exact Condition.binds_cons hfst hnames hearlier
  · exact Condition.binds_cons hsnd hnames hearlier

/-- A way to place a point for each condition that keeps it on a line or circle. -/
theorem bound_single {cs : List Condition} (hcs : Condition.BindAll p s cs)
    (h : p.alternatives s = .ok (cs.map fun c => [c])) : p.Bound s (cs.map fun c => [c]) := by
  obtain ⟨hne, hbinds⟩ := hcs
  refine ⟨h, fun _ hnil => hne (List.map_eq_nil_iff.1 hnil), List.forall_mem_map.2 fun c hc => ?_⟩
  exact ⟨List.cons_ne_nil _ _, List.forall_mem_singleton.2 (hbinds c hc)⟩

/-- A way to place a common point of two objects for each two conditions that keep it on them. -/
theorem bound_product {cs ds : List Condition} (hcs : Condition.BindAll p s cs)
    (hds : Condition.BindAll p s ds)
    (h : p.alternatives s = .ok (cs.flatMap fun c => ds.map fun d => [c, d])) :
    p.Bound s (cs.flatMap fun c => ds.map fun d => [c, d]) := by
  refine ⟨h, fun _ hnil => ?_, fun way hway => ?_⟩
  · obtain ⟨c, hc⟩ := List.exists_mem_of_ne_nil cs hcs.1
    exact hds.1 (List.map_eq_nil_iff.1 (List.flatMap_eq_nil_iff.1 hnil c hc))
  · obtain ⟨c, hc, hway⟩ := List.mem_flatMap.1 hway
    obtain ⟨d, hd, rfl⟩ := List.mem_map.1 hway
    refine ⟨List.cons_ne_nil _ _, List.forall_mem_cons.2 ⟨hcs.2 c hc, ?_⟩⟩
    exact List.forall_mem_singleton.2 (hds.2 d hd)

/-- The ways to place a point of a protocol that grew by appending. -/
theorem exists_bound (hp : p.Ordered) (hfurnished : p.Furnished) (haccepted : p.Accepted)
    (hs : s ∈ p.steps) {rule : PointRule} (hrule : s.construction = .point rule) :
    ∃ ways, p.Bound s ways := by
  have hkind : s.kind = (Construction.point rule).kind := congr_arg Construction.kind hrule
  have halternatives := alternatives_of_point (p := p) hrule
  have hon {role l : Label} {expected : Expectation}
      (hexpected : ∀ c, expected.accepts c = true → Expectation.set.accepts c = true)
      (hrole : ((role, expected), l) ∈
        (Construction.point rule).kind.spec.roles.zip (Construction.point rule).arguments) :
      ∃ cs, p.conditionsOn l s.label s.index = .ok cs ∧ Condition.BindAll p s cs := by
    rw [← hrule] at hrole
    exact exists_conditionsOn hp hfurnished haccepted hs hexpected hrole
  have hboth (names : List Label) {players : List Label} {roles : List (Label × Label)}
      {ts : Template × Template} (hts : (ts, names) ∈ pairing)
      (hplayers : (Construction.point rule).kind.spec.roles = Kind.points players)
      (hlabels : roles.map Prod.snd = (Construction.point rule).arguments)
      (hnames : roles.map Prod.fst = names)
      (h : p.pointAlternatives s.label s.index rule = .ok (Condition.both s.label roles ts)) :
      ∃ ways, p.Bound s ways :=
    ⟨_, bound_both names hts hnames (fun _ hl => haccepted.hasEarlierPoint hs (by rw [hkind, hplayers])
      (hrule ▸ hlabels ▸ hl)) (halternatives.trans h)⟩
  have hsingle {role l : Label} {expected : Expectation}
      (hexpected : ∀ c, expected.accepts c = true → Expectation.set.accepts c = true)
      (hrole : ((role, expected), l) ∈
        (Construction.point rule).kind.spec.roles.zip (Construction.point rule).arguments)
      (h : p.pointAlternatives s.label s.index rule =
        (p.conditionsOn l s.label s.index).map (List.map fun c => [c])) :
      ∃ ways, p.Bound s ways := by
    obtain ⟨cs, hcs, hbinds⟩ := hon hexpected hrole
    refine ⟨_, bound_single hbinds ?_⟩
    rw [halternatives, h, hcs]
    rfl
  cases rule with
  | free =>
      refine ⟨[], halternatives, fun hconditions => ?_, List.forall_mem_nil _⟩
      rw [hkind] at hconditions
      cases hconditions
  | midpoint a b => exact hboth ["A", "B"] (by simp [pairing]) rfl rfl rfl rfl
  | onLine l | onCircle l => exact hsingle (by rintro (_ | _ | _ | _) <;> decide) List.mem_cons_self rfl
  | intersection l m =>
      obtain ⟨cs, hcs, hcsbinds⟩ := hon (fun c h => h) (List.mem_cons_self (a := (("first", _), l)))
      obtain ⟨ds, hds, hdsbinds⟩ := hon (fun c h => h)
        (List.mem_cons_of_mem _ (List.mem_cons_self (a := (("second", _), m))))
      refine ⟨_, bound_product hcsbinds hdsbinds ?_⟩
      rw [halternatives]
      simp only [pointAlternatives, hcs, hds, bind, Except.bind, pure, Except.pure]
  | foot q a b | shifted q a b | reflected q a b =>
      exact hboth ["P", "A", "B"] (by simp [pairing]) rfl rfl rfl rfl
  | rotated q o | symmetric q o => exact hboth ["P", "O"] (by simp [pairing]) rfl rfl rfl rfl
  | circleCenter a b c => exact hboth ["A", "B", "C"] (by simp [pairing]) rfl rfl rfl rfl
  | angleOfSixty => exact @hboth [] [] [] _ (by simp [pairing]) rfl rfl rfl rfl

end Protocol
end Planimetry
