import Planimetry.Proofs.Figure.Condition

/-! Members of lines and circles: they are points of the protocol, and each line or circle has as many
of them as its conditions are built on. -/

namespace Planimetry

/-- The same step, possibly with further members and other coordinates. -/
structure Step.Extends (s t : Step) : Prop where
  core : t.core = s.core
  members : s.members.Sublist t.members

namespace Step

variable {s t : Step} {l : Label}

theorem Extends.refl (s : Step) : s.Extends s := ⟨rfl, .refl _⟩

theorem Extends.trans {u : Step} (h : s.Extends t) (h' : t.Extends u) : s.Extends u :=
  ⟨h'.core.trans h.core, h.members.trans h'.members⟩

theorem Extends.construction (h : s.Extends t) : t.construction = s.construction :=
  congr_arg (fun c => c.2.1) h.core

theorem Extends.index (h : s.Extends t) : t.index = s.index := congr_arg (fun c => c.2.2) h.core

theorem Extends.label (h : s.Extends t) : t.label = s.label := congr_arg Prod.fst h.core

theorem Extends.isPoint (h : s.Extends t) : t.isPoint = s.isPoint := by
  unfold Step.isPoint Step.category
  rw [h.construction]

/-- An object that may stand where a line or a circle is expected. -/
theorem exists_locus (h : Expectation.set.accepts s.category = true) :
    ∃ locus, s.construction = .set locus := by
  unfold category at h
  cases hc : s.construction with
  | point rule =>
      rw [hc] at h
      cases rule <;> cases h
  | set locus => exact ⟨locus, rfl⟩
  | statement relation =>
      rw [hc] at h
      cases relation <;> cases h

theorem isPoint_of_accepts (h : (Expectation.exactly .point).accepts s.category = true) :
    s.isPoint = true := by
  rw [Expectation.accepts, beq_iff_eq] at h
  exact beq_iff_eq.2 h.symm

/-- The points on which a line or circle is known to run when it is taken. -/
def founders (s : Step) : List Label := s.kind.spec.members.map s.argument

/-- The lines and circles on which a point is constructed. -/
def sets (s : Step) : List Label := s.kind.spec.onSets.map s.argument

end Step

namespace Protocol

variable {p q : Protocol} {s t : Step} {l : Label}

/-- Each step of one protocol stands in another, possibly with more members. -/
def Extends (p q : Protocol) : Prop := ∀ s ∈ p.steps, ∃ t ∈ q.steps, s.Extends t

theorem Extends.get? (h : p.Extends q) (hq : q.Ordered) (hl : p.get? l = some s) :
    ∃ t, q.get? l = some t ∧ s.Extends t := by
  obtain ⟨hs, rfl⟩ := mem_of_get? hl
  obtain ⟨t, ht, hst⟩ := h s hs
  exact ⟨t, hst.label ▸ hq.get?_eq ht, hst⟩

/-- Members that are known stay known. -/
theorem Extends.knownMembers (h : p.Extends q) (hq : q.Ordered) (hst : s.Extends t) (before : Int) :
    (p.knownMembers s before).Sublist (q.knownMembers t before) := by
  have hmono : (p.knownMembers s before).Sublist (q.knownMembers s before) := by
    refine List.monotone_filter_right s.members fun l hl => ?_
    cases hp : p.get? l with
    | none => simp [hp] at hl
    | some m =>
        obtain ⟨m', hm', hmm'⟩ := h.get? hq hp
        simpa [hp, hm', hmm'.index] using hl
  exact hmono.trans (hst.members.filter _)

/-- A line parallel or perpendicular to another one has two known points there. -/
def HasBase (p : Protocol) (s : Step) : Prop :=
  ∀ point line, s.construction = .set (.parallel point line) ∨
    s.construction = .set (.perpendicular point line) →
      ∃ base, p.get? line = some base ∧ 2 ≤ (p.knownMembers base s.index).length

theorem Extends.hasBase (h : p.Extends q) (hq : q.Ordered) (hst : s.Extends t) (hs : p.HasBase s) :
    q.HasBase t := by
  intro point line hline
  rw [hst.construction] at hline
  obtain ⟨base, hbase, htwo⟩ := hs point line hline
  obtain ⟨base', hbase', hbb'⟩ := h.get? hq hbase
  refine ⟨base', hbase', htwo.trans ?_⟩
  rw [hst.index]
  exact (h.knownMembers hq hbb' s.index).length_le

/-- No step is a statement, members are points, and no line or circle lacks the members with which it
was taken or those of its base. -/
structure Furnished (p : Protocol) : Prop where
  construction : ∀ s ∈ p.steps, s.category ≠ .statement
  members : ∀ s ∈ p.steps, ∀ l ∈ s.members, ∃ t ∈ p.steps, t.label = l ∧ t.isPoint = true
  founders : ∀ s ∈ p.steps, s.founders.Sublist s.members
  base : ∀ s ∈ p.steps, p.HasBase s

theorem Furnished.of_extends (hp : p.Furnished) (hq : q.Ordered) (h : p.Extends q)
    (hback : ∀ t ∈ q.steps, ∃ s ∈ p.steps, s.Extends t)
    (hmembers : ∀ t ∈ q.steps, ∀ l ∈ t.members, ∃ u ∈ q.steps, u.label = l ∧ u.isPoint = true) :
    q.Furnished := by
  refine ⟨fun t ht => ?_, hmembers, fun t ht => ?_, fun t ht => ?_⟩
  · obtain ⟨s, hs, hst⟩ := hback t ht
    unfold Step.category
    rw [hst.construction]
    exact hp.construction s hs
  · obtain ⟨s, hs, hst⟩ := hback t ht
    have hsame : t.founders = s.founders := by
      unfold Step.founders Step.kind Step.argument
      rw [hst.construction]
    rw [hsame]
    exact (hp.founders s hs).trans hst.members
  · obtain ⟨s, hs, hst⟩ := hback t ht
    exact h.hasBase hq hst (hp.base s hs)

theorem position?_eq_some {i : ℕ} (h : p.position? l = some i) :
    ∃ s, p.steps[i]? = some s ∧ s.label = l := by
  unfold position? at h
  obtain ⟨⟨s, j⟩, hfind, rfl⟩ := Option.map_eq_some_iff.1 h
  have hmem := List.mem_reverse.1 (List.mem_of_find?_eq_some hfind)
  have hlabel := List.find?_some hfind
  exact ⟨s, List.mem_zipIdx_iff_getElem?.1 hmem, beq_iff_eq.1 hlabel⟩

/-- A point that joins lines and circles becomes a member there, and nothing else changes. -/
theorem getElem?_join {sets : List Label} {i : ℕ} (h : (p.join l sets).steps[i]? = some t) :
    ∃ s, p.steps[i]? = some s ∧ s.Extends t ∧
      ∀ m ∈ t.members, m ∈ s.members ∨ m = l ∧ s.label ∈ sets := by
  unfold join at h
  induction sets generalizing p with
  | nil => exact ⟨t, h, .refl t, fun m hm => .inl hm⟩
  | cons set sets ih =>
      rw [List.foldl_cons] at h
      obtain ⟨u, hu, hut, hmembers⟩ := ih h
      have hlater : ∀ m ∈ t.members, m ∈ u.members ∨ m = l ∧ u.label ∈ set :: sets := fun m hm =>
        (hmembers m hm).imp_right fun hm => ⟨hm.1, List.mem_cons_of_mem _ hm.2⟩
      cases hset : p.position? set with
      | none =>
          rw [hset] at hu
          exact ⟨u, hu, hut, hlater⟩
      | some j =>
          rw [hset] at hu
          unfold modify at hu
          rw [List.getElem?_modify] at hu
          obtain ⟨s, hs, heq⟩ := Option.map_eq_some_iff.1 hu
          refine ⟨s, hs, ?_⟩
          split at heq
          next hij =>
            split at heq
            · cases heq
              exact ⟨hut, hlater⟩
            · cases heq
              have hgrown : s.Extends { s with members := s.members ++ [l] } :=
                ⟨rfl, List.sublist_append_left _ _⟩
              obtain ⟨s', hs', hlabel⟩ := position?_eq_some hset
              rw [hij, hs] at hs'
              obtain rfl := Option.some.inj hs'
              refine ⟨hgrown.trans hut, fun m hm => ?_⟩
              rcases hlater m hm with hm | hm
              · refine (List.mem_append.1 hm).imp_right fun hm => ?_
                exact ⟨List.mem_singleton.1 hm, hlabel ▸ List.mem_cons_self⟩
              · exact .inr hm
          next =>
            cases heq
            exact ⟨hut, hlater⟩

/-- Steps that agree in their cores and come from each other have counterparts both ways. -/
theorem extends_of_core (hp : p.Ordered) (hcore : q.steps.map Step.core = p.steps.map Step.core)
    (hback : ∀ t ∈ q.steps, ∃ s ∈ p.steps, s.Extends t) : p.Extends q := by
  intro s hs
  obtain ⟨t, ht, hts⟩ := exists_core_eq hcore hs
  obtain ⟨s', hs', hst⟩ := hback t ht
  have hlabel : s'.label = s.label := congr_arg Prod.fst (hst.core.symm.trans hts)
  rw [hp.eq_of_label hs' hs hlabel] at hst
  exact ⟨t, ht, hst⟩

theorem Furnished.join (hp : p.Furnished) (hordered : p.Ordered) (hs : s ∈ p.steps) {sets : List Label}
    (hpoint : sets ≠ [] → s.isPoint = true) : (p.join s.label sets).Furnished := by
  have hcore : (p.join s.label sets).steps.map Step.core = p.steps.map Step.core :=
    map_join Step.core (fun _ _ => rfl) sets
  have hback : ∀ t ∈ (p.join s.label sets).steps, ∃ u ∈ p.steps, u.Extends t ∧
      ∀ m ∈ t.members, m ∈ u.members ∨ m = s.label := by
    intro t ht
    obtain ⟨i, hi⟩ := List.mem_iff_getElem?.1 ht
    obtain ⟨u, hu, hut, hmembers⟩ := getElem?_join hi
    exact ⟨u, List.mem_of_getElem? hu, hut, fun m hm => (hmembers m hm).imp_right And.left⟩
  have hextends := extends_of_core hordered hcore fun t ht => by
    obtain ⟨u, hu, hut, -⟩ := hback t ht
    exact ⟨u, hu, hut⟩
  by_cases hsets : sets = []
  · subst hsets
    exact hp
  refine hp.of_extends (hordered.of_core hcore) hextends
    (fun t ht => (hback t ht).imp fun u hu => ⟨hu.1, hu.2.1⟩) fun t ht l hl => ?_
  have hfind {u : Step} (hu : u ∈ p.steps) (hisPoint : u.isPoint = true) :
      ∃ v ∈ (p.join s.label sets).steps, v.label = u.label ∧ v.isPoint = true := by
    obtain ⟨v, hv, huv⟩ := hextends u hu
    exact ⟨v, hv, huv.label, huv.isPoint.trans hisPoint⟩
  obtain ⟨u, hu, -, hmembers⟩ := hback t ht
  rcases hmembers l hl with hl | rfl
  · obtain ⟨v, hv, rfl, hisPoint⟩ := hp.members u hu l hl
    exact hfind hv hisPoint
  · exact hfind hs (hpoint hsets)

end Protocol

/-- The first members of a line or circle are points that play roles of it. -/
theorem Construction.mem_zip_of_mem_members (c : Construction) : ∀ r ∈ c.kind.spec.members,
    ((r, Expectation.exactly .point), c.argument r) ∈ c.kind.spec.roles.zip c.arguments := by
  cases c with
  | point rule => cases rule <;> exact fun r hr => absurd hr List.not_mem_nil
  | set locus =>
      cases locus <;>
        simp [kind, Kind.spec, Kind.points, argument, Kind.roleNames, arguments, List.lookup]
  | statement relation => cases relation <;> exact fun r hr => absurd hr List.not_mem_nil

/-- Only points are constructed on lines and circles. -/
theorem Kind.category_of_onSets (k : Kind) (h : k.spec.onSets ≠ []) : k.category = .point := by
  cases k <;> first | rfl | exact absurd rfl h

namespace Protocol

variable {p : Protocol} {s : Step}

theorem kindFault?_eq_none {c : Construction} {point line : Label} (h : p.kindFault? c = none)
    (hline : c = .set (.parallel point line) ∨ c = .set (.perpendicular point line)) {base : Step}
    (hbase : p.get? line = some base) : 2 ≤ (p.knownMembers base p.size).length := by
  by_contra hfew
  rcases hline with rfl | rfl <;> simp [kindFault?, hbase, Nat.lt_of_not_le hfew] at h

theorem Furnished.take (hp : p.Furnished) (hordered : Ordered { p with steps := p.steps ++ [p.taken s] })
    (hstatement : s.category ≠ .statement) (hfault : p.fault? s.construction p.size = none) :
    Furnished { p with steps := p.steps ++ [p.taken s] } := by
  obtain ⟨hroles, -, hkind⟩ := fault?_eq_none hfault
  have hextends : p.Extends { p with steps := p.steps ++ [p.taken s] } := fun t ht =>
    ⟨t, List.mem_append_left _ ht, .refl t⟩
  refine ⟨fun t ht => ?_, fun t ht l hl => ?_, fun t ht => ?_, fun t ht => ?_⟩ <;>
    rcases List.mem_append.1 ht with ht | ht
  · exact hp.construction t ht
  · rw [List.mem_singleton.1 ht]
    exact hstatement
  · obtain ⟨u, hu, hul⟩ := hp.members t ht l hl
    exact ⟨u, List.mem_append_left _ hu, hul⟩
  · rw [List.mem_singleton.1 ht] at hl
    obtain ⟨r, hr, rfl⟩ := List.mem_map.1 hl
    obtain ⟨u, hu, -, haccepts⟩ := hroles _ (s.construction.mem_zip_of_mem_members r hr)
    obtain ⟨hmem, hlabel⟩ := mem_of_get? hu
    exact ⟨u, List.mem_append_left _ hmem, hlabel, Step.isPoint_of_accepts haccepts⟩
  · exact hp.founders t ht
  · rw [List.mem_singleton.1 ht]
    exact .refl _
  · exact hextends.hasBase hordered (.refl t) (hp.base t ht)
  · rw [List.mem_singleton.1 ht]
    intro point line hline
    change s.construction = _ ∨ s.construction = _ at hline
    obtain ⟨base, hbase, -⟩ := hroles (("line", .exactly .line), line) (by
      rcases hline with hline | hline <;> rw [hline] <;>
        exact List.mem_cons_of_mem _ List.mem_cons_self)
    obtain ⟨base', hbase', hbb'⟩ := hextends.get? hordered hbase
    refine ⟨base', hbase', (kindFault?_eq_none hkind hline hbase).trans ?_⟩
    exact (hextends.knownMembers hordered hbb' p.size).length_le

end Protocol

/-- The members of a line or circle are those with which it was taken and the points constructed on it. -/
def Protocol.IsJoined (p : Protocol) : Prop :=
  ∀ s ∈ p.steps, ∀ l ∈ s.members, l ∈ s.founders ∨ ∃ t ∈ p.steps, t.label = l ∧ s.label ∈ t.sets

theorem Protocol.IsJoined.take {p : Protocol} {s : Step} (hp : p.IsJoined) :
    (join { p with steps := p.steps ++ [p.taken s] } s.label s.sets).IsJoined := by
  have hcore : (join { p with steps := p.steps ++ [p.taken s] } s.label s.sets).steps.map Step.core =
      (p.steps ++ [p.taken s]).map Step.core := map_join Step.core (fun _ _ => rfl) _
  have hsame {t u : Step} (h : t.core = u.core) :
      t.label = u.label ∧ t.founders = u.founders ∧ t.sets = u.sets := by
    have hlabel : t.label = u.label := congr_arg Prod.fst h
    have hconstruction : t.construction = u.construction := congr_arg (fun c => c.2.1) h
    unfold Step.founders Step.sets Step.kind Step.argument
    rw [hconstruction]
    exact ⟨hlabel, rfl, rfl⟩
  have hlast : ∃ t ∈ (join { p with steps := p.steps ++ [p.taken s] } s.label s.sets).steps,
      t.label = s.label ∧ t.sets = s.sets := by
    obtain ⟨t, ht, hcore⟩ := exists_core_eq (s := p.taken s) (p := { p with steps := _ }) hcore
      (List.mem_append_right _ List.mem_cons_self)
    exact ⟨t, ht, (hsame hcore).1, (hsame hcore).2.2⟩
  intro t ht l hl
  obtain ⟨i, hi⟩ := List.mem_iff_getElem?.1 ht
  obtain ⟨u, hu, hut, hmembers⟩ := getElem?_join hi
  rw [(hsame hut.core).1, (hsame hut.core).2.1]
  rcases hmembers l hl with hl | ⟨rfl, hset⟩
  · rcases List.mem_append.1 (List.mem_of_getElem? hu) with hu | hu
    · refine (hp u hu l hl).imp_right fun ⟨v, hv, hlabel, hset⟩ => ?_
      obtain ⟨w, hw, hcore⟩ := exists_core_eq (p := { p with steps := _ }) hcore
        (List.mem_append_left _ hv)
      exact ⟨w, hw, (hsame hcore).1.trans hlabel, (hsame hcore).2.2 ▸ hset⟩
    · rw [List.mem_singleton.1 hu] at hl ⊢
      exact .inl hl
  · obtain ⟨v, hv, hlabel, hsets⟩ := hlast
    exact .inr ⟨v, hv, hlabel, hsets ▸ hset⟩

theorem Appended.isJoined {p : Protocol} (hp : Appended p) : p.IsJoined := by
  induction hp with
  | empty => exact fun _ h => nomatch h
  | append hp h ih =>
      rcases Protocol.append_eq_ok h with ⟨-, -, rfl⟩ | ⟨-, -, -, rfl⟩
      · exact ih
      · exact ih.take

theorem Appended.furnished {p : Protocol} (hp : Appended p) : p.Furnished := by
  induction hp with
  | empty =>
      exact ⟨fun _ h => (nomatch h), fun _ h => (nomatch h), fun _ h => (nomatch h),
        fun _ h => (nomatch h)⟩
  | @append p _ label construction hp h ih =>
      rcases Protocol.append_eq_ok h with ⟨-, -, rfl⟩ | ⟨hstatement, hlabel, hfault, rfl⟩
      · exact ⟨ih.construction, ih.members, ih.founders, ih.base⟩
      · have hordered := hp.ordered.take hlabel hfault
        have htaken := ih.take hordered hstatement hfault
        refine htaken.join (s := p.taken { label, construction }) hordered
          (List.mem_append_right _ (List.mem_singleton_self _)) fun hsets => ?_
        have hsome : construction.kind.spec.onSets ≠ [] := by
          intro hnil
          exact hsets (by rw [Step.kind, hnil, List.map_nil])
        exact beq_iff_eq.2 (Kind.category_of_onSets _ hsome)

end Planimetry
