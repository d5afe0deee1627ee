import Planimetry.Proofs.Figure.Binding
import Planimetry.Proofs.Transformation.Pass

/-! The pass never fails: when it reaches a point, all points before it have coordinates. -/

namespace Planimetry

/-- A step apart from its coordinates. -/
def Step.bare (s : Step) : Step := { s with placement := {} }

namespace Step

variable {s t : Step}

theorem members_of_bare (h : t.bare = s.bare) : t.members = s.members := by
  have hmembers : t.bare.members = s.bare.members := by rw [h]
  exact hmembers

theorem core_of_bare (h : t.bare = s.bare) : t.core = s.core := by
  have hcore : t.bare.core = s.bare.core := by rw [h]
  exact hcore

theorem extends_of_bare (h : t.bare = s.bare) : s.Extends t :=
  ⟨core_of_bare h, members_of_bare h ▸ .refl _⟩

end Step

namespace Protocol

variable {p q : Protocol} {s : Step}

theorem map_core_of_bare (h : q.steps.map Step.bare = p.steps.map Step.bare) :
    q.steps.map Step.core = p.steps.map Step.core := by
  have hcore := congr_arg (List.map Step.core) h
  rwa [List.map_map, List.map_map] at hcore

theorem exists_bare_eq (h : q.steps.map Step.bare = p.steps.map Step.bare) (hs : s ∈ p.steps) :
    ∃ t ∈ q.steps, t.bare = s.bare := by
  have hbare : s.bare ∈ q.steps.map Step.bare := h ▸ List.mem_map_of_mem hs
  obtain ⟨t, ht, heq⟩ := List.mem_map.1 hbare
  exact ⟨t, ht, heq⟩

/-- Coordinates do not matter for the members of lines and circles. -/
theorem Furnished.of_bare (hp : p.Furnished) (hordered : p.Ordered)
    (h : q.steps.map Step.bare = p.steps.map Step.bare) : q.Furnished := by
  have hextends : p.Extends q := fun s hs =>
    (exists_bare_eq h hs).imp fun t ht => ⟨ht.1, Step.extends_of_bare ht.2⟩
  have hback : ∀ t ∈ q.steps, ∃ s ∈ p.steps, s.bare = t.bare := fun t ht => exists_bare_eq h.symm ht
  refine hp.of_extends (hordered.of_core (map_core_of_bare h)) hextends (fun t ht => ?_)
    fun t ht l hl => ?_
  · obtain ⟨s, hs, hst⟩ := hback t ht
    exact ⟨s, hs, Step.extends_of_bare hst.symm⟩
  · obtain ⟨s, hs, hst⟩ := hback t ht
    obtain ⟨u, hu, rfl, hpoint⟩ := hp.members s hs l (Step.members_of_bare hst ▸ hl)
    obtain ⟨v, hv, huv⟩ := hextends u hu
    exact ⟨v, hv, huv.label, huv.isPoint.trans hpoint⟩

end Protocol

namespace Trial

variable {p : Protocol} {t t' : Trial} {q : Polynomial} {c : Condition} {cs : List Condition}

theorem bare_absorb (t : Trial) (q : Polynomial) : (t.absorb q).point.bare = t.point.bare := by
  rcases t.absorb_cases q with ⟨-, h⟩ | ⟨-, h⟩ | ⟨axis, own, w, -, -, h⟩
  · rw [h]
  · rw [h]
  · rw [h]
    rfl

theorem bare_settle (t : Trial) : t.settle.point.bare = t.point.bare := by
  unfold settle
  split <;> rfl

theorem isPlaced_iff {s : Step} :
    s.isPlaced = true ↔ s.isPoint = true ∧ ∃ x y, s.placement.x = some x ∧ s.placement.y = some y := by
  unfold Step.isPlaced Step.coordinates? Placement.coordinates?
  cases s.isPoint <;> cases s.placement.x <;> cases s.placement.y <;> simp

/-- Renaming leaves both coordinates of a point. -/
theorem isPlaced_absorb (ht : t.point.isPlaced = true) (q : Polynomial) :
    (t.absorb q).point.isPlaced = true := by
  obtain ⟨hpoint, x, y, hx, hy⟩ := isPlaced_iff.1 ht
  refine isPlaced_iff.2 ⟨(isPoint_of_core (core_absorb t q)).trans hpoint, ?_⟩
  rcases t.absorb_cases q with ⟨-, h⟩ | ⟨-, h⟩ | ⟨axis, own, w, -, -, h⟩ <;> rw [h]
  · exact ⟨x, y, hx, hy⟩
  · exact ⟨x, y, hx, hy⟩
  · cases axis with
    | x => exact ⟨w, y, rfl, hy⟩
    | y => exact ⟨x, w, hx, rfl⟩

theorem isPlaced_settle (ht : t.point.isPlaced = true) : t.settle.point.isPlaced = true := by
  rw [isPlaced_iff] at ht ⊢
  rwa [x_settle, y_settle, isPoint_of_core (core_settle t)]

end Trial

/-- All points before a step have coordinates. -/
def Protocol.HasGenerators (p : Protocol) (s : Step) : Prop :=
  ∀ l, p.HasEarlierPoint s l → ((p.get? l).bind Step.coordinates?).isSome = true

section Steps

variable {p q : Protocol} {s : Step} {c : Condition}

theorem Protocol.HasGenerators.of_steps (h : p.HasGenerators s) (hsteps : q.steps = p.steps) :
    q.HasGenerators s := by
  unfold HasGenerators HasEarlierPoint get? at h ⊢
  rwa [hsteps]

theorem Condition.Binds.of_steps (h : c.Binds p s) (hsteps : q.steps = p.steps) : c.Binds q s := by
  refine ⟨h.own, fun e he => ?_, h.nodup, h.covers⟩
  have hearlier := h.earlier e he
  unfold Protocol.HasEarlierPoint at hearlier ⊢
  rwa [hsteps]

end Steps

namespace Trial

variable {p : Protocol} {s : Step} {t : Trial} {c : Condition} {cs : List Condition}

/-- A condition that binds a point with coordinates to points that have them too has a polynomial. -/
theorem exists_polynomialOf (hp : p.HasGenerators s) (hc : c.Binds p s)
    (hlabel : t.point.label = s.label) (hplaced : t.point.isPlaced = true) :
    ∃ q, p.polynomialOf t.point c = .ok q := by
  have hcoordinates : ∀ e ∈ c.roles, (p.coordinatesFor t.point e.2).isSome = true := by
    intro e he
    unfold Protocol.coordinatesFor
    split
    · exact hplaced
    next hne =>
      rcases hc.earlier e he with rfl | ⟨-, hearlier⟩
      · exact absurd hlabel.symm hne
      · exact hp e.2 hearlier
  have hroles : ∀ r ∈ c.template.roles,
      ((c.roles.lookup r).bind (p.coordinatesFor t.point)).isSome = true := by
    intro r hr
    obtain ⟨e, he, heq⟩ := List.mem_map.1 (hc.covers r hr)
    have hsome : (c.roles.lookup r).isSome = true :=
      List.lookup_isSome_iff.2 ⟨e, he, beq_iff_eq.2 heq.symm⟩
    obtain ⟨l, hl⟩ := Option.isSome_iff_exists.1 hsome
    obtain ⟨before, after, hsplit, -⟩ := List.lookup_eq_some_iff.1 hl
    rw [hl]
    exact hcoordinates (r, l) (by simp [hsplit])
  have hgenerators : c.generators.find? (fun g => (p.coordinatesFor t.point g).isNone) = none := by
    rw [List.find?_eq_none]
    intro g hg
    obtain ⟨e, he, rfl⟩ := List.mem_map.1 hg
    simp [Option.isSome_iff_ne_none.1 (hcoordinates e he)]
  unfold Protocol.polynomialOf
  simp only [hgenerators]
  unfold Template.instantiate
  simp only [Template.checkRoles_eq_ok.2 hroles]
  exact ⟨_, rfl⟩

/-- Conditions that bind a point to points with coordinates are all met. -/
theorem exists_meet (hp : p.HasGenerators s) (hcs : ∀ c ∈ cs, c.Binds p s)
    (hbare : t.point.bare = s.bare) (hplaced : t.point.isPlaced = true) :
    ∃ t', meet p t cs = (t', none) ∧ t'.point.bare = s.bare ∧ t'.point.isPlaced = true := by
  induction cs generalizing t with
  | nil => exact ⟨t, rfl, hbare, hplaced⟩
  | cons c cs ih =>
      obtain ⟨hc, hcs⟩ := List.forall_mem_cons.1 hcs
      obtain ⟨q, hq⟩ := exists_polynomialOf hp hc (congr_arg Prod.fst (Step.core_of_bare hbare)) hplaced
      unfold meet
      simp only [hq]
      exact ih hcs ((bare_absorb t q).trans hbare) (isPlaced_absorb hplaced q)

end Trial

namespace Transformation

/-- The pass has not changed the steps but for coordinates, and the first points have got theirs. -/
structure Reaches (p : Protocol) (n : ℕ) (t : Transformation) : Prop where
  bare : t.protocol.steps.map Step.bare = p.steps.map Step.bare
  placed : ∀ s ∈ t.protocol.steps, s.isPoint = true → s.index < n → s.isPlaced = true

variable {p : Protocol} {t : Transformation} {s : Step} {n i : ℕ} {a : Alternative}
  {ways : List Alternative}

/-- The points before a step that is reached have coordinates. -/
theorem Reaches.hasGenerators (ht : t.Reaches p n) (hp : t.protocol.Ordered)
    (hs : t.protocol.steps[n]? = some s) : t.protocol.HasGenerators s := by
  rintro l ⟨m, hm, rfl, hpoint, hlt⟩
  rw [hp.get?_eq hm]
  exact ht.placed m hm hpoint (hp.index n s hs ▸ hlt)

/-- The pass reaches the next step when the last one has coordinates. -/
theorem Reaches.succ (ht : t.Reaches p n) (hp : t.protocol.Ordered)
    (h : ∀ s, t.protocol.steps[n]? = some s → s.isPoint = true → s.isPlaced = true) :
    t.Reaches p (n + 1) := by
  refine ⟨ht.bare, fun s hs hpoint hlt => ?_⟩
  obtain ⟨j, hj⟩ := List.mem_iff_getElem?.1 hs
  have hindex := hp.index j s hj
  by_cases hjn : j = n
  · exact h s (hjn ▸ hj) hpoint
  · exact ht.placed s hs hpoint (by omega)

theorem exists_choice (h : t.protocol.Bound s ways) :
    ∃ a, t.choice i s = .ok a ∧ ∀ b, a = some b → b ∈ ways := by
  have hok : ∃ a, t.choice i s = .ok a := by
    unfold choice
    rw [h.alternatives]
    simp only [Except.mapError, bind, Except.bind, pure, Except.pure]
    split
    · split
      · exact ⟨_, rfl⟩
      · exact ⟨_, rfl⟩
    · exact ⟨_, rfl⟩
  obtain ⟨a, ha⟩ := hok
  refine ⟨a, ha, fun b hb => ?_⟩
  obtain ⟨ways', hways', hmem⟩ := choice_eq_ok (hb ▸ ha)
  rw [h.alternatives] at hways'
  cases hways'
  exact hmem

theorem exists_defaultAlternative (h : t.protocol.Bound s ways) :
    ∃ a, defaultAlternative t.protocol s = .ok a ∧ (a = [] ∨ a ∈ ways) := by
  unfold defaultAlternative
  rw [h.alternatives]
  simp only [Except.mapError, bind, Except.bind, pure, Except.pure]
  cases ways with
  | nil =>
      have hnone : ¬s.kind.hasConditions = true := fun hconditions => h.ne_nil hconditions rfl
      exact ⟨[], if_neg hnone, .inl rfl⟩
  | cons first rest => exact ⟨first, rfl, .inr List.mem_cons_self⟩

/-- A reached point gets its coordinates from conditions that bind it to earlier points. -/
theorem exists_placeBy (ht : t.Reaches p n) (hp : t.protocol.Ordered)
    (hs : t.protocol.steps[n]? = some s) (hpoint : s.isPoint = true)
    (ha : ∀ c ∈ a, c.Binds t.protocol s) :
    ∃ qs t', t.placeBy n s a = (.ok qs, t') ∧ t'.Reaches p (n + 1) := by
  have hgenerators := ht.hasGenerators hp hs
  have hplaced : t.protocol.unplaced? s a = none := by
    unfold Protocol.unplaced?
    rw [List.find?_eq_none]
    intro g hg
    obtain ⟨c, hc, hg⟩ := List.mem_flatMap.1 hg
    obtain ⟨e, he, rfl⟩ := List.mem_map.1 hg
    rcases (ha c hc).earlier e he with rfl | ⟨-, hearlier⟩
    · simp
    · have hsome := hgenerators e.2 hearlier
      by_cases hown : e.2 = s.label
      · simp [hown]
      · simp [Protocol.coordinatesFor, hown, Option.isSome_iff_ne_none.1 hsome]
  obtain ⟨⟨⟨x, y⟩, p'⟩, hfresh⟩ : ∃ f, t.protocol.freshCoordinates t.align n
      s.kind.spec.freeCoordinates = f := ⟨_, rfl⟩
  have hsteps := (Protocol.freshCoordinates_eq hfresh).1
  obtain ⟨trial, hmeet, hbare, htrial⟩ := Trial.exists_meet (p := p')
    (t := { point := { s with placement := ⟨some x, some y, .unchanged⟩ } })
    (hgenerators.of_steps hsteps) (fun c hc => (ha c hc).of_steps hsteps) rfl
    (Trial.isPlaced_iff.2 ⟨hpoint, x, y, rfl, rfl⟩)
  have hrun : Trial.run t.protocol t.align n s a = (trial.settle, p', none) := by
    unfold Trial.run
    simp only [hfresh, hmeet]
  refine ⟨trial.settle.hypotheses, t.commit n trial.settle p', ?_, ?_⟩
  · unfold placeBy
    simp only [hplaced, hrun]
  have hmodify : (t.commit n trial.settle p').protocol.steps.map Step.bare = p.steps.map Step.bare := by
    rw [← ht.bare, ← hsteps]
    refine Protocol.map_modify_of_eq Step.bare n fun u hu => ?_
    rw [hsteps, hs] at hu
    cases hu
    rw [Trial.bare_settle, hbare]
  have hsame : (t.commit n trial.settle p').Reaches p n := by
    refine ⟨hmodify, forall_mem_modify (fun u hu => ?_) fun _ _ => Trial.isPlaced_settle htrial⟩
    rw [hsteps] at hu
    exact ht.placed u hu
  refine hsame.succ (hp.of_core (Protocol.map_core_of_bare (hmodify.trans ht.bare.symm))) ?_
  intro u hu _
  have hat : (t.commit n trial.settle p').protocol.steps[n]? = some trial.settle.point := by
    change (p'.steps.modify n fun _ => trial.settle.point)[n]? = _
    rw [List.getElem?_modify_eq, hsteps, hs]
    rfl
  rw [hat] at hu
  cases hu
  exact Trial.isPlaced_settle htrial

theorem category_statement {relation : Relation} (h : s.construction = .statement relation) :
    s.category = .statement := by
  unfold Step.category
  rw [h]
  cases relation <;> rfl

/-- The pass goes on from each step that it reaches. -/
theorem exists_advance (ht : t.Reaches p n) (hp : p.Ordered) (hfurnished : p.Furnished)
    (haccepted : p.Accepted) :
    ∃ qs t', t.advance n = (.ok qs, t') ∧ t'.Reaches p (n + 1) := by
  have hcore := Protocol.map_core_of_bare ht.bare
  have hordered := hp.of_core hcore
  have hfurnished' := hfurnished.of_bare hp ht.bare
  unfold advance
  cases hs : t.protocol.steps[n]? with
  | none =>
      refine ⟨[], t, rfl, ht.succ hordered fun s hs' => ?_⟩
      rw [hs] at hs'
      cases hs'
  | some s =>
      have hmem : s ∈ t.protocol.steps := List.mem_of_getElem? hs
      have hsucc (h : s.isPoint = true → s.isPlaced = true) : t.Reaches p (n + 1) := by
        refine ht.succ hordered fun u hu => ?_
        rw [hs] at hu
        cases hu
        exact h
      cases hplaced : s.isPlaced with
      | true => exact ⟨[], t, by simp only [hplaced, if_true], hsucc fun _ => hplaced⟩
      | false =>
          simp only [hplaced, Bool.false_eq_true, if_false]
          cases hconstruction : s.construction with
          | point rule =>
              have hpoint := isPoint_iff.2 ⟨rule, hconstruction⟩
              obtain ⟨ways, hbound⟩ := Protocol.exists_bound hordered hfurnished'
                (haccepted.of_core hcore) hmem hconstruction
              obtain ⟨choice, hchoice, hchosen⟩ := exists_choice (i := n) hbound
              simp only [hchoice]
              unfold transform
              simp only [hs, hconstruction]
              cases choice with
              | some a => exact exists_placeBy ht hordered hs hpoint (hbound.binds a (hchosen a rfl)).2
              | none =>
                  obtain ⟨a, hdefault, ha⟩ := exists_defaultAlternative hbound
                  simp only [hdefault]
                  refine exists_placeBy ht hordered hs hpoint ?_
                  rcases ha with rfl | ha
                  · exact List.forall_mem_nil _
                  · exact (hbound.binds a ha).2
          | set locus =>
              have hpoint : s.isPoint = false := by
                rw [Bool.eq_false_iff]
                intro h
                obtain ⟨rule, hrule⟩ := isPoint_iff.1 h
                rw [hconstruction] at hrule
                cases hrule
              refine ⟨[], t, ?_, hsucc fun h => absurd h (Bool.eq_false_iff.1 hpoint)⟩
              simp [choice, hpoint, transform, hs, hconstruction, pure, Except.pure]
          | statement relation =>
              exact absurd (category_statement hconstruction) (hfurnished'.construction s hmem)

theorem exists_advanceAll (m : ℕ) (ht : t.Reaches p n) (hp : p.Ordered) (hfurnished : p.Furnished)
    (haccepted : p.Accepted) :
    ∃ t', t.advanceAll (List.range' n m) = (none, t') ∧ t'.Reaches p (n + m) := by
  induction m generalizing n t with
  | zero => exact ⟨t, rfl, ht⟩
  | succ m ih =>
      obtain ⟨qs, t', hadvance, ht'⟩ := exists_advance ht hp hfurnished haccepted
      rw [List.range'_succ]
      unfold advanceAll
      simp only [hadvance]
      obtain ⟨t'', hrun, ht''⟩ := ih ht'
      exact ⟨t'', hrun, by rwa [Nat.add_right_comm] at ht''⟩

theorem exists_run {p : Protocol} (hp : Appended p) (best align : Bool) :
    ∃ t, run { protocol := p, best, align } = (none, t) ∧
      t.protocol.steps.map Step.bare = p.steps.map Step.bare ∧
      ∀ s ∈ t.protocol.points, s.isPlaced = true := by
  have hstart : Reaches p 0 { protocol := p, best, align } := by
    refine ⟨rfl, fun s hs _ hlt => ?_⟩
    obtain ⟨i, hi⟩ := List.mem_iff_getElem?.1 hs
    have hindex := hp.ordered.index i s hi
    omega
  obtain ⟨t, hrun, ht⟩ := exists_advanceAll p.size hstart hp.ordered hp.furnished hp.accepted
  refine ⟨t, ?_, ht.bare, fun s hs => ?_⟩
  · unfold run
    rw [List.range_eq_range']
    exact hrun
  · obtain ⟨hmem, hpoint⟩ := List.mem_filter.1 hs
    obtain ⟨i, hi⟩ := List.mem_iff_getElem?.1 hmem
    have hlength : t.protocol.steps.length = p.steps.length := by
      simpa using congr_arg List.length ht.bare
    have hindex := (hp.ordered.of_core (Protocol.map_core_of_bare ht.bare)).index i s hi
    have hlt := (List.getElem?_eq_some_iff.1 hi).1
    refine ht.placed s hmem hpoint ?_
    unfold Protocol.size
    omega

/-- The pass over a protocol that grew by appending fails at no step and gives coordinates to all points.
Each condition of a point binds it to points constructed earlier, and only free points have none. -/
theorem exists_run_isPlaced {p : Protocol} (hp : Appended p) (best align : Bool) :
    (∃ t, run { protocol := p, best, align } = (none, t) ∧
      t.protocol.steps.map Step.bare = p.steps.map Step.bare ∧
      ∀ s ∈ t.protocol.points, s.isPlaced = true) ∧
    ∀ s ∈ p.points, ∃ ways, p.Bound s ways := by
  refine ⟨exists_run hp best align, fun s hs => ?_⟩
  obtain ⟨hmem, hpoint⟩ := List.mem_filter.1 hs
  obtain ⟨rule, hrule⟩ := isPoint_iff.1 hpoint
  exact Protocol.exists_bound hp.ordered hp.furnished hp.accepted hmem hrule

section Placed

variable {t : Transformation}

/-- A step that is placed already, or has no place, changes nothing. -/
theorem advance_of_isPlaced (hplaced : ∀ s ∈ t.protocol.points, s.isPlaced = true)
    (hstatement : ∀ s ∈ t.protocol.steps, s.category ≠ .statement) (i : ℕ) :
    t.advance i = (.ok [], t) := by
  unfold advance
  cases hs : t.protocol.steps[i]? with
  | none => rfl
  | some s =>
      have hmem := List.mem_of_getElem? hs
      by_cases hpoint : s.isPoint = true
      · exact if_pos (hplaced s (List.mem_filter.2 ⟨hmem, hpoint⟩))
      · have hunplaced : s.isPlaced = false := by
          unfold Step.isPlaced Step.coordinates?
          rw [if_neg hpoint]
          rfl
        have hchoice : t.choice i s = .ok none := by
          unfold choice
          rw [Bool.eq_false_iff.2 hpoint]
          rfl
        dsimp only
        rw [hunplaced, hchoice]
        unfold transform
        rw [hs]
        cases hconstruction : s.construction with
        | point rule => exact absurd (isPoint_iff.2 ⟨rule, hconstruction⟩) hpoint
        | set locus => simp [hconstruction]
        | statement relation =>
            exact absurd (category_statement hconstruction) (hstatement s hmem)

theorem advanceAll_of_isPlaced (hplaced : ∀ s ∈ t.protocol.points, s.isPlaced = true)
    (hstatement : ∀ s ∈ t.protocol.steps, s.category ≠ .statement) (is : List ℕ) :
    t.advanceAll is = (none, t) := by
  induction is with
  | nil => rfl
  | cons i is ih =>
      unfold advanceAll
      rw [advance_of_isPlaced hplaced hstatement i]
      exact ih

end Placed

/-- A line parallel to one that is perpendicular to a side of a triangle, with its intersection with the
circumscribed circle and a ray from there. -/
def nestedFigure : Protocol :=
  .figure [("A", .point .free), ("B", .point .free), ("C", .point .free),
    ("l", .set (.lineThrough "A" "B")), ("m", .set (.perpendicular "C" "l")),
    ("R", .point (.onLine "m")), ("n", .set (.parallel "A" "m")),
    ("k", .set (.circumscribed "A" "B" "C")), ("P", .point (.intersection "n" "k")),
    ("r", .set (.angleRay "A" "P" "A" "B" "C")), ("Q", .point (.intersection "r" "l"))]

theorem exists_run_nestedFigure : nestedFigure.size = 11 ∧
    ∃ t, run { protocol := nestedFigure, best := true, align := true } = (none, t) ∧
      t.protocol.steps.map Step.bare = nestedFigure.steps.map Step.bare ∧
      ∀ s ∈ t.protocol.points, s.isPlaced = true :=
  ⟨by decide +kernel, (exists_run_isPlaced (appended_figure _) true true).1⟩

end Transformation
end Planimetry
