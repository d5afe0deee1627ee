import Planimetry.Proofs.Polynomial.Evaluation
import Planimetry.Proofs.Transformation.Search
import Planimetry.Proofs.Transformation.Total

/-! What a step that cannot be transformed leaves behind: the pass as it was, unless a condition given for a
point leaves a role of its template open. By then the point has coordinates, and what the conditions before that
one have done stays. The conditions that a construction itself gives leave no role open. -/

namespace Planimetry

/-! ### Open roles -/

namespace Condition

/-- The roles of the template that no label plays. -/
def openRoles (c : Condition) : List Label :=
  c.template.roles.filter fun r => (c.roles.lookup r).isNone

variable {t : Template} {names : List Label} {own : Label} {roles : List (Label × Label)}

theorem openRoles_cons (ht : t.IsCovered names) (hnames : roles.map Prod.fst = names) :
    openRoles ⟨t, (Template.own, own) :: roles⟩ = [] := by
  refine List.filter_eq_nil_iff.2 fun r hr => ?_
  subst hnames
  have hmem : r ∈ ((Template.own, own) :: roles).map Prod.fst := ht.2 r hr
  obtain ⟨e, he, heq⟩ := List.mem_map.1 hmem
  have hplayed := List.lookup_isSome_iff.2 ⟨e, he, beq_iff_eq.2 heq.symm⟩
  rw [Bool.not_eq_true, Option.isNone_eq_false_iff]
  exact hplayed

theorem openRoles_both {ts : Template × Template} {way : Alternative}
    (hts : (ts, names) ∈ Template.pairing) (hnames : roles.map Prod.fst = names)
    (hway : way ∈ both own roles ts) : ∀ c ∈ way, c.openRoles = [] := by
  cases List.mem_singleton.1 hway
  obtain ⟨hfst, hsnd⟩ := Template.isCovered_of_mem_pairing hts
  refine List.forall_mem_cons.2 ⟨openRoles_cons hfst hnames, ?_⟩
  exact List.forall_mem_singleton.2 (openRoles_cons hsnd hnames)

end Condition

namespace Protocol

open Template (pairing keeping isCovered_of_mem_keeping)

variable {p : Protocol} {set : Step} {point l : Label} {before : Int}

/-- A condition that keeps a point on a line or circle leaves no role open. -/
theorem openRoles_of_mem_membership {locus : Locus} {c : Condition}
    (hc : c ∈ p.membership set locus point before) : c.openRoles = [] := by
  have hdirected {t : Template} (ht : t.IsCovered ["P", "A", "B"]) {known base : List Label}
      (hc : c ∈ known.flatMap fun through => (pairs base).map fun (ab : Label × Label) =>
        (⟨t, [(Template.own, point), ("P", through), ("A", ab.1), ("B", ab.2)]⟩ : Condition)) :
      c.openRoles = [] := by
    obtain ⟨through, -, hc⟩ := List.mem_flatMap.1 hc
    obtain ⟨ab, -, rfl⟩ := List.mem_map.1 hc
    exact Condition.openRoles_cons ht rfl
  cases locus with
  | lineThrough a b =>
      obtain ⟨ab, -, rfl⟩ := List.mem_map.1 hc
      exact Condition.openRoles_cons (isCovered_of_mem_keeping ["A", "B"] (by simp [keeping])) rfl
  | parallel through line =>
      dsimp only [membership] at hc
      split at hc
      next => cases hc
      next => exact hdirected (isCovered_of_mem_keeping _ (by simp [keeping])) hc
  | perpendicular through line =>
      dsimp only [membership] at hc
      split at hc
      next => cases hc
      next => exact hdirected (isCovered_of_mem_keeping _ (by simp [keeping])) hc
  | bisector a b =>
      cases List.mem_singleton.1 hc
      exact Condition.openRoles_cons (isCovered_of_mem_keeping ["A", "B"] (by simp [keeping])) rfl
  | angleRay a vertex a1 o1 b1 =>
      cases List.mem_singleton.1 hc
      exact Condition.openRoles_cons Template.isCovered_angleRay rfl
  | angleRayToSixty a vertex a1 o1 b1 a2 o2 b2 angle =>
      cases List.mem_singleton.1 hc
      exact Condition.openRoles_cons Template.isCovered_angleRayToSixty rfl
  | circleThrough center through =>
      obtain ⟨through, -, rfl⟩ := List.mem_map.1 hc
      exact Condition.openRoles_cons (isCovered_of_mem_keeping ["O", "A"] (by simp [keeping])) rfl
  | circleWithDiameter a b =>
      cases List.mem_singleton.1 hc
      exact Condition.openRoles_cons (isCovered_of_mem_keeping ["A", "B"] (by simp [keeping])) rfl
  | circumscribed a b c =>
      obtain ⟨abc, -, rfl⟩ := List.mem_map.1 hc
      exact Condition.openRoles_cons (isCovered_of_mem_keeping ["A", "B", "C"] (by simp [keeping])) rfl

theorem openRoles_of_mem_conditionsOn {cs : List Condition}
    (h : p.conditionsOn l point before = .ok cs) : ∀ c ∈ cs, c.openRoles = [] := by
  unfold conditionsOn at h
  split at h
  next => cases h
  next =>
    split at h
    next =>
      cases h
      exact fun c hc => openRoles_of_mem_membership hc
    next => cases h

/-- The conditions that a construction gives leave no role open, whatever the protocol. -/
theorem openRoles_of_mem_pointAlternatives {rule : PointRule} {ways : List Alternative}
    (h : p.pointAlternatives point before rule = .ok ways) :
    ∀ way ∈ ways, ∀ c ∈ way, c.openRoles = [] := by
  have hboth (names : List Label) {roles : List (Label × Label)} {ts : Template × Template}
      (hts : (ts, names) ∈ pairing) (hnames : roles.map Prod.fst = names)
      (h : Except.ok (Condition.both point roles ts) = (.ok ways : Except SetError _)) :
      ∀ way ∈ ways, ∀ c ∈ way, c.openRoles = [] := by
    cases h
    exact fun way hway => Condition.openRoles_both hts hnames hway
  have hsingle {set : Label} (h : (p.conditionsOn set point before).map (List.map fun c => [c]) = .ok ways) :
      ∀ way ∈ ways, ∀ c ∈ way, c.openRoles = [] := by
    cases hcs : p.conditionsOn set point before with
    | error e =>
        rw [hcs] at h
        cases h
    | ok cs =>
        rw [hcs] at h
        cases h
        refine List.forall_mem_map.2 fun c hc => List.forall_mem_singleton.2 ?_
        exact openRoles_of_mem_conditionsOn hcs c hc
  cases rule with
  | free =>
      cases h
      exact List.forall_mem_nil _
  | midpoint a b => exact hboth ["A", "B"] (by simp [pairing]) rfl h
  | onLine set | onCircle set => exact hsingle h
  | intersection l m =>
      obtain ⟨cs, hcs, h⟩ := bind_eq_ok h
      obtain ⟨ds, hds, h⟩ := bind_eq_ok h
      cases h
      intro way hway
      obtain ⟨c, hc, hway⟩ := List.mem_flatMap.1 hway
      obtain ⟨d, hd, rfl⟩ := List.mem_map.1 hway
      refine List.forall_mem_cons.2 ⟨openRoles_of_mem_conditionsOn hcs c hc, ?_⟩
      exact List.forall_mem_singleton.2 (openRoles_of_mem_conditionsOn hds d hd)
  | foot q a b | shifted q a b | reflected q a b => exact hboth ["P", "A", "B"] (by simp [pairing]) rfl h
  | rotated q o | symmetric q o => exact hboth ["P", "O"] (by simp [pairing]) rfl h
  | circleCenter a b c => exact hboth ["A", "B", "C"] (by simp [pairing]) rfl h
  | angleOfSixty => exact hboth [] (by simp [pairing]) rfl h

end Protocol

/-! ### The conditions of a trial -/

namespace Trial

variable {p : Protocol} {t t' : Trial} {c : Condition} {cs : List Condition} {e : TransformError}

/-- The point of a trial has coordinates, and so have all objects that the conditions need. -/
structure Sees (p : Protocol) (t : Trial) (cs : List Condition) : Prop where
  isPlaced : t.point.isPlaced = true
  generators : ∀ c ∈ cs, ∀ g ∈ c.generators, (p.coordinatesFor t.point g).isSome = true

theorem Sees.absorb (h : Sees p t (c :: cs)) (q : Polynomial) : Sees p (t.absorb q) cs := by
  have hplaced := isPlaced_absorb h.isPlaced q
  refine ⟨hplaced, fun d hd g hg => ?_⟩
  have hseen := h.generators d (List.mem_cons_of_mem _ hd) g hg
  have hlabel : (t.absorb q).point.label = t.point.label := label_absorb t q
  unfold Protocol.coordinatesFor at hseen ⊢
  rw [hlabel]
  split at hseen
  next hown =>
    rw [if_pos hown]
    exact hplaced
  next hown =>
    rw [if_neg hown]
    exact hseen

/-- A condition whose objects all have coordinates lacks a polynomial only for its open roles. -/
theorem Sees.polynomialOf_eq_error (h : Sees p t (c :: cs)) (he : p.polynomialOf t.point c = .error e) :
    c.openRoles ≠ [] ∧ e = .missingRoles t.point.label ⟨c.openRoles⟩ := by
  have hgenerators := h.generators c List.mem_cons_self
  have hnone : c.generators.find? (fun g => (p.coordinatesFor t.point g).isNone) = none := by
    refine List.find?_eq_none.2 fun g hg => ?_
    rw [Bool.not_eq_true, Option.isNone_eq_false_iff]
    exact hgenerators g hg
  have hopen : (c.template.roles.filter fun r =>
      ((c.roles.lookup r).bind (p.coordinatesFor t.point)).isNone) = c.openRoles := by
    refine List.filter_congr fun r _ => ?_
    cases hr : c.roles.lookup r with
    | none => rfl
    | some l =>
        obtain ⟨before, after, hroles, -⟩ := List.lookup_eq_some_iff.1 hr
        have hl : l ∈ c.generators := List.mem_map.2 ⟨(r, l), by simp [hroles], rfl⟩
        exact Option.isNone_eq_false_iff.2 (hgenerators l hl)
  unfold Protocol.polynomialOf at he
  simp only [hnone] at he
  cases hinstance : Template.instantiate
      (fun r => (c.roles.lookup r).bind (p.coordinatesFor t.point)) c.template with
  | ok q =>
      rw [hinstance] at he
      cases he
  | error missing =>
      rw [hinstance] at he
      cases he
      obtain ⟨hroles, r, a, hr, hunplayed⟩ := Template.instantiate_eq_error.1 hinstance
      rw [hopen] at hroles
      refine ⟨List.ne_nil_of_mem (a := r) ?_, congr_arg _ (congr_arg MissingRoles.mk hroles)⟩
      rw [← hopen]
      exact List.mem_filter.2 ⟨Template.mem_roles.2 ⟨a, hr⟩, Option.isNone_iff_eq_none.2 hunplayed⟩

/-- The conditions up to the first with open roles are met. -/
theorem Sees.meet_eq_error (h : Sees p t cs) (hmeet : meet p t cs = (t', some e)) :
    ∃ before c after, cs = before ++ c :: after ∧ meet p t before = (t', none) ∧
      c.openRoles ≠ [] ∧ e = .missingRoles t.point.label ⟨c.openRoles⟩ := by
  induction cs generalizing t with
  | nil => cases hmeet
  | cons c cs ih =>
      unfold meet at hmeet
      cases hq : p.polynomialOf t.point c with
      | error e' =>
          simp only [hq] at hmeet
          cases hmeet
          exact ⟨[], c, cs, rfl, rfl, h.polynomialOf_eq_error hq⟩
      | ok q =>
          simp only [hq] at hmeet
          obtain ⟨before, d, after, hcs, hbefore, hopen⟩ := ih (h.absorb q) hmeet
          rw [label_absorb] at hopen
          refine ⟨c :: before, d, after, congr_arg (c :: ·) hcs, ?_, hopen⟩
          unfold meet
          simp only [hq, hbefore]

end Trial

/-! ### Steps that fail -/

namespace Transformation

variable {t t' : Transformation} {position : ℕ} {s : Step} {a : Alternative}
  {alternative : Option Alternative} {e : TransformError}

/-- How a point is left half-way: it has fresh coordinates, the conditions before one with open roles have been
met, and what they have done is recorded. -/
structure Halts (t : Transformation) (position : ℕ) (a : Alternative) (e : TransformError)
    (t' : Transformation) (s : Step) (before : Alternative) (c : Condition) : Prop where
  step : t.protocol.steps[position]? = some s
  placed : t.protocol.unplaced? s a = none
  isPrefix : before ++ [c] <+: a
  isOpen : c.openRoles ≠ []
  error : e = .missingRoles s.label ⟨c.openRoles⟩
  left : ∃ x y p trial,
    t.protocol.freshCoordinates t.align position s.kind.spec.freeCoordinates = ((x, y), p) ∧
    Trial.meet p { point := { s with placement := ⟨some x, some y, .unchanged⟩ } } before =
      (trial, none) ∧ t' = t.commit position trial p

/-- A point that has come half-way has used up variables. -/
theorem Halts.ne {before : Alternative} {c : Condition} (h : t.Halts position a e t' s before c) :
    t' ≠ t := by
  obtain ⟨x, y, p, trial, hfresh, -, rfl⟩ := h.left
  obtain ⟨-, -, ⟨hfreshx, hknown⟩, -⟩ := Protocol.freshCoordinates_eq hfresh
  intro heq
  have hfree : p.freeIndex = t.protocol.freeIndex := congr_arg (fun u => u.protocol.freeIndex) heq
  have hdependent : p.dependentIndex = t.protocol.dependentIndex :=
    congr_arg (fun u => u.protocol.dependentIndex) heq
  exact hfreshx (hknown.mono hfree.le hdependent.le)

theorem Halts.mem {before : Alternative} {c : Condition} (h : t.Halts position a e t' s before c) : c ∈ a :=
  h.isPrefix.subset (List.mem_append_right _ (List.mem_singleton_self c))

/-- Where no object is missing, all that the conditions of a point need has coordinates. -/
theorem sees_of_unplaced? {p : Protocol} (hsteps : p.steps = t.protocol.steps)
    (hpoint : s.isPoint = true) (h : t.protocol.unplaced? s a = none) (x y : Variable) :
    Trial.Sees p { point := { s with placement := ⟨some x, some y, .unchanged⟩ } } a := by
  have hplaced : ({ s with placement := ⟨some x, some y, .unchanged⟩ } : Step).isPlaced = true :=
    Trial.isPlaced_iff.2 ⟨hpoint, x, y, rfl, rfl⟩
  refine ⟨hplaced, fun c hc g hg => ?_⟩
  have hseen := List.find?_eq_none.1 h g (List.mem_flatMap.2 ⟨c, hc, hg⟩)
  unfold Protocol.coordinatesFor at hseen ⊢
  split
  · exact hplaced
  next hown =>
    change g ≠ s.label at hown
    unfold Protocol.get? at hseen ⊢
    rw [hsteps]
    simpa [hown, Option.isSome_iff_ne_none] using hseen

/-- Placing a point fails at once, for an object without coordinates, or half-way. -/
theorem placeBy_eq_error (hs : t.protocol.steps[position]? = some s) (hpoint : s.isPoint = true)
    (h : t.placeBy position s a = (.error e, t')) :
    (∃ g, e = .unplaced s.label g) ∧ t' = t ∨ ∃ before c, t.Halts position a e t' s before c := by
  unfold placeBy at h
  cases hunplaced : t.protocol.unplaced? s a with
  | some g =>
      rw [hunplaced] at h
      cases h
      exact .inl ⟨⟨g, rfl⟩, rfl⟩
  | none =>
      rw [hunplaced] at h
      unfold Trial.run at h
      rcases hfresh : t.protocol.freshCoordinates t.align position s.kind.spec.freeCoordinates with
        ⟨⟨x, y⟩, p⟩
      rw [hfresh] at h
      dsimp only at h
      have hsees := sees_of_unplaced? (Protocol.freshCoordinates_eq hfresh).1 hpoint hunplaced x y
      rcases hmeet : Trial.meet p { point := { s with placement := ⟨some x, some y, .unchanged⟩ } } a
        with ⟨trial, _ | e'⟩
      · rw [hmeet] at h
        cases h
      · rw [hmeet] at h
        cases h
        obtain ⟨before, c, after, rfl, hbefore, hopen, herror⟩ := hsees.meet_eq_error hmeet
        refine .inr ⟨before, c, hs, hunplaced, ⟨after, by simp⟩, hopen, herror, ?_⟩
        exact ⟨x, y, p, trial, hfresh, hbefore, rfl⟩

theorem missingRoles_ne_of_defaultAlternative {p : Protocol} (h : defaultAlternative p s = .error e)
    (l : Label) (m : MissingRoles) : e ≠ .missingRoles l m := by
  unfold defaultAlternative at h
  cases hways : p.alternatives s with
  | error e' =>
      rw [hways] at h
      cases h
      exact nofun
  | ok ways =>
      rw [hways] at h
      cases ways with
      | nil =>
          dsimp only [Except.mapError, bind, Except.bind] at h
          split at h
          · cases h
            exact nofun
          · cases h
      | cons first rest => cases h

/-- The conditions taken by default leave no role open. -/
theorem openRoles_of_defaultAlternative {p : Protocol} {rule : PointRule}
    (hrule : s.construction = .point rule) (h : defaultAlternative p s = .ok a) :
    ∀ c ∈ a, c.openRoles = [] := by
  obtain rfl | ⟨ways, hways, ha⟩ := defaultAlternative_eq_ok h
  · exact List.forall_mem_nil _
  · rw [Protocol.alternatives_of_point hrule] at hways
    exact Protocol.openRoles_of_mem_pointAlternatives hways a ha

/-- What a step that cannot be transformed leaves behind. It leaves the pass as it was, unless the step is a
point that is left half-way, with conditions given for it of which one has open roles. -/
structure Leaves (t : Transformation) (position : ℕ) (alternative : Option Alternative)
    (e : TransformError) (t' : Transformation) : Prop where
  unchanged_iff : t' = t ↔ ∀ l m, e ≠ .missingRoles l m
  of_closed : (∀ a, alternative = some a → ∀ c ∈ a, c.openRoles = []) → t' = t
  halts : t' ≠ t → ∃ a s before c, alternative = some a ∧ t.Halts position a e t' s before c
  grows : t.Grows position t'

/-- Wherever placing a point ends, only its own place and the indices of the next variables have changed, and
hypotheses and factors have been added. -/
theorem grows_placeBy (hs : t.protocol.steps[position]? = some s) (hpoint : s.isPoint = true)
    (a : Alternative) : t.Grows position (t.placeBy position s a).2 := by
  have hgrows := (Work.keeps_place (s := s) a).left { work := t } (.refl t position)
  rw [Work.run_place_eq_transform hs hpoint a, transform_eq_placeBy hs hpoint] at hgrows
  rcases hplace : t.placeBy position s a with ⟨_ | _, t'⟩
  · rw [hplace] at hgrows
    exact hgrows
  · rw [hplace] at hgrows
    exact hgrows

theorem Leaves.of_unchanged (h : ∀ l m, e ≠ .missingRoles l m) : t.Leaves position alternative e t :=
  ⟨iff_of_true rfl h, fun _ => rfl, fun hne => absurd rfl hne, .refl t position⟩

/-- A step that cannot be transformed leaves the pass as it was, or is a point left half-way, for which only its
own place and the indices of the next variables have changed and hypotheses and factors have been added. -/
theorem leaves_transform (h : t.transform position alternative = (.error e, t')) :
    t.Leaves position alternative e t' := by
  unfold transform at h
  cases hs : t.protocol.steps[position]? with
  | none =>
      rw [hs] at h
      cases h
  | some s =>
      cases hconstruction : s.construction with
      | statement relation =>
          simp only [hs, hconstruction] at h
          cases h
          exact .of_unchanged nofun
      | set locus =>
          simp only [hs, hconstruction] at h
          cases h
      | point rule =>
          have hpoint := isPoint_iff.2 ⟨rule, hconstruction⟩
          simp only [hs, hconstruction] at h
          cases alternative with
          | some a =>
              have hplace : t.placeBy position s a = (.error e, t') := h
              have hgrows := grows_placeBy hs hpoint a
              rw [hplace] at hgrows
              obtain ⟨⟨g, rfl⟩, rfl⟩ | ⟨before, c, hhalts⟩ := placeBy_eq_error hs hpoint hplace
              · exact .of_unchanged nofun
              · refine ⟨iff_of_false hhalts.ne fun hne => hne _ _ hhalts.error, fun hclosed => ?_,
                  fun _ => ⟨a, s, before, c, rfl, hhalts⟩, hgrows⟩
                exact absurd (hclosed a rfl c hhalts.mem) hhalts.isOpen
          | none =>
              cases hdefault : defaultAlternative t.protocol s with
              | error e' =>
                  simp only [hdefault] at h
                  cases h
                  exact .of_unchanged (missingRoles_ne_of_defaultAlternative hdefault)
              | ok a =>
                  simp only [hdefault] at h
                  obtain ⟨⟨g, rfl⟩, rfl⟩ | ⟨before, c, hhalts⟩ := placeBy_eq_error hs hpoint h
                  · exact .of_unchanged nofun
                  · have hclosed := openRoles_of_defaultAlternative hconstruction hdefault
                    exact absurd (hclosed c hhalts.mem) hhalts.isOpen

theorem leaves_linePass :
    (linePass.transform 4 lineAlternatives[0]?).1 = .error (.missingRoles "E" ⟨["B"]⟩) ∧
    linePass.Leaves 4 lineAlternatives[0]? (.missingRoles "E" ⟨["B"]⟩)
      (linePass.transform 4 lineAlternatives[0]?).2 := by
  have herror : (linePass.transform 4 lineAlternatives[0]?).1 =
      .error (.missingRoles "E" ⟨["B"]⟩) := by decide +kernel
  exact ⟨herror, leaves_transform (Prod.ext herror rfl)⟩

/-- The second of two conditions fails for its open role. By then the point has used up two variables and has
coordinates, and the first condition is in the system. -/
theorem halfway_linePass :
    (linePass.transform 4 lineAlternatives[0]?).1 = .error (.missingRoles "E" ⟨["B"]⟩) ∧
    let left := (linePass.transform 4 lineAlternatives[0]?).2
    left.protocol.freeIndex = linePass.protocol.freeIndex + 1 ∧
    left.protocol.dependentIndex = linePass.protocol.dependentIndex + 1 ∧
    left.system.length = linePass.system.length + 1 ∧
    (linePass.protocol.steps[4]?).map Step.isPlaced = some false ∧
    (left.protocol.steps[4]?).map Step.isPlaced = some true := by
  decide +kernel

end Transformation
end Planimetry
