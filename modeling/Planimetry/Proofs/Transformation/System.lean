import Planimetry.Proofs.Transformation.Hypothesis

/-! The system after the pass: the conditions of all committed alternatives at the final coordinates, each
once and in order, but for those of points of which a coordinate was renamed twice. -/

namespace Planimetry

namespace Protocol

/-- The coordinates of the object with a label. -/
def coordinates? (p : Protocol) (l : Label) : Option (Variable × Variable) :=
  (p.get? l).bind Step.coordinates?

/-- A coordinate of the point is renamed by the first condition of its alternative, and the variable
that it gets there is renamed by the second one. -/
def renamesAgain (p : Protocol) (c : Commitment) : Bool :=
  match p.get? c.label with
  | none => false
  | some s => (Transformation.Commits.initial c s).renamesAgain p c.alternative

/-- The polynomials of committed conditions at the coordinates of a protocol, apart from zero and from
those that are lost, with the labels of their points. -/
def hypothesesOf (p : Protocol) (lost : Commitment → Bool) :
    List Commitment → Except MissingRoles (List Hypothesis)
  | [] => .ok []
  | c :: cs => do
    let qs ← Condition.polynomialsAt p.coordinates? c.alternative
    let rest ← hypothesesOf p lost cs
    return (if lost c then [] else (Polynomial.nonzero qs).map fun q => ⟨q, c.label⟩) ++ rest

end Protocol

section Coordinates

variable {p q : Protocol} {s : Step} {c : Condition} {cs : List Condition} {r : Polynomial}
  {rs : List Polynomial} {coordinates coordinates' : Label → Option (Variable × Variable)}

/-- The polynomial of a condition stays the same when other objects keep their coordinates. -/
theorem Protocol.polynomialOf_mono (hc : c.template.IsPure)
    (hcoordinates : ∀ l uv, p.coordinates? l = some uv → q.coordinates? l = some uv)
    (h : p.polynomialOf s c = .ok r) : q.polynomialOf s c = .ok r := by
  have hfor : ∀ l uv, p.coordinatesFor s l = some uv → q.coordinatesFor s l = some uv := by
    intro l uv huv
    unfold coordinatesFor at huv ⊢
    split at huv
    next hl => rwa [if_pos hl]
    next hl =>
      rw [if_neg hl]
      exact hcoordinates l uv huv
  have hat := polynomialOf_eq_ok h
  have hgenerators : c.generators.find? (fun g => (q.coordinatesFor s g).isNone) = none := by
    unfold polynomialOf at h
    split at h
    next => cases h
    next hnone =>
      rw [List.find?_eq_none] at hnone ⊢
      intro g hg
      have hsome := hnone g hg
      rw [Option.isNone_iff_eq_none] at hsome ⊢
      obtain ⟨uv, huv⟩ := Option.ne_none_iff_exists'.1 hsome
      rw [hfor g uv huv]
      exact Option.some_ne_none uv
  unfold polynomialOf
  simp only [hgenerators]
  rw [Template.instantiate_mono hc (fun r uv huv => ?_) hat]
  · rfl
  · obtain ⟨l, hl, huv⟩ := Option.bind_eq_some_iff.1 huv
    rw [hl]
    exact hfor l uv huv

end Coordinates

namespace Trial

variable {p q : Protocol} {t t' : Trial} {cs : List Condition}

theorem bare_meet (h : meet p t cs = (t', none)) : t'.point.bare = t.point.bare := by
  induction cs generalizing t with
  | nil =>
      cases h
      rfl
  | cons c cs ih =>
      obtain ⟨q, -, h⟩ := meet_cons h
      exact (ih h).trans (bare_absorb t q)

theorem isPlaced_meet (h : meet p t cs = (t', none)) (ht : t.point.isPlaced = true) :
    t'.point.isPlaced = true := by
  induction cs generalizing t with
  | nil =>
      cases h
      exact ht
  | cons c cs ih =>
      obtain ⟨q, -, h⟩ := meet_cons h
      exact ih h (isPlaced_absorb ht q)

/-- Whether a renaming is repeated depends on the coordinates of other objects only. -/
theorem renamesAgain_of_meet (hcs : ∀ c ∈ cs, c.template.IsPure)
    (hcoordinates : ∀ l uv, p.coordinates? l = some uv → q.coordinates? l = some uv)
    (h : meet p t cs = (t', none)) : t.renamesAgain q cs = t.renamesAgain p cs := by
  match cs with
  | [] => rfl
  | [c] => rfl
  | [c, d] =>
      obtain ⟨r, hr, h⟩ := meet_cons h
      obtain ⟨u, hu, -⟩ := meet_cons h
      obtain ⟨hc, hd⟩ := List.forall_mem_cons.1 hcs
      have hd := hd d List.mem_cons_self
      unfold renamesAgain
      simp only [hr, hu, Protocol.polynomialOf_mono hc hcoordinates hr,
        Protocol.polynomialOf_mono hd hcoordinates hu]
  | c :: d :: e :: cs => rfl

end Trial

namespace Transformation

variable {p p' : Protocol} {t t' : Transformation} {position : ℕ} {c : Commitment} {s : Step}
  {trial : Trial} {qs : List Polynomial} {is : List ℕ}

theorem isPlaced_of_commitment? (h : t.commitment? position = some c)
    (hs : t.protocol.steps[position]? = some s) : s.isPlaced = false := by
  unfold commitment? at h
  simp only [hs] at h
  cases hplaced : s.isPlaced with
  | false => rfl
  | true => simp [hplaced] at h

/-- A commitment leaves the steps that have coordinates as they are. -/
theorem Commits.mem_of_isPlaced (h : t.Commits position c s p' trial) (hs : s.isPlaced = false) :
    ∀ u ∈ t.protocol.steps, u.isPlaced = true →
      u ∈ (t.commit position trial.settle p').protocol.steps := by
  intro u hu hplaced
  obtain ⟨j, hj⟩ := List.mem_iff_getElem?.1 hu
  have hne : position ≠ j := by
    rintro rfl
    rw [h.step] at hj
    cases hj
    rw [hs] at hplaced
    cases hplaced
  refine List.mem_of_getElem? (i := j) ?_
  change (p'.steps.modify position _)[j]? = _
  rw [List.getElem?_modify_ne _ _ hne, h.steps, hj]

theorem mem_of_advanceAll (h : t.advanceAll is = (none, t')) :
    ∀ u ∈ t.protocol.steps, u.isPlaced = true → u ∈ t'.protocol.steps := by
  induction is generalizing t with
  | nil =>
      cases h
      exact fun u hu _ => hu
  | cons i is ih =>
      obtain ⟨qs, hadvance, h⟩ := advanceAll_cons h
      intro u hu hplaced
      refine ih h u ?_ hplaced
      rcases advance_eq_ok hadvance with ⟨-, heq⟩ | ⟨c, s, p', trial, hsome, hcommits, heq⟩
      · rwa [heq]
      · rw [heq]
        exact hcommits.mem_of_isPlaced (isPlaced_of_commitment? hsome hcommits.step) u hu hplaced

/-- A step that has coordinates keeps them under its label. -/
theorem coordinates?_of_mem (hp' : p'.Ordered)
    (hmem : ∀ u ∈ p.steps, u.isPlaced = true → u ∈ p'.steps) {l : Label} {uv : Variable × Variable}
    (h : p.coordinates? l = some uv) : p'.coordinates? l = some uv := by
  obtain ⟨u, hu, huv⟩ := Option.bind_eq_some_iff.1 h
  obtain ⟨hsteps, rfl⟩ := Protocol.mem_of_get? hu
  have hplaced : u.isPlaced = true := by
    unfold Step.isPlaced
    rw [huv]
    rfl
  unfold Protocol.coordinates?
  rw [hp'.get?_eq (hmem u hsteps hplaced)]
  exact huv

namespace Commits

/-- The hypotheses of a commitment are its conditions at the coordinates that the point gets. -/
theorem hypotheses_eq (h : t.Commits position c s p' trial) (hp : t.protocol.Ordered)
    (hknown : Trial.CoordinatesSatisfy t.protocol.Knows t.protocol) :
    ∃ qs, Condition.polynomialsAt (p'.coordinatesFor trial.point) c.alternative = .ok qs ∧
      trial.hypotheses =
        if (initial c s).renamesAgain p' c.alternative then [] else Polynomial.nonzero qs := by
  obtain ⟨hlength, hplaces⟩ := h.places hp
  by_cases hnil : c.alternative = []
  · have hmeet := h.meet
    rw [hnil] at hmeet ⊢
    cases hmeet
    exact ⟨[], rfl, rfl⟩
  · exact (h.isFresh hknown hnil).hypotheses_meet rfl hlength (fun d hd => (hplaces d hd).isPure) h.meet

theorem isPlaced (h : t.Commits position c s p' trial) : trial.settle.point.isPlaced = true :=
  Trial.isPlaced_settle
    (Trial.isPlaced_meet h.meet (Trial.isPlaced_iff.2 ⟨h.isPoint, c.x, c.y, rfl, rfl⟩))

theorem label_settle (h : t.Commits position c s p' trial) : trial.settle.point.label = c.label :=
  ((congr_arg Prod.fst (Trial.core_settle trial)).trans h.label_trial).trans h.label.symm

/-- The committed point would be placed again from the same start. -/
theorem initial_settle (h : t.Commits position c s p' trial) :
    initial c trial.settle.point = initial c s := by
  have hbare : trial.settle.point.bare = s.bare :=
    (Trial.bare_settle trial).trans (Trial.bare_meet h.meet)
  unfold initial
  have hsame (u : Step) : { u with placement := ⟨some c.x, some c.y, .unchanged⟩ } =
      ({ u.bare with placement := ⟨some c.x, some c.y, .unchanged⟩ } : Step) := rfl
  rw [hsame, hbare, ← hsame]

theorem mem_commit (h : t.Commits position c s p' trial) :
    trial.settle.point ∈ (t.commit position trial.settle p').protocol.steps := by
  refine List.mem_of_getElem? (i := position) ?_
  change (p'.steps.modify position fun _ => trial.settle.point)[position]? = _
  rw [List.getElem?_modify_eq, h.steps, h.step]
  rfl

/-- A later protocol in which all points with coordinates keep them has the hypotheses of a commitment as
those of its conditions. -/
theorem hypotheses_final {q : Protocol} (h : t.Commits position c s p' trial)
    (hunplaced : s.isPlaced = false) (hp : t.protocol.Ordered)
    (hknown : Trial.CoordinatesSatisfy t.protocol.Knows t.protocol) (hq : q.Ordered)
    (hstays : ∀ u ∈ (t.commit position trial.settle p').protocol.steps, u.isPlaced = true → u ∈ q.steps) :
    ∃ qs, Condition.polynomialsAt q.coordinates? c.alternative = .ok qs ∧
      (trial.settle.hypotheses.map fun r => (⟨r, trial.settle.point.label⟩ : Hypothesis)) =
        if q.renamesAgain c then [] else (Polynomial.nonzero qs).map fun r => ⟨r, c.label⟩ := by
  have hkept (l : Label) (uv : Variable × Variable) (huv : p'.coordinates? l = some uv) :
      q.coordinates? l = some uv := by
    refine coordinates?_of_mem hq (fun u hu hplaced => ?_) huv
    exact hstays u (h.mem_of_isPlaced hunplaced u (h.steps ▸ hu) hplaced) hplaced
  have hget : q.get? c.label = some trial.settle.point :=
    h.label_settle ▸ hq.get?_eq (hstays _ h.mem_commit h.isPlaced)
  have hfor (l : Label) (uv : Variable × Variable) (huv : p'.coordinatesFor trial.point l = some uv) :
      q.coordinates? l = some uv := by
    unfold Protocol.coordinatesFor at huv
    split at huv
    next hl =>
      unfold Protocol.coordinates?
      rw [hl, h.label_trial, ← h.label, hget]
      obtain ⟨hx, hy⟩ := Trial.coordinates?_eq_some huv
      refine Trial.coordinates?_of_placement ?_ ((Trial.x_settle trial).trans hx)
        ((Trial.y_settle trial).trans hy)
      exact (Trial.isPlaced_iff.1 h.isPlaced).1
    next => exact hkept l uv huv
  have hpure : ∀ d ∈ c.alternative, d.template.IsPure := fun d hd => ((h.places hp).2 d hd).isPure
  obtain ⟨qs, hqs, hhypotheses⟩ := h.hypotheses_eq hp hknown
  have hagain : q.renamesAgain c = (initial c s).renamesAgain p' c.alternative := by
    unfold Protocol.renamesAgain
    simp only [hget, h.initial_settle]
    exact Trial.renamesAgain_of_meet hpure hkept h.meet
  refine ⟨qs, Condition.polynomialsAt_mono hpure hfor hqs, ?_⟩
  rw [Trial.hypotheses_settle, hhypotheses, hagain, h.label_settle]
  split <;> rfl

end Commits

/-- The hypotheses that the pass adds are the committed conditions at the final coordinates, apart from
those that are lost. -/
theorem hypothesesOf_advanceAll (ht : t.IsConsistent p) (hp : p.Ordered)
    (h : t.advanceAll is = (none, t')) :
    ∃ hs, t'.protocol.hypothesesOf t'.protocol.renamesAgain (t.commitments is) = .ok hs ∧
      t'.system = t.system ++ hs := by
  induction is generalizing t with
  | nil =>
      cases h
      exact ⟨[], rfl, (List.append_nil _).symm⟩
  | cons i is ih =>
      obtain ⟨qs, hadvance, h⟩ := advanceAll_cons h
      unfold commitments
      rcases advance_eq_ok hadvance with ⟨hnone, heq⟩ | ⟨c, s, p', trial, hsome, hcommits, heq⟩
      · rw [heq] at h ⊢
        rw [hnone, Option.toList_none, List.nil_append]
        exact ih ht h
      · rw [heq] at h ⊢
        rw [hsome, Option.toList_some, List.singleton_append]
        have hconsistent := ht.commit hp hcommits
        obtain ⟨hs, hhs, hsystem⟩ := ih hconsistent h
        obtain ⟨rs, hrs, hpart⟩ := hcommits.hypotheses_final
          (isPlaced_of_commitment? hsome hcommits.step) (ht.ordered hp) ht.known
          (hp.of_core (hconsistent.advanceAll hp h).core) (mem_of_advanceAll h)
        refine ⟨(if t'.protocol.renamesAgain c then []
          else (Polynomial.nonzero rs).map fun r => ⟨r, c.label⟩) ++ hs, ?_, ?_⟩
        · unfold Protocol.hypothesesOf
          rw [hrs, hhs]
          rfl
        · rw [hsystem, ← hpart, ← List.append_assoc]
          rfl

/-- After the pass the system is the list of all committed conditions at the final coordinates, in order and
without those that vanish, except that the conditions of a point are lost if the second one renames the
variable to which the first one renamed a coordinate. -/
theorem hypothesesOf_run (hp : Appended p) (best align : Bool) :
    ∃ t, run { protocol := p, best, align } = (none, t) ∧
      t.protocol.hypothesesOf t.protocol.renamesAgain
        (commitments { protocol := p, best, align } (List.range p.size)) = .ok t.system := by
  obtain ⟨t, hrun, -, -⟩ := exists_run hp best align
  obtain ⟨hs, hhs, hsystem⟩ :=
    hypothesesOf_advanceAll (isConsistent_start hp best align) hp.ordered hrun
  exact ⟨t, hrun, by rw [hhs, hsystem]; rfl⟩

/-- Two parallels to a horizontal line, through two points of another line. -/
def parallelsFigure : Protocol :=
  .figure [("A", .point .free), ("B", .point .free), ("C", .point .free),
    ("k", .set (.lineThrough "C" "A")), ("R", .point (.onLine "k")),
    ("l", .set (.lineThrough "A" "B")), ("m", .set (.parallel "R" "l")),
    ("n", .set (.parallel "C" "l")), ("P", .point (.intersection "m" "n"))]

theorem hypothesesOf_run_parallelsFigure :
    ∃ t, run { protocol := parallelsFigure, best := true, align := false } = (none, t) ∧
      t.protocol.hypothesesOf t.protocol.renamesAgain
        (commitments { protocol := parallelsFigure, best := true, align := false }
          (List.range parallelsFigure.size)) = .ok t.system :=
  hypothesesOf_run (appended_figure _) true false

/-- Some committed condition neither vanishes at the final coordinates nor is a hypothesis. -/
def losesHypothesis (t : Transformation) : Bool :=
  let after := t.run.2
  (t.commitments (List.range t.protocol.size)).any fun c => c.alternative.any fun d =>
    match d.polynomialAt after.protocol.coordinates? with
    | .error _ => false
    | .ok q => !q.isZero && !after.system.contains ⟨q, c.label⟩

set_option maxRecDepth 100000 in
/-- With base points aligned, the first parallel gives the point the second coordinate of `R`, and the second
parallel renames that to the second coordinate of `C`. -/
theorem exists_lost_parallelsFigure : Appended parallelsFigure ∧
    ∃ t, run { protocol := parallelsFigure, best := true, align := true } = (none, t) ∧
      ∃ c ∈ commitments { protocol := parallelsFigure, best := true, align := true }
          (List.range parallelsFigure.size),
        ∃ d ∈ c.alternative, ∃ q, d.polynomialAt t.protocol.coordinates? = .ok q ∧ q ≠ 0 ∧
          (⟨q, c.label⟩ : Hypothesis) ∉ t.system := by
  have hloses : losesHypothesis { protocol := parallelsFigure, best := true, align := true } = true := by
    decide +kernel
  have happended : Appended parallelsFigure := appended_figure _
  obtain ⟨t, hrun, -, -⟩ := exists_run happended true true
  refine ⟨happended, t, hrun, ?_⟩
  unfold losesHypothesis at hloses
  simp only [hrun, List.any_eq_true] at hloses
  obtain ⟨c, hc, d, hd, hlost⟩ := hloses
  refine ⟨c, hc, d, hd, ?_⟩
  split at hlost
  next => cases hlost
  next q hq =>
    rw [Bool.and_eq_true, Bool.not_eq_true', Bool.not_eq_true'] at hlost
    refine ⟨q, hq, fun hzero => ?_, fun hmem => ?_⟩
    · rw [Sparse.isZero_iff.2 hzero] at hlost
      cases hlost.1
    · rw [List.contains_iff_mem.2 hmem] at hlost
      cases hlost.2

end Transformation
end Planimetry
