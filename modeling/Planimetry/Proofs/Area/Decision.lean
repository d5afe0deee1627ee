import Planimetry.Proofs.Area.Evaluation
import Planimetry.Proofs.Area.Generic
import Planimetry.Proofs.Area.Prover
import Planimetry.Proofs.Transformation.Free
import Planimetry.Proofs.Verdict

/-! The area method decides statements about points that stand where their definitions put them. -/

namespace Planimetry.Area

namespace Prover

variable {m : Prover} {p : Protocol} {settings : Settings} {s s' : Progress} {q : Polynomial}
  {form : Expansion} {e : Expr} {relation : Relation} {st : Step}

theorem start_eq_ok (hstatement : p.statement = some st)
    (hrelation : st.construction = .statement relation) (h : start p none = .ok e) :
    Statement.ofRelation relation = .ok e := by
  unfold start at h
  rw [hstatement] at h
  obtain ⟨a, ha, h⟩ := bind_eq_ok h
  rw [hrelation] at ha
  dsimp only at h
  split at h
  next =>
    cases h
    exact ha
  next => cases h

/-- Points get their coordinates by a pass, unless they have them. -/
theorem returns_placePoints {u : Unit} (h : Returns m.placePoints s u s') :
    s'.ratios = s.ratios ∧ s'.used = s.used ∧
      (s.protocol.points.all Step.isPlaced = true ∧ s'.protocol = s.protocol ∨
        ∃ t, (s.protocol.startWu m.settings).run = (none, t) ∧ s'.protocol = t.protocol) := by
  unfold placePoints at h
  obtain ⟨s₀, s₁, hget, h⟩ := returns_bind.1 h
  obtain ⟨rfl, rfl⟩ := returns_get.1 hget
  split at h
  next hplaced =>
    obtain ⟨-, rfl⟩ := returns_pure.1 h
    exact ⟨rfl, rfl, .inl ⟨hplaced, rfl⟩⟩
  next =>
    obtain ⟨v, s₂, hreport, h⟩ := returns_bind.1 h
    have hs₂ := returns_modify.1 hreport
    dsimp only at h
    split at h
    next =>
      obtain ⟨v, s₃, -, h⟩ := returns_bind.1 h
      exact (not_returns_throw h).elim
    next hnone =>
      obtain ⟨v, s₃, hmodify, h⟩ := returns_bind.1 h
      have hs₃ := returns_modify.1 hmodify
      obtain ⟨-, rfl⟩ := returns_pure.1 h
      rw [hs₃, hs₂]
      exact ⟨rfl, rfl, .inr ⟨_, Prod.ext hnone rfl, rfl⟩⟩

theorem returns_toPolynomial (h : Returns (m.toPolynomial form) s q s') :
    ∃ s₁, Returns m.placePoints s () s₁ ∧ Returns (m.sumPolynomial 0 form.entries) s₁ q s' := by
  unfold toPolynomial at h
  obtain ⟨u, s₁, hplace, h⟩ := returns_bind.1 h
  exact ⟨s₁, hplace, h⟩

/-- The polynomial of a form has its value. -/
theorem valueAt_toPolynomial {σ : Variable → ℚ} {place : Label → ℚ × ℚ} {ratio : Quantity → ℚ}
    (h : Returns (m.toPolynomial form) s q s')
    (hs : s'.ReadsAt m.context.freePoints σ place ratio) :
    q.valueAt σ = form.valueAt (Quantity.valueAt place ratio) := by
  obtain ⟨s₁, -, hsum⟩ := returns_toPolynomial h
  rw [valueAt_sumPolynomial hsum hs, Polynomial.valueAt_zero, zero_add]
  rfl

/-- What placing the points of a protocol comes to: free points have coordinates that can have any
values. -/
structure IsPlaced (p : Protocol) (s : Progress) : Prop where
  core : s.protocol.steps.map Step.core = p.steps.map Step.core
  known : Trial.CoordinatesSatisfy s.protocol.Knows s.protocol
  free (place : Label → ℚ × ℚ) : ∃ σ, s.protocol.FreeAt σ place

/-- Before a pass no point has coordinates. -/
theorem isPlaced_self (hp : Appended s.protocol) : IsPlaced s.protocol s where
  core := rfl
  known := (Protocol.isConsistent_startWu hp {}).known
  free := fun place => ⟨fun _ => 0, fun t ht _ => by
    rw [hp.unplaced t ht]
    exact ⟨nofun, nofun⟩⟩

theorem isPlaced_of_run {t : Transformation} (hp : Appended p) (halign : settings.alignBasePoints = false)
    (hrun : (p.startWu settings).run = (none, t)) (hs : s.protocol = t.protocol) : IsPlaced p s := by
  have hstart := Protocol.isConsistent_startWu hp settings
  have ht := hstart.advanceAll hp.ordered hrun
  refine ⟨hs ▸ ht.core, hs ▸ ht.known, fun place =>
    ⟨coordinateValue (p.commitments settings) place, ?_⟩⟩
  have hσ : coordinateValue (p.commitments settings) place = coordinateValue
      ([] ++ (p.startWu settings).commitments (List.range p.size)) place := rfl
  have hunplaced : p.FreeAt (coordinateValue (p.commitments settings) place) place := fun t ht _ => by
    rw [hp.unplaced t ht]
    exact ⟨nofun, nofun⟩
  rw [hs]
  exact Transformation.FreeAt.advanceAll hunplaced hstart hp.ordered halign hσ
    (List.forall_mem_nil _) hrun

theorem isPlaced_placePoints {u : Unit} (hp : Appended s.protocol)
    (halign : m.settings.alignBasePoints = false) (h : Returns m.placePoints s u s') :
    IsPlaced s.protocol s' := by
  obtain ⟨-, -, ⟨-, heq⟩ | ⟨t, hrun, heq⟩⟩ := returns_placePoints h
  · rw [← heq] at hp ⊢
    exact isPlaced_self hp
  · exact isPlaced_of_run hp halign hrun heq

section Reading

variable {c : Context} {σ : Variable → ℚ} {free : Label → ℚ × ℚ} {ratios : Label → ℚ}
  {p₁ : Protocol}

/-- Readings at a placement by definitions concern the free points and the free ratios only. -/
theorem readsAt_iff (hc : c.IsCoherent) (hs : s.IsFresh c p₁) :
    s.ReadsAt c.freePoints σ (c.place free ratios) (c.ratio ratios) ↔
      (∀ l ∈ c.freePoints, ∀ xy, (s.protocol.get? l).bind Step.coordinates? = some xy →
        free l = (σ xy.1, σ xy.2)) ∧ ∀ r ∈ s.ratios, σ r.2 = c.ratio ratios r.1 := by
  constructor
  · intro h
    refine ⟨fun l hl xy hxy => ?_, fun r hr => ?_⟩
    · exact (hc.place_free hl).symm.trans (h.point l hl xy hxy)
    · rw [h.ratio r hr, Quantity.ratioAt_of_isCanonical (hs.canonical r hr).1]
  · rintro ⟨hpoint, hratio⟩
    refine ⟨fun l hl xy hxy => ?_, fun r hr => ?_⟩
    · rw [hc.place_free hl, hpoint l hl xy hxy]
    · rw [hratio r hr, Quantity.ratioAt_of_isCanonical (hs.canonical r hr).1]

/-- Assigns to the variables of ratios the values of these. -/
def withRatios (rs : List (Quantity × Variable)) (ratio : Quantity → ℚ) (σ : Variable → ℚ)
    (v : Variable) : ℚ :=
  match rs.find? fun r => r.2 = v with
  | some r => ratio r.1
  | none => σ v

theorem withRatios_of_mem {rs : List (Quantity × Variable)} {ratio : Quantity → ℚ}
    (hrs : (rs.map Prod.snd).Nodup) {r : Quantity × Variable} (hr : r ∈ rs) :
    withRatios rs ratio σ r.2 = ratio r.1 := by
  unfold withRatios
  have hsome : (rs.find? fun r' => r'.2 = r.2).isSome = true :=
    List.find?_isSome.2 ⟨r, hr, decide_eq_true rfl⟩
  obtain ⟨r', hr'⟩ := Option.isSome_iff_exists.1 hsome
  have heq : r' = r :=
    List.inj_on_of_nodup_map hrs (List.mem_of_find?_eq_some hr') hr
      (of_decide_eq_true (List.find?_some hr' :))
  rw [hr', heq]

theorem withRatios_of_knows (hs : s.IsFresh c p₁) {ratio : Quantity → ℚ} {v : Variable}
    (hv : p₁.Knows v) : withRatios s.ratios ratio σ v = σ v := by
  unfold withRatios
  rw [List.find?_eq_none.2 fun r hr => ?_]
  intro heq
  obtain ⟨i, hi, hle, -⟩ := hs.fresh r hr
  rw [← of_decide_eq_true heq, hi] at hv
  exact absurd hv (not_lt.2 hle)

/-- Coordinates of free points and free ratios can have the values that they have at any placement. -/
theorem exists_readsAt_of_isPlaced {s₁ : Progress} (hp : p.Ordered)
    (hfree : ∀ l ∈ c.freePoints, ∃ t ∈ p.steps, t.label = l ∧ t.construction = .point .free)
    (hplaced : IsPlaced p s₁) (hs : s.IsFresh c s₁.protocol) (place : Label → ℚ × ℚ)
    (ratio : Quantity → ℚ) : ∃ σ, s.ReadsAt c.freePoints σ place ratio := by
  obtain ⟨σ, hσ⟩ := hplaced.free place
  refine ⟨withRatios s.ratios (Quantity.ratioAt ratio) σ, fun l hl xy hxy => ?_,
    fun r hr => withRatios_of_mem hs.nodup hr⟩
  obtain ⟨u, hu, hxy⟩ := Option.bind_eq_some_iff.1 hxy
  obtain ⟨hmem, hlabel⟩ := Protocol.mem_of_get? hu
  rw [hs.steps] at hmem
  obtain ⟨w, hw, hwlabel, hfree⟩ := hfree l hl
  obtain ⟨w', hw', hcore⟩ := Protocol.exists_core_eq hplaced.core hw
  have hw'label : w'.label = w.label := congr_arg Prod.fst hcore
  have hsame : w' = u := (hp.of_core hplaced.core).eq_of_label hw' hmem
    (hw'label.trans (hwlabel.trans hlabel.symm))
  have hconstruction : u.construction = .point .free := by
    rw [← hsame, ← hfree]
    exact congr_arg (fun k => k.2.1) hcore
  obtain ⟨hx, hy⟩ := Trial.coordinates?_eq_some hxy
  obtain ⟨hσx, hσy⟩ := hσ u hmem hconstruction
  rw [withRatios_of_knows hs ((hplaced.known u hmem).1 _ hx),
    withRatios_of_knows hs ((hplaced.known u hmem).2 _ hy), hσx _ hx, hσy _ hy, hlabel]

/-- Coordinates of free points and free ratios can have any values. -/
theorem exists_readsAt {s₁ : Progress} (hp : p.Ordered) (hc : c.Covers p p.steps)
    (hplaced : IsPlaced p s₁) (hs : s.IsFresh c s₁.protocol) (free : Label → ℚ × ℚ)
    (ratios : Label → ℚ) :
    ∃ σ, s.ReadsAt c.freePoints σ (c.place free ratios) (c.ratio ratios) :=
  exists_readsAt_of_isPlaced hp (fun l hl => (hc.free l).1 hl) hplaced hs _ _

theorem lookup_of_mem {rs : List (Quantity × Variable)} (hrs : (rs.map Prod.fst).Nodup)
    {r : Quantity × Variable} (hr : r ∈ rs) : rs.lookup r.1 = some r.2 := by
  have hsome : (rs.lookup r.1).isSome = true :=
    List.lookup_isSome_iff.2 ⟨r, hr, beq_self_eq_true _⟩
  obtain ⟨v, hv⟩ := Option.isSome_iff_exists.1 hsome
  obtain ⟨before, after, heq, -⟩ := List.lookup_eq_some_iff.1 hv
  have hmem : (r.1, v) ∈ rs := heq ▸ List.mem_append_right _ List.mem_cons_self
  rw [hv, ← List.inj_on_of_nodup_map hrs hmem hr rfl]

/-- The free ratio of a point for which its variable stands. -/
def ratioFrom (c : Context) (rs : List (Quantity × Variable)) (σ : Variable → ℚ) (l : Label) : ℚ :=
  match ((c.find? l).bind Definition.parameter).map Quantity.orient with
  | some (.ok o) => o.factor * (o.quantity.bind fun k => rs.lookup k).elim 0 σ
  | _ => 0

theorem ratio_ratioFrom (hc : c.IsCoherent) (hs : s.IsFresh c p₁) {r : Quantity × Variable}
    (hr : r ∈ s.ratios) : c.ratio (ratioFrom c s.ratios σ) r.1 = σ r.2 := by
  obtain ⟨d, hd, k, hk, o, ho, hquantity⟩ := (hc.parameters _).1 (hs.canonical r hr).2
  obtain ⟨o', k', u, ho', -, hfactor, -⟩ := (hc.ordered.isProper hd).orient_parameter hk
  obtain rfl := Except.ok.inj (ho.symm.trans ho')
  unfold Context.ratio
  rw [ratioOf_parameter hc.ordered hd hk ho hquantity]
  unfold ratioFrom Context.find?
  rw [hc.ordered.find?_eq hd, Option.bind_some, Option.mem_def.1 hk, Option.map_some, ho]
  dsimp only
  rw [hquantity, Option.bind_some, lookup_of_mem hs.keys hr, Option.elim_some, ← mul_assoc]
  rcases hfactor with hfactor | hfactor <;> rw [hfactor] <;> norm_num

/-- The places of free points for whose coordinates variables stand. -/
def placeFrom (p : Protocol) (σ : Variable → ℚ) (l : Label) : ℚ × ℚ :=
  match (p.get? l).bind Step.coordinates? with
  | some xy => (σ xy.1, σ xy.2)
  | none => 0

/-- On the way to another assignment, variables still stand for coordinates and free ratios. -/
theorem readsAt_way (hc : c.IsCoherent) (hs : s.IsFresh c p₁)
    (h : s.ReadsAt c.freePoints σ (c.place free ratios) (c.ratio ratios)) (τ : Variable → ℚ)
    (t : ℚ) :
    s.ReadsAt c.freePoints (fun v => way (σ v) (τ v) t)
      (c.place (Context.freeWay free (placeFrom s.protocol τ) t)
        (Context.ratioWay ratios (ratioFrom c s.ratios τ) t))
      (c.ratio (Context.ratioWay ratios (ratioFrom c s.ratios τ) t)) := by
  obtain ⟨hpoint, hratio⟩ := (readsAt_iff hc hs).1 h
  refine (readsAt_iff hc hs).2 ⟨fun l hl xy hxy => ?_, fun r hr => ?_⟩
  · unfold Context.freeWay placeFrom
    rw [hpoint l hl xy hxy, hxy]
  · unfold Context.ratio Context.ratioWay
    rw [ratioOf_way]
    refine congr_arg₂ (fun x y => way x y t) (hratio r hr) ?_
    exact (ratio_ratioFrom hc hs hr).symm

end Reading

/-- The area method is exact on placements by definitions at which no denominator is zero: a statement
that is proved holds at all of them, and one that is not fails at some of them if there are any. -/
theorem holds_iff_forall_holdsAt_place (hp : Appended p)
    (hlabels : ∀ t ∈ p.steps, t.label ∉ Context.secondLabels p)
    (hsupported : (Context.ofProtocol p).unsupported = [])
    (halign : settings.alignBasePoints = false) (hstatement : p.statement = some st)
    (hrelation : st.construction = .statement relation) {events : List Event} {proof : Proof}
    (h : ((ofProtocol p settings).prove none).run { protocol := p, events } = (.ok proof, s')) :
    (proof.holds = true → ∀ free ratios, (Context.ofProtocol p).IsValidAt free ratios →
      relation.condition.HoldsAt ((Context.ofProtocol p).place free ratios)) ∧
    (proof.holds = false →
      (∃ free ratios, (Context.ofProtocol p).IsValidAt free ratios) →
      ∃ free ratios, (Context.ofProtocol p).IsValidAt free ratios ∧
        ¬relation.condition.HoldsAt ((Context.ofProtocol p).place free ratios)) := by
  have hc := Context.covers_ofProtocol ⟨hp.ordered, hp.accepted, hlabels⟩ hsupported
  obtain ⟨e, e', form, s₁, s₂, s₃, hstart, heliminate, hform, hkeeps, -, hverdict, -⟩ :=
    returns_prove h
  have hvalue {free : Label → ℚ × ℚ} {ratios : Label → ℚ}
      (hvalid : (Context.ofProtocol p).IsValidAt free ratios) :
      form.valueAt (Quantity.valueAt ((Context.ofProtocol p).place free ratios)
        ((Context.ofProtocol p).ratio ratios)) = 0 ↔
        relation.condition.HoldsAt ((Context.ofProtocol p).place free ratios) := by
    obtain ⟨x, hx, hiff⟩ := ofRelation_eq_ok (start_eq_ok hstatement hrelation hstart)
    obtain ⟨he', -⟩ := denotes_eliminateConstructed heliminate rfl hx fun l _ _ d hd =>
      hvalid.holdsAt hc.toIsCoherent d (List.mem_of_find?_eq_some hd)
    exact (he'.normalForm (respectsOrientation_valueAt _ _) hform).trans hiff
  rcases hverdict with ⟨hzero, hholds, -⟩ | ⟨q, hq, hholds⟩
  · refine ⟨fun _ free ratios hvalid => (hvalue hvalid).1 ?_, fun hfails => ?_⟩
    · rw [Sparse.isZero_iff.1 hzero]
      rfl
    · rw [hholds] at hfails
      cases hfails
  · have hs₂ := (keeps_eliminateConstructed heliminate).trans hkeeps
    obtain ⟨s₄, hplace, hsum⟩ := returns_toPolynomial hq
    have hplaced := isPlaced_placePoints (hs₂.protocol ▸ hp) halign hplace
    rw [hs₂.protocol] at hplaced
    have hratios : s₄.ratios = [] := (returns_placePoints hplace).1.trans hs₂.ratios
    have hfresh := isFresh_sumPolynomial (Expr.isOriented_normalForm hform) hsum
      (Progress.isFresh_of_nil hratios)
    rw [hholds]
    refine ⟨fun hzero free ratios hvalid => (hvalue hvalid).1 ?_, fun hne hexists => ?_⟩
    · obtain ⟨σ, hσ⟩ := exists_readsAt hp.ordered hc hplaced hfresh free ratios
      rw [← valueAt_toPolynomial hq hσ, Sparse.isZero_iff.1 hzero, Polynomial.valueAt_zero]
    · obtain ⟨free, ratios, hvalid⟩ := hexists
      obtain ⟨σ, hσ⟩ := exists_readsAt hp.ordered hc hplaced hfresh free ratios
      have hq0 : q ≠ 0 := by
        rintro rfl
        cases hne
      obtain ⟨τ, halong⟩ := exists_alongWay_ne_zero σ hq0
      obtain ⟨t, ht, hvalid'⟩ := hvalid.exists_way hc.toIsCoherent
        (placeFrom s₃.protocol τ) (ratioFrom (Context.ofProtocol p) s₃.ratios τ) halong
      refine ⟨_, _, hvalid', fun hholdsAt => ht ?_⟩
      rw [eval_alongWay, valueAt_toPolynomial hq (readsAt_way hc.toIsCoherent hfresh hσ τ t)]
      exact (hvalue hvalid').2 hholdsAt

/-- A triangle with the foot of an altitude and a random point on its side. -/
def altitudeFigure (r : Relation) : Protocol :=
  Protocol.figure [("A", .point .free), ("B", .point .free), ("C", .point .free),
    ("l", .set (.lineThrough "A" "B")), ("P", .point (.onLine "l")),
    ("F", .point (.foot "C" "A" "B")), ("s", .statement r)]

def altitudePlace (l : Label) : ℚ × ℚ :=
  if l = "A" then (0, 0) else if l = "B" then (4, 0) else (1, 2)

/-- Whether a proof of the statement of a protocol comes to a verdict. -/
def concludes (p : Protocol) (holds : Bool) : Bool :=
  (((ofProtocol p {}).prove none).run { protocol := p }).1.toOption.any fun proof =>
    proof.holds == holds

theorem concludes_altitudeFigure :
    concludes (altitudeFigure (.collinear "A" "P" "F")) true = true ∧
      concludes (altitudeFigure (.perpendicular "C" "P" "A" "B")) false = true := by
  constructor <;> rw [concludes, run_prove rfl rfl (by decide)] <;> decide +kernel

theorem exists_run_of_concludes {p : Protocol} {holds : Bool} (h : concludes p holds = true) :
    ∃ proof s', ((ofProtocol p {}).prove none).run { protocol := p } = (.ok proof, s') ∧
      proof.holds = holds := by
  unfold concludes at h
  generalize ((ofProtocol p {}).prove none).run { protocol := p } = result at h
  obtain ⟨outcome, s'⟩ := result
  cases outcome with
  | error e => cases h
  | ok proof => exact ⟨proof, s', rfl, eq_of_beq h⟩

/-- A statement that is proved holds at a placement of the figure, and one that is not fails at some
placement. -/
theorem holds_iff_altitudeFigure :
    (Context.ofProtocol (altitudeFigure (.collinear "A" "P" "F"))).IsValidAt altitudePlace
        (fun _ => 2) ∧
      (Relation.collinear "A" "P" "F").condition.HoldsAt
        ((Context.ofProtocol (altitudeFigure (.collinear "A" "P" "F"))).place altitudePlace
          fun _ => 2) ∧
      ∃ free ratios,
        (Context.ofProtocol (altitudeFigure (.perpendicular "C" "P" "A" "B"))).IsValidAt free
            ratios ∧
          ¬(Relation.perpendicular "C" "P" "A" "B").condition.HoldsAt
            ((Context.ofProtocol (altitudeFigure (.perpendicular "C" "P" "A" "B"))).place free
              ratios) := by
  obtain ⟨proof, s₁, hrun, hholds⟩ := exists_run_of_concludes concludes_altitudeFigure.1
  obtain ⟨proof', s₂, hrun', hfails⟩ := exists_run_of_concludes concludes_altitudeFigure.2
  have hvalid : (Context.ofProtocol (altitudeFigure (.collinear "A" "P" "F"))).IsValidAt
      altitudePlace fun _ => 2 := by decide +kernel
  have hvalid' : (Context.ofProtocol (altitudeFigure (.perpendicular "C" "P" "A" "B"))).IsValidAt
      altitudePlace fun _ => 2 := by decide +kernel
  refine ⟨hvalid, ?_, ?_⟩
  · exact (holds_iff_forall_holdsAt_place (appended_figure _) (by decide +kernel)
      (by decide +kernel) rfl rfl rfl hrun).1 hholds _ _ hvalid
  · exact (holds_iff_forall_holdsAt_place (appended_figure _) (by decide +kernel)
      (by decide +kernel) rfl rfl rfl hrun').2 hfails ⟨_, _, hvalid'⟩

end Prover

end Planimetry.Area
