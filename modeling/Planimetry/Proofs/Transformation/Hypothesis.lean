import Planimetry.Proofs.Transformation.Total

/-! What a trial keeps: the conditions at the coordinates that the point has in the end, apart from those
that vanish there. Two conditions are lost if the second one renames the variable to which the first one
renamed a coordinate. -/

namespace Planimetry

namespace Polynomial

variable {q : Polynomial} {own w : Variable}

/-- The polynomials of a list other than zero. -/
def nonzero (qs : List Polynomial) : List Polynomial := qs.filter fun q => !q.isZero

@[simp] theorem nonzero_append (qs rs : List Polynomial) :
    nonzero (qs ++ rs) = nonzero qs ++ nonzero rs :=
  List.filter_append _ _

theorem nonzero_map_nonzero (f : Variable → Variable) (qs : List Polynomial) :
    nonzero ((nonzero qs).map (rename f)) = nonzero (qs.map (rename f)) := by
  induction qs with
  | nil => rfl
  | cons q qs ih =>
      unfold nonzero at ih ⊢
      cases hq : q.isZero with
      | true =>
          rw [Sparse.isZero_iff.1 hq]
          exact ih
      | false =>
          simp only [List.filter_cons, hq, Bool.not_false, if_true, List.map_cons]
          rw [ih]

/-- One variable in place of another. -/
def replaced (own w : Variable) (v : Variable) : Variable := if v = own then w else v

/-- A polynomial that pins a variable to another vanishes where they agree. -/
theorem rename_replaced_of_pinned? (h : q.pinned? own = some w) : q.rename (replaced own w) = 0 := by
  obtain ⟨hdegree, hne, -, hzero⟩ := pinned?_eq_some h
  have hw := congr_arg (valueAt fun v => MvPolynomial.X (R := ℚ) (replaced own w v)) hzero
  rw [valueAt_add, valueAt_mul, valueAt_ofVariable, valueAt_zero] at hw
  have hsame : replaced own w w = replaced own w own := by
    unfold replaced
    rw [if_pos rfl, if_neg hne]
  apply toMv_injective
  rw [← valueAt_X, valueAt_rename, valueAt_of_degree_eq_one _ hdegree, ← hsame, hw, toMv_zero]

end Polynomial

namespace Template

variable {t : Template} {coords coords' : Label → Option (Variable × Variable)} {q : Polynomial}

theorem instantiate_of_isSome (h : ∀ r ∈ t.roles, (coords r).isSome = true) :
    t.instantiate coords = .ok (t.rename (assigned coords)) := by
  unfold instantiate
  simp only [checkRoles_eq_ok.2 h, bind, Except.bind, pure, Except.pure]
  refine congr_arg Except.ok (congr_arg (t.rename ·) (funext fun v => ?_))
  cases v <;> rfl

/-- Coordinates that come from others by renaming give the renamed polynomial. -/
theorem instantiate_rename (ht : t.IsPure) {f : Variable → Variable}
    (hcoords : ∀ r uv, coords r = some uv → coords' r = some (f uv.1, f uv.2))
    (h : t.instantiate coords = .ok q) : t.instantiate coords' = .ok (q.rename f) := by
  obtain ⟨hsome, rfl⟩ := instantiate_eq_ok h
  have hsome' : ∀ r ∈ t.roles, (coords' r).isSome = true := by
    intro r hr
    obtain ⟨uv, huv⟩ := Option.isSome_iff_exists.1 (hsome r hr)
    rw [hcoords r uv huv]
    rfl
  rw [instantiate_of_isSome hsome', Polynomial.rename_rename]
  refine congr_arg Except.ok (Polynomial.rename_congr fun v hv => ?_)
  cases v with
  | free i => exact absurd (ht _ hv) nofun
  | dependent i => exact absurd (ht _ hv) nofun
  | placeholder r a =>
      obtain ⟨uv, huv⟩ := Option.isSome_iff_exists.1 (hsome r (mem_roles.2 ⟨a, hv⟩))
      rw [assigned_placeholder huv, assigned_placeholder (hcoords r uv huv)]
      cases a <;> rfl

/-- More coordinates make no difference for a polynomial that can be had without them. -/
theorem instantiate_mono (ht : t.IsPure)
    (hcoords : ∀ r uv, coords r = some uv → coords' r = some uv)
    (h : t.instantiate coords = .ok q) : t.instantiate coords' = .ok q := by
  have hrename := instantiate_rename ht (f := fun v => v) hcoords h
  rwa [Polynomial.rename_eq_self fun v _ => rfl] at hrename

end Template

/-- The polynomial of a condition where labels have the given coordinates. -/
def Condition.polynomialAt (coordinates : Label → Option (Variable × Variable)) (c : Condition) :
    Except MissingRoles Polynomial :=
  c.template.instantiate fun r => (c.roles.lookup r).bind coordinates

/-- The polynomials of conditions where labels have the given coordinates. -/
def Condition.polynomialsAt (coordinates : Label → Option (Variable × Variable)) (cs : List Condition) :
    Except MissingRoles (List Polynomial) :=
  cs.mapM (polynomialAt coordinates)

namespace Condition

variable {coordinates coordinates' : Label → Option (Variable × Variable)} {c : Condition}
  {cs : List Condition} {q : Polynomial} {qs : List Polynomial}

theorem polynomialAt_rename (hc : c.template.IsPure) {f : Variable → Variable}
    (hcoordinates : ∀ l uv, coordinates l = some uv → coordinates' l = some (f uv.1, f uv.2))
    (h : c.polynomialAt coordinates = .ok q) : c.polynomialAt coordinates' = .ok (q.rename f) := by
  refine Template.instantiate_rename hc (fun r uv huv => ?_) h
  obtain ⟨l, hl, huv⟩ := Option.bind_eq_some_iff.1 huv
  rw [hl]
  exact hcoordinates l uv huv

theorem exists_polynomialAt (hcoordinates : ∀ l, (coordinates l).isSome = true →
    (coordinates' l).isSome = true) (h : c.polynomialAt coordinates = .ok q) :
    ∃ q', c.polynomialAt coordinates' = .ok q' := by
  refine ⟨_, Template.instantiate_of_isSome fun r hr => ?_⟩
  obtain ⟨l, hl, huv⟩ := Option.bind_eq_some_iff.1
    (Option.isSome_iff_exists.1 ((Template.instantiate_eq_ok h).1 r hr)).choose_spec
  rw [hl]
  exact hcoordinates l (Option.isSome_iff_exists.2 ⟨_, huv⟩)

/-- All polynomials at coordinates that come from others by renaming. -/
theorem polynomialsAt_rename (hcs : ∀ c ∈ cs, c.template.IsPure) {f : Variable → Variable}
    (hcoordinates : ∀ l uv, coordinates l = some uv → coordinates' l = some (f uv.1, f uv.2))
    (h : polynomialsAt coordinates cs = .ok qs) :
    polynomialsAt coordinates' cs = .ok (qs.map (Polynomial.rename f)) := by
  unfold polynomialsAt at h ⊢
  induction cs generalizing qs with
  | nil =>
      cases h
      rfl
  | cons c cs ih =>
      obtain ⟨hc, hcs⟩ := List.forall_mem_cons.1 hcs
      rw [List.mapM_cons] at h ⊢
      obtain ⟨q, hq, h⟩ := bind_eq_ok h
      obtain ⟨rest, htail, h⟩ := bind_eq_ok h
      cases h
      rw [polynomialAt_rename hc hcoordinates hq, ih hcs htail]
      rfl

/-- More coordinates make no difference for polynomials that can be had without them. -/
theorem polynomialsAt_mono (hcs : ∀ c ∈ cs, c.template.IsPure)
    (hcoordinates : ∀ l uv, coordinates l = some uv → coordinates' l = some uv)
    (h : polynomialsAt coordinates cs = .ok qs) : polynomialsAt coordinates' cs = .ok qs := by
  have hrename := polynomialsAt_rename hcs (f := fun v => v) hcoordinates h
  rwa [List.map_congr_left fun q _ => Polynomial.rename_eq_self fun v _ => rfl, List.map_id'] at hrename

theorem polynomialsAt_concat (hcs : polynomialsAt coordinates cs = .ok qs)
    (hc : c.polynomialAt coordinates = .ok q) :
    polynomialsAt coordinates (cs ++ [c]) = .ok (qs ++ [q]) := by
  unfold polynomialsAt at hcs ⊢
  rw [List.mapM_append, List.mapM_cons, List.mapM_nil, hcs, hc]
  rfl

end Condition

namespace Trial

/-- The second of two conditions renames the variable to which the first one renamed a coordinate. -/
def renamesAgain (p : Protocol) (t : Trial) : List Condition → Bool
  | [c, d] => match p.polynomialOf t.point c with
    | .error _ => false
    | .ok q => match p.polynomialOf (t.absorb q).point d with
      | .error _ => false
      | .ok r => match t.renaming? q, (t.absorb q).renaming? r with
        | some (_, _, w), some (_, own, _) => own == w
        | _, _ => false
  | _ => false

/-- The hypotheses are the polynomials of the conditions at the coordinates that the point has, apart from
zero. -/
def Retains (p : Protocol) (t : Trial) (cs : List Condition) : Prop :=
  ∃ qs, Condition.polynomialsAt (p.coordinatesFor t.point) cs = .ok qs ∧
    t.hypotheses = Polynomial.nonzero qs

variable {p : Protocol} {t t' : Trial} {axis : Axis} {own w x y : Variable} {q r a : Polynomial}
  {c d : Condition} {cs : List Condition}

theorem renamesAgain_pair (hq : p.polynomialOf t.point c = .ok q)
    (hr : p.polynomialOf (t.absorb q).point d = .ok r) :
    t.renamesAgain p [c, d] = true ↔ ∃ axis axis' own own' w,
      t.renaming? q = some (axis, own, own') ∧ (t.absorb q).renaming? r = some (axis', own', w) := by
  unfold renamesAgain
  simp only [hq, hr]
  constructor
  · intro h
    split at h
    next axis own v axis' own' w hfirst hsecond =>
      cases beq_iff_eq.1 h
      exact ⟨axis, axis', own, _, w, hfirst, hsecond⟩
    next => cases h
  · rintro ⟨axis, axis', own, own', w, hfirst, hsecond⟩
    rw [hfirst, hsecond]
    exact beq_self_eq_true own'

theorem absorb_of_none (h : t.renaming? q = none) :
    t.absorb q = { t with hypotheses := t.hypotheses ++ Polynomial.nonzero [q] } := by
  unfold absorb Polynomial.nonzero
  cases hq : q.isZero with
  | true => simp [hq]
  | false => simp [hq, h]

theorem renaming?_zero (t : Trial) : t.renaming? 0 = none := by
  have hpinned (own : Variable) : (0 : Polynomial).pinned? own = none := by
    unfold Polynomial.pinned?
    rw [if_pos]
    exact Bool.or_eq_true_iff.2 (.inr (decide_eq_true Nat.zero_ne_one))
  unfold renaming?
  cases t.point.placement.x <;> cases t.point.placement.y <;> simp [hpinned]

theorem absorb_of_some (h : t.renaming? q = some (axis, own, w)) :
    t.absorb q = t.rename axis own w (q.coefficient own 1) := by
  unfold absorb
  split
  next hz =>
    rw [Sparse.isZero_iff.1 hz, renaming?_zero] at h
    cases h
  next => rw [h]

/-- The point has the variable for one of its coordinates only, and no other object has it. -/
structure IsAlone (p : Protocol) (t : Trial) (axis : Axis) (own : Variable) : Prop where
  isPoint : t.point.isPoint = true
  coordinates : match axis with
    | .x => t.point.placement.x = some own ∧ ∃ z, t.point.placement.y = some z ∧ z ≠ own
    | .y => t.point.placement.y = some own ∧ ∃ z, t.point.placement.x = some z ∧ z ≠ own
  other : ∀ s ∈ p.steps, ∀ uv, s.coordinates? = some uv → uv.1 ≠ own ∧ uv.2 ≠ own

theorem coordinates?_of_placement {s : Step} (hpoint : s.isPoint = true)
    (hx : s.placement.x = some x) (hy : s.placement.y = some y) : s.coordinates? = some (x, y) := by
  unfold Step.coordinates? Placement.coordinates?
  rw [if_pos hpoint, hx, hy]

/-- Renaming a coordinate that only the point has replaces one variable in all coordinates. -/
theorem IsAlone.coordinatesFor_rename (ht : t.IsAlone p axis own) {l : Label}
    {uv : Variable × Variable} (huv : p.coordinatesFor t.point l = some uv) :
    p.coordinatesFor (t.rename axis own w a).point l =
      some (Polynomial.replaced own w uv.1, Polynomial.replaced own w uv.2) := by
  have hkept {v : Variable} (hv : v ≠ own) : Polynomial.replaced own w v = v := if_neg hv
  have hnew : Polynomial.replaced own w own = w := if_pos rfl
  unfold Protocol.coordinatesFor at huv ⊢
  change (if l = t.point.label then _ else _) = _
  split at huv
  next hl =>
    rw [if_pos hl]
    obtain ⟨hpoint, hcoordinates, -⟩ := ht
    cases axis with
    | x =>
        obtain ⟨hx, z, hy, hz⟩ := hcoordinates
        rw [coordinates?_of_placement hpoint hx hy] at huv
        cases huv
        rw [hnew, hkept hz]
        exact coordinates?_of_placement hpoint rfl hy
    | y =>
        obtain ⟨hy, z, hx, hz⟩ := hcoordinates
        rw [coordinates?_of_placement hpoint hx hy] at huv
        cases huv
        rw [hnew, hkept hz]
        exact coordinates?_of_placement hpoint hx rfl
  next hl =>
    rw [if_neg hl]
    obtain ⟨s, hs, hsuv⟩ := Option.bind_eq_some_iff.1 huv
    obtain ⟨hfst, hsnd⟩ := ht.other s (Protocol.mem_of_get? hs).1 uv hsuv
    rw [huv, hkept hfst, hkept hsnd]

theorem IsFresh.isAlone (ht : t.IsFresh p x y) (h : t.renaming? q = some (axis, own, w)) :
    t.IsAlone p axis own := by
  obtain ⟨-, hplace⟩ := renaming?_eq_some h
  rcases hplace with ⟨rfl, hown⟩ | ⟨rfl, hown⟩
  · cases ht.x_eq.symm.trans hown
    exact ⟨ht.isPoint, ⟨ht.x_eq, y, ht.y_eq, ht.ne.symm⟩, fun s hs uv huv => (ht.other s hs uv huv).1⟩
  · cases ht.y_eq.symm.trans hown
    exact ⟨ht.isPoint, ⟨ht.y_eq, x, ht.x_eq, ht.ne⟩, fun s hs uv huv => (ht.other s hs uv huv).2⟩

/-- After one renaming the other coordinate is still the point's own, if the second renaming is not of the
variable that came with the first. -/
theorem IsFresh.isAlone_rename (ht : t.IsFresh p x y) {axis' : Axis} {own' w' : Variable}
    (h : t.renaming? q = some (axis, own, w))
    (h' : (t.rename axis own w a).renaming? r = some (axis', own', w')) (hne : own' ≠ w) :
    (t.rename axis own w a).IsAlone p axis' own' := by
  obtain ⟨-, hplace⟩ := renaming?_eq_some h
  obtain ⟨-, hplace'⟩ := renaming?_eq_some h'
  rcases hplace with ⟨rfl, hown⟩ | ⟨rfl, hown⟩ <;> rcases hplace' with ⟨rfl, hown'⟩ | ⟨rfl, hown'⟩
  · exact absurd (Option.some.inj hown').symm hne
  · cases ht.y_eq.symm.trans hown'
    exact ⟨ht.isPoint, ⟨ht.y_eq, w, rfl, hne.symm⟩, fun s hs uv huv => (ht.other s hs uv huv).2⟩
  · cases ht.x_eq.symm.trans hown'
    exact ⟨ht.isPoint, ⟨ht.x_eq, w, rfl, hne.symm⟩, fun s hs uv huv => (ht.other s hs uv huv).1⟩
  · exact absurd (Option.some.inj hown').symm hne

/-- What a second condition renames is the point's own, unless the first one renamed a coordinate to it. -/
theorem IsFresh.isAlone_absorb (ht : t.IsFresh p x y)
    (h : (t.absorb q).renaming? r = some (axis, own, w))
    (hne : ∀ axis' own', t.renaming? q ≠ some (axis', own', own)) : (t.absorb q).IsAlone p axis own := by
  cases hfirst : t.renaming? q with
  | none =>
      rw [absorb_of_none hfirst] at h ⊢
      obtain ⟨hpoint, hcoordinates, hother⟩ := ht.isAlone (q := r) h
      exact ⟨hpoint, hcoordinates, hother⟩
  | some found =>
      obtain ⟨axis', own', w'⟩ := found
      rw [absorb_of_some hfirst] at h ⊢
      refine ht.isAlone_rename hfirst h fun heq => hne axis' own' ?_
      rw [heq, hfirst]

/-- Both coordinates of a point stay there, whatever they are renamed to. -/
theorem isSome_coordinatesFor {s s' : Step} (hcore : s'.core = s.core) (hplaced : s'.isPlaced = true)
    (l : Label) (h : (p.coordinatesFor s l).isSome = true) : (p.coordinatesFor s' l).isSome = true := by
  have hlabel : s'.label = s.label := congr_arg Prod.fst hcore
  unfold Protocol.coordinatesFor at h ⊢
  rw [hlabel]
  split at h
  next hl =>
    rw [if_pos hl]
    exact hplaced
  next hl =>
    rw [if_neg hl]
    exact h

theorem rename_hypotheses_nil (h : t.hypotheses = []) : (t.rename axis own w a).hypotheses = [] := by
  change ((t.hypotheses.map _).filter _) = []
  rw [h]
  rfl

theorem IsFresh.isPlaced (ht : t.IsFresh p x y) : t.point.isPlaced = true :=
  isPlaced_iff.2 ⟨ht.isPoint, x, y, ht.x_eq, ht.y_eq⟩

/-- A condition that is met is retained with those before it, unless it renames a coordinate that is not the
point's own. -/
theorem Retains.absorb (h : t.Retains p cs) (hcs : ∀ d ∈ cs, d.template.IsPure) (hc : c.template.IsPure)
    (hq : c.polynomialAt (p.coordinatesFor t.point) = .ok q)
    (halone : ∀ {axis own w}, t.renaming? q = some (axis, own, w) → t.IsAlone p axis own) :
    (t.absorb q).Retains p (cs ++ [c]) := by
  obtain ⟨qs, hqs, hretained⟩ := h
  cases hrenaming : t.renaming? q with
  | none =>
      rw [absorb_of_none hrenaming]
      refine ⟨qs ++ [q], Condition.polynomialsAt_concat hqs hq, ?_⟩
      rw [hretained, Polynomial.nonzero_append]
  | some found =>
      obtain ⟨axis, own, w⟩ := found
      have hcoordinates : ∀ l uv, p.coordinatesFor t.point l = some uv →
          p.coordinatesFor (t.rename axis own w (q.coefficient own 1)).point l =
            some (Polynomial.replaced own w uv.1, Polynomial.replaced own w uv.2) :=
        fun _ _ huv => (halone hrenaming).coordinatesFor_rename huv
      have hqs' := Condition.polynomialsAt_rename hcs hcoordinates hqs
      have hq' := Condition.polynomialAt_rename hc hcoordinates hq
      rw [Polynomial.rename_replaced_of_pinned? (renaming?_eq_some hrenaming).1] at hq'
      rw [absorb_of_some hrenaming]
      refine ⟨_ ++ [0], Condition.polynomialsAt_concat hqs' hq', ?_⟩
      change Polynomial.nonzero (t.hypotheses.map _) = _
      rw [hretained, Polynomial.nonzero_map_nonzero, Polynomial.nonzero_append]
      exact (List.append_nil _).symm

/-- The hypotheses after two conditions: their polynomials at the coordinates that the point has in the end,
apart from zero, or none if the second condition renames what the first one renamed. -/
theorem IsFresh.hypotheses_meet (ht : t.IsFresh p x y) (hnil : t.hypotheses = [])
    (hlength : cs.length ≤ 2) (hcs : ∀ c ∈ cs, c.template.IsPure) (h : meet p t cs = (t', none)) :
    ∃ qs, Condition.polynomialsAt (p.coordinatesFor t'.point) cs = .ok qs ∧
      t'.hypotheses = if t.renamesAgain p cs then [] else Polynomial.nonzero qs := by
  have hstart : t.Retains p [] := ⟨[], rfl, hnil⟩
  match cs, hlength with
  | [], _ =>
      cases h
      exact hstart
  | [c], _ =>
      obtain ⟨q, hq, h⟩ := meet_cons h
      cases h
      exact hstart.absorb nofun (hcs c List.mem_cons_self) (Protocol.polynomialOf_eq_ok hq) ht.isAlone
  | [c, d], _ =>
      obtain ⟨q, hq, h⟩ := meet_cons h
      obtain ⟨r, hr, h⟩ := meet_cons h
      cases h
      have hc := hcs c List.mem_cons_self
      have hd := hcs d (List.mem_cons_of_mem _ List.mem_cons_self)
      have hcq := Protocol.polynomialOf_eq_ok hq
      have hdr := Protocol.polynomialOf_eq_ok hr
      by_cases hagain : t.renamesAgain p [c, d] = true
      · obtain ⟨axis, axis', own, own', w, hfirst, hsecond⟩ := (renamesAgain_pair hq hr).1 hagain
        have hplaced := isPlaced_absorb (isPlaced_absorb ht.isPlaced q) r
        have hcore := core_absorb (t.absorb q) r
        obtain ⟨q', hq'⟩ := Condition.exists_polynomialAt
          (fun l => isSome_coordinatesFor (hcore.trans (core_absorb t q)) hplaced l) hcq
        obtain ⟨r', hr'⟩ := Condition.exists_polynomialAt
          (fun l => isSome_coordinatesFor hcore hplaced l) hdr
        have hpolynomials : Condition.polynomialsAt _ ([] ++ [c] ++ [d]) = .ok ([] ++ [q'] ++ [r']) :=
          Condition.polynomialsAt_concat (Condition.polynomialsAt_concat rfl hq') hr'
        refine ⟨[q', r'], hpolynomials, ?_⟩
        rw [if_pos hagain, absorb_of_some hsecond, absorb_of_some hfirst]
        exact rename_hypotheses_nil (rename_hypotheses_nil hnil)
      · have hretained : (t.absorb q).Retains p [c] := hstart.absorb nofun hc hcq ht.isAlone
        have halone {axis own w} (hsecond : (t.absorb q).renaming? r = some (axis, own, w)) :
            (t.absorb q).IsAlone p axis own :=
          ht.isAlone_absorb hsecond fun axis' own' hfirst =>
            hagain ((renamesAgain_pair hq hr).2 ⟨axis', _, own', _, _, hfirst, hsecond⟩)
        obtain ⟨qs, hqs, hhypotheses⟩ :=
          hretained.absorb (List.forall_mem_singleton.2 hc) hd hdr halone
        exact ⟨qs, hqs, hhypotheses.trans (if_neg hagain).symm⟩

end Trial
end Planimetry
