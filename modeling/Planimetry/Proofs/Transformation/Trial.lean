import Mathlib.Tactic.LinearCombination
import Planimetry.Proofs.Figure.Condition
import Planimetry.Proofs.Polynomial.Univariate
import Planimetry.Transformation.Trial

/-! Trials: conditions that hold put the coordinates of a point where the point is, unless a factor
that renaming divides out vanishes; and none of these factors is lost. -/

namespace Planimetry

namespace Polynomial

variable {q : Polynomial} {own w : Variable}

theorem pinned?_eq_some (h : q.pinned? own = some w) :
    q.degree own = 1 ∧ w ≠ own ∧ w ∉ (q.coefficient own 1).vars ∧
      q.coefficient own 1 * ofVariable w + q.coefficient own 0 = 0 := by
  unfold pinned? at h
  split at h
  · cases h
  next hown =>
    have hfound := List.find?_some h
    rw [Bool.or_eq_true, not_or, decide_eq_true_iff, not_not] at hown
    rw [Bool.and_eq_true, Bool.and_eq_true, decide_eq_true_iff, Bool.not_eq_true',
      Sparse.isZero_iff] at hfound
    refine ⟨hown.2, hfound.1.1, ?_, hfound.2⟩
    simpa using hfound.1.2

theorem mem_vars_of_pinned? (h : q.pinned? own = some w) : w ∈ q.vars := by
  unfold pinned? at h
  split at h
  · cases h
  · exact (mem_vars_coefficient (List.mem_of_find?_eq_some h)).1

/-- Where a polynomial vanishes, so does the factor, or else the variables agree. -/
theorem eq_of_pinned? {K : Type*} [Field K] [Algebra ℚ K] {σ : Variable → K}
    (h : q.pinned? own = some w) (hq : q.valueAt σ = 0)
    (hfactor : (q.coefficient own 1).valueAt σ ≠ 0) : σ own = σ w := by
  obtain ⟨hdegree, -, -, hzero⟩ := pinned?_eq_some h
  have hw := congr_arg (valueAt σ) hzero
  rw [valueAt_add, valueAt_mul, valueAt_ofVariable, valueAt_zero] at hw
  rw [valueAt_of_degree_eq_one σ hdegree] at hq
  have hdiff : (q.coefficient own 1).valueAt σ * (σ own - σ w) = 0 := by
    linear_combination hq - hw
  exact sub_eq_zero.1 ((mul_eq_zero.1 hdiff).resolve_left hfactor)

theorem factor_ne_zero (h : q.pinned? own = some w) : q.coefficient own 1 ≠ 0 := by
  have hdegree := (pinned?_eq_some h).1
  have hq : q ≠ 0 := by
    rintro rfl
    cases hdegree
  have hinitial := initial_ne_zero hq own
  rwa [initial, hdegree] at hinitial

end Polynomial

namespace Trial

variable {t : Trial} {q : Polynomial}

theorem renaming?_eq_some {axis : Axis} {own w : Variable} (h : t.renaming? q = some (axis, own, w)) :
    q.pinned? own = some w ∧
      (axis = .x ∧ t.point.placement.x = some own ∨ axis = .y ∧ t.point.placement.y = some own) := by
  unfold renaming? at h
  simp only [Option.orElse_eq_orElse, Option.orElse_eq_or, Option.or_eq_some_iff,
    Option.bind_eq_some_iff, Option.map_eq_some_iff, Prod.mk.injEq] at h
  rcases h with ⟨x, hx, w', hw, rfl, rfl, rfl⟩ | ⟨-, y, hy, w', hw, rfl, rfl, rfl⟩
  · exact ⟨hw, .inl ⟨rfl, hx⟩⟩
  · exact ⟨hw, .inr ⟨rfl, hy⟩⟩

/-- What a trial does with a polynomial. -/
theorem absorb_cases (t : Trial) (q : Polynomial) :
    (q = 0 ∧ t.absorb q = t) ∨
    (q ≠ 0 ∧ t.absorb q = { t with hypotheses := t.hypotheses ++ [q] }) ∨
    ∃ axis own w, q.pinned? own = some w ∧
      (axis = .x ∧ t.point.placement.x = some own ∨ axis = .y ∧ t.point.placement.y = some own) ∧
      t.absorb q = t.rename axis own w (q.coefficient own 1) := by
  unfold absorb
  split
  next hz => exact .inl ⟨Sparse.isZero_iff.1 hz, rfl⟩
  next hz =>
    have hne : q ≠ 0 := fun h => hz (Sparse.isZero_iff.2 h)
    split
    next axis own w h =>
      obtain ⟨hpinned, hplace⟩ := renaming?_eq_some h
      exact .inr (.inr ⟨axis, own, w, hpinned, hplace, rfl⟩)
    next => exact .inr (.inl ⟨hne, rfl⟩)

/-- A variable that stands for a coordinate of the point of the trial. -/
def IsCoordinate (t : Trial) (v : Variable) : Prop :=
  t.point.placement.x = some v ∨ t.point.placement.y = some v

/-- The factors divided out do not mention the coordinates of the point, so that later renaming leaves
them as they are. -/
def IsClear (t : Trial) : Prop := ∀ a ∈ t.factors, ∀ v, t.IsCoordinate v → v ∉ a.vars

/-- The factor that a renaming records. -/
def recorded (a : Polynomial) : List Polynomial := if a.isConstant then [] else [a]

theorem factors_rename {axis : Axis} {own w : Variable} {a : Polynomial} (ht : t.IsClear)
    (hown : t.IsCoordinate own) (ha : own ∉ a.vars) :
    (t.rename axis own w a).factors = t.factors ++ recorded a := by
  have hsame {b : Polynomial} (hb : own ∉ b.vars) :
      b.rename (fun v => if v = own then w else v) = b :=
    Polynomial.rename_eq_self fun v hv => if_neg fun (h : v = own) => hb (h ▸ hv)
  change (t.factors ++ recorded a).map _ = _
  refine (List.map_congr_left (g := id) fun b hb => hsame ?_).trans (List.map_id _)
  rcases List.mem_append.1 hb with hb | hb
  · exact ht b hb own hown
  · unfold recorded at hb
    split at hb
    · cases hb
    · exact List.mem_singleton.1 hb ▸ ha

/-- The factors after a polynomial: those before it, and that of a renaming if there is one. -/
theorem factors_absorb (ht : t.IsClear) (q : Polynomial) :
    ∃ extra, (t.absorb q).factors = t.factors ++ extra ∧ ∀ a ∈ extra, a.isConstant = false := by
  rcases t.absorb_cases q with ⟨-, h⟩ | ⟨-, h⟩ | ⟨axis, own, w, hpinned, hplace, h⟩
  · exact ⟨[], by rw [h, List.append_nil], List.forall_mem_nil _⟩
  · exact ⟨[], by rw [h, List.append_nil], List.forall_mem_nil _⟩
  · have hown : t.IsCoordinate own := hplace.imp And.right And.right
    refine ⟨recorded (q.coefficient own 1), ?_, ?_⟩
    · rw [h]
      exact factors_rename ht hown fun hmem => (Polynomial.mem_vars_coefficient hmem).2 rfl
    · unfold recorded
      split
      · exact List.forall_mem_nil _
      next hconstant => exact List.forall_mem_singleton.2 (Bool.eq_false_iff.2 hconstant)

/-- No monomial contains both variables. -/
def Separates (q : Polynomial) (x y : Variable) : Prop :=
  ∀ e ∈ q.entries, e.1.exponents x = 0 ∨ e.1.exponents y = 0

theorem not_mem_vars_factor {x y : Variable} (h : Separates q x y) :
    y ∉ (q.coefficient x 1).vars ∧ x ∉ (q.coefficient y 1).vars := by
  constructor
  · intro hmem
    obtain ⟨e, he, hone, hne, -⟩ := Polynomial.exists_mem_of_mem_vars_coefficient hmem
    exact (h e he).elim (fun hz => by omega) hne
  · intro hmem
    obtain ⟨e, he, hone, hne, -⟩ := Polynomial.exists_mem_of_mem_vars_coefficient hmem
    exact (h e he).elim hne (fun hz => by omega)

/-- The first polynomial leaves a clear trial if it keeps the coordinates of the point apart. -/
theorem isClear_absorb {x y : Variable} (hfactors : t.factors = [])
    (hx : t.point.placement.x = some x) (hy : t.point.placement.y = some y)
    (hq : Separates q x y) : (t.absorb q).IsClear := by
  have hclear : t.IsClear := by
    intro a ha
    rw [hfactors] at ha
    cases ha
  obtain ⟨hyx, hxy⟩ := not_mem_vars_factor hq
  rcases t.absorb_cases q with ⟨-, h⟩ | ⟨-, h⟩ | ⟨axis, own, w, hpinned, hplace, h⟩
  · rw [h]
    exact hclear
  · rw [h]
    exact hclear
  · obtain ⟨-, -, hw, -⟩ := Polynomial.pinned?_eq_some hpinned
    intro a ha v hv
    rw [h, factors_rename hclear (hplace.imp And.right And.right)
      fun hmem => (Polynomial.mem_vars_coefficient hmem).2 rfl, hfactors, List.nil_append] at ha
    unfold recorded at ha
    split at ha
    · cases ha
    · rw [List.mem_singleton.1 ha]
      rw [h] at hv
      rcases hplace with ⟨rfl, hown⟩ | ⟨rfl, hown⟩
      · cases hx.symm.trans hown
        rcases hv with hv | hv
        · cases hv
          exact hw
        · cases hy.symm.trans hv
          exact hyx
      · cases hy.symm.trans hown
        rcases hv with hv | hv
        · cases hx.symm.trans hv
          exact hxy
        · cases hv
          exact hw

theorem core_absorb (t : Trial) (q : Polynomial) : (t.absorb q).point.core = t.point.core := by
  rcases t.absorb_cases q with ⟨-, h⟩ | ⟨-, h⟩ | ⟨axis, own, w, -, -, h⟩
  · rw [h]
  · rw [h]
  · rw [h]
    rfl

section Value

variable {K : Type*} [Field K] [Algebra ℚ K] {σ : Variable → K} {xy : K × K}

/-- At an assignment the point of the trial has the given coordinates, and all that is kept vanishes. -/
structure IsSatisfied (σ : Variable → K) (xy : K × K) (t : Trial) : Prop where
  coordinates : ∃ x y, t.point.placement.x = some x ∧ t.point.placement.y = some y ∧
    σ x = xy.1 ∧ σ y = xy.2
  hypotheses : ∀ h ∈ t.hypotheses, h.valueAt σ = 0

theorem IsSatisfied.rename {axis : Axis} {own w : Variable} {a : Polynomial}
    (ht : t.IsSatisfied σ xy)
    (hplace : axis = .x ∧ t.point.placement.x = some own ∨
      axis = .y ∧ t.point.placement.y = some own)
    (hw : σ own = σ w) : (t.rename axis own w a).IsSatisfied σ xy := by
  obtain ⟨x, y, hx, hy, hσx, hσy⟩ := ht.coordinates
  refine ⟨?_, fun h hh => ?_⟩
  · rcases hplace with ⟨rfl, hown⟩ | ⟨rfl, hown⟩
    · cases hx.symm.trans hown
      exact ⟨w, y, rfl, hy, hw ▸ hσx, hσy⟩
    · cases hy.symm.trans hown
      exact ⟨x, w, hx, rfl, hσx, hw ▸ hσy⟩
  · obtain ⟨k, hk, rfl⟩ := List.mem_map.1 (List.mem_filter.1 hh).1
    have hσ : (fun v => σ (if v = own then w else v)) = σ := by
      funext v
      split
      next heq => rw [heq, hw]
      next => rfl
    rw [Polynomial.valueAt_rename, hσ]
    exact ht.hypotheses k hk

/-- A polynomial that vanishes keeps a trial satisfied, unless a factor vanishes. -/
theorem IsSatisfied.absorb (ht : t.IsSatisfied σ xy) (hclear : t.IsClear) (hq : q.valueAt σ = 0)
    (hfactors : ∀ a ∈ (t.absorb q).factors, a.valueAt σ ≠ 0) : (t.absorb q).IsSatisfied σ xy := by
  rcases t.absorb_cases q with ⟨-, h⟩ | ⟨-, h⟩ | ⟨axis, own, w, hpinned, hplace, h⟩
  · rw [h]
    exact ht
  · rw [h]
    refine ⟨ht.coordinates, fun k hk => ?_⟩
    rcases List.mem_append.1 hk with hk | hk
    · exact ht.hypotheses k hk
    · rw [List.mem_singleton.1 hk]
      exact hq
  · rw [h]
    refine ht.rename hplace (Polynomial.eq_of_pinned? hpinned hq ?_)
    cases hconstant : (q.coefficient own 1).isConstant with
    | true =>
        exact Polynomial.valueAt_ne_zero_of_isConstant σ hconstant
          (Polynomial.factor_ne_zero hpinned)
    | false =>
        apply hfactors
        rw [h, factors_rename hclear (hplace.imp And.right And.right)
          fun hmem => (Polynomial.mem_vars_coefficient hmem).2 rfl]
        refine List.mem_append_right _ ?_
        unfold recorded
        rw [hconstant]
        exact List.mem_singleton_self _

end Value

end Trial

namespace Protocol

variable {p : Protocol} {s : Step} {c : Condition} {q : Polynomial}

theorem polynomialOf_eq_ok (h : p.polynomialOf s c = .ok q) :
    Template.instantiate (fun r => (c.roles.lookup r).bind (p.coordinatesFor s)) c.template =
      .ok q := by
  unfold polynomialOf at h
  split at h
  · cases h
  · revert h
    cases Template.instantiate (fun r => (c.roles.lookup r).bind (p.coordinatesFor s))
      c.template with
    | error e => exact nofun
    | ok q' => exact fun h => congr_arg _ (Except.ok.inj h)

/-- The polynomial of a condition has the value of its template, if the coordinates are those of the
points. -/
theorem holdsAt_iff_valueAt_polynomialOf {σ : Variable → ℚ} {place : Label → ℚ × ℚ}
    (h : p.polynomialOf s c = .ok q) (hc : c.template.IsPure)
    (hplace : ∀ l xy, p.coordinatesFor s l = some xy → place l = (σ xy.1, σ xy.2)) :
    c.HoldsAt place ↔ q.valueAt σ = 0 := by
  have hvalue : c.template.value (fun r => (c.roles.lookup r).map place) = .ok (q.valueAt σ) := by
    refine Template.value_eq_valueAt hc (fun r xy hxy => ?_) (polynomialOf_eq_ok h)
    obtain ⟨l, hl, hxy⟩ := Option.bind_eq_some_iff.1 hxy
    rw [hl, Option.map_some, hplace l xy hxy]
  unfold Condition.HoldsAt
  rw [hvalue, Except.ok.injEq]

/-- A placing condition gives a polynomial that keeps the coordinates of its point apart, if these are
not the coordinates of other points as well. -/
theorem separates_polynomialOf {x y : Variable} (h : p.polynomialOf s c = .ok q)
    (hc : c.Places s.label) (hxy : x ≠ y) (hown : s.coordinates? = some (x, y))
    (hother : ∀ l uv, l ≠ s.label → p.coordinatesFor s l = some uv →
      (uv.1 ≠ x ∧ uv.2 ≠ x) ∧ uv.1 ≠ y ∧ uv.2 ≠ y) : Trial.Separates q x y := by
  obtain ⟨hsome, rfl⟩ := Template.instantiate_eq_ok (polynomialOf_eq_ok h)
  have hvars : ∀ v ∈ c.template.vars,
      (Template.assigned (fun r => (c.roles.lookup r).bind (p.coordinatesFor s)) v = x →
        v = .placeholder Template.own .x) ∧
      (Template.assigned (fun r => (c.roles.lookup r).bind (p.coordinatesFor s)) v = y →
        v = .placeholder Template.own .y) := by
    intro v hv
    cases v with
    | free i => exact absurd (hc.isPure _ hv) nofun
    | dependent i => exact absurd (hc.isPure _ hv) nofun
    | placeholder r a =>
        obtain ⟨uv, huv⟩ := Option.isSome_iff_exists.1 (hsome r (Template.mem_roles.2 ⟨a, hv⟩))
        rw [Template.assigned_placeholder huv]
        obtain ⟨l, hl, hlabel⟩ := Option.bind_eq_some_iff.1 huv
        by_cases hls : l = s.label
        · obtain ⟨before, after, hroles, -⟩ := List.lookup_eq_some_iff.1 hl
          have hr : r = Template.own := hc.own_role (r, l) (by simp [hroles]) hls
          have hpair : uv = (x, y) := by
            unfold coordinatesFor at hlabel
            rw [if_pos hls, hown] at hlabel
            exact (Option.some.inj hlabel).symm
          subst hr hpair
          cases a with
          | x => exact ⟨fun _ => rfl, fun heq => absurd heq hxy⟩
          | y => exact ⟨fun heq => absurd heq.symm hxy, fun _ => rfl⟩
        · obtain ⟨hx, hy⟩ := hother l uv hls hlabel
          cases a with
          | x => exact ⟨fun heq => absurd heq hx.1, fun heq => absurd heq hy.1⟩
          | y => exact ⟨fun heq => absurd heq hx.2, fun heq => absurd heq hy.2⟩
  intro e he
  obtain ⟨u, hu, hcoeff⟩ := MvPolynomial.coeff_rename_ne_zero _ _ _
    (Polynomial.toMv_rename _ _ ▸ Polynomial.coeff_ne_zero_of_mem he)
  have hsource {z : Variable} (hz : e.1.exponents z ≠ 0) :
      ∃ v ∈ c.template.vars, u v ≠ 0 ∧
        Template.assigned (fun r => (c.roles.lookup r).bind (p.coordinatesFor s)) v = z := by
    rw [← hu, ← Finsupp.mem_support_iff] at hz
    obtain ⟨v, hv, hvz⟩ := Finset.mem_image.1 (Finsupp.mapDomain_support hz)
    refine ⟨v, Polynomial.mem_vars_toMv.1 ?_, Finsupp.mem_support_iff.1 hv, hvz⟩
    rw [MvPolynomial.mem_vars_iff_mem_support]
    exact ⟨u, MvPolynomial.mem_support_iff.2 hcoeff, hv⟩
  by_contra hboth
  rw [not_or] at hboth
  obtain ⟨v, hv, hne, hvx⟩ := hsource hboth.1
  obtain ⟨w, hw, hne', hwy⟩ := hsource hboth.2
  rw [(hvars v hv).1 hvx] at hne
  rw [(hvars w hw).2 hwy] at hne'
  rcases Template.isApart_iff.1 hc.isApart u (MvPolynomial.mem_support_iff.2 hcoeff) with hz | hz
  · exact hne hz
  · exact hne' hz

end Protocol

namespace Trial

variable {p p' : Protocol} {t t' : Trial} {c : Condition} {cs : List Condition}

theorem meet_cons (h : meet p t (c :: cs) = (t', none)) :
    ∃ q, p.polynomialOf t.point c = .ok q ∧ meet p (t.absorb q) cs = (t', none) := by
  unfold meet at h
  split at h
  next => cases h
  next q hq => exact ⟨q, hq, h⟩

theorem isPoint_of_core {s s' : Step} (h : s.core = s'.core) : s.isPoint = s'.isPoint := by
  have hconstruction : s.construction = s'.construction := congr_arg (fun c => c.2.1) h
  unfold Step.isPoint Step.category
  rw [hconstruction]

section Fresh

variable {x y : Variable}

/-- The coordinates of the point are those given, and no other object has them. -/
structure IsFresh (p : Protocol) (t : Trial) (x y : Variable) : Prop where
  isPoint : t.point.isPoint = true
  x_eq : t.point.placement.x = some x
  y_eq : t.point.placement.y = some y
  ne : x ≠ y
  other : ∀ s ∈ p.steps, ∀ uv, s.coordinates? = some uv →
    (uv.1 ≠ x ∧ uv.2 ≠ x) ∧ uv.1 ≠ y ∧ uv.2 ≠ y

theorem IsFresh.separates {q : Polynomial} (ht : t.IsFresh p x y)
    (hc : c.Places t.point.label) (h : p.polynomialOf t.point c = .ok q) : Separates q x y := by
  refine Protocol.separates_polynomialOf h hc ht.ne ?_ fun l uv hl huv => ?_
  · unfold Step.coordinates? Placement.coordinates?
    rw [if_pos ht.isPoint, ht.x_eq, ht.y_eq]
  · unfold Protocol.coordinatesFor at huv
    rw [if_neg hl, Option.bind_eq_some_iff] at huv
    obtain ⟨s, hs, huv⟩ := huv
    exact ht.other s (Protocol.mem_of_get? hs).1 uv huv

/-- The factors of the first condition survive the second. -/
theorem IsFresh.meet_pair {c d : Condition} (ht : t.IsFresh p x y) (hfactors : t.factors = [])
    (hc : c.Places t.point.label) (h : meet p t [c, d] = (t', none)) :
    ∃ q r, p.polynomialOf t.point c = .ok q ∧ p.polynomialOf (t.absorb q).point d = .ok r ∧
      (t.absorb q).IsClear ∧ t' = (t.absorb q).absorb r := by
  obtain ⟨q, hq, h⟩ := meet_cons h
  obtain ⟨r, hr, h⟩ := meet_cons h
  cases h
  exact ⟨q, r, hq, hr, isClear_absorb hfactors ht.x_eq ht.y_eq (ht.separates hc hq), rfl⟩

theorem isClear_of_factors (hfactors : t.factors = []) : t.IsClear := by
  intro a ha
  rw [hfactors] at ha
  cases ha

/-- No factor that meeting two conditions divides out is a constant. -/
theorem IsFresh.factors_meet (ht : t.IsFresh p x y) (hfactors : t.factors = [])
    (hlength : cs.length ≤ 2) (hcs : ∀ c ∈ cs, c.Places t.point.label)
    (h : meet p t cs = (t', none)) : ∀ a ∈ t'.factors, a.isConstant = false := by
  match cs, hlength with
  | [], _ =>
      cases h
      rw [hfactors]
      exact List.forall_mem_nil _
  | [c], _ =>
      obtain ⟨q, -, h⟩ := meet_cons h
      cases h
      obtain ⟨extra, heq, hextra⟩ := factors_absorb (isClear_of_factors hfactors) q
      rw [heq, hfactors]
      exact hextra
  | [c, d], _ =>
      obtain ⟨q, r, -, -, hclear, rfl⟩ :=
        ht.meet_pair hfactors (List.forall_mem_cons.1 hcs).1 h
      obtain ⟨first, hfirst, hfirst'⟩ := factors_absorb (isClear_of_factors hfactors) q
      obtain ⟨second, hsecond, hsecond'⟩ := factors_absorb hclear r
      rw [hsecond, hfirst, hfactors]
      exact List.forall_mem_append.2 ⟨hfirst', hsecond'⟩

variable {σ : Variable → ℚ} {place : Label → ℚ × ℚ}

/-- The coordinates of all points are those of their places. -/
def FaithfulAt (σ : Variable → ℚ) (place : Label → ℚ × ℚ) (p : Protocol) : Prop :=
  ∀ s ∈ p.steps, (∀ x, s.placement.x = some x → σ x = (place s.label).1) ∧
    ∀ y, s.placement.y = some y → σ y = (place s.label).2

theorem coordinates?_eq_some {s : Step} {uv : Variable × Variable} (h : s.coordinates? = some uv) :
    s.placement.x = some uv.1 ∧ s.placement.y = some uv.2 := by
  unfold Step.coordinates? at h
  split at h
  · unfold Placement.coordinates? at h
    split at h
    next x y hx hy =>
      cases h
      exact ⟨hx, hy⟩
    next => cases h
  · cases h

/-- A condition that holds gives a polynomial that vanishes. -/
theorem IsSatisfied.valueAt_polynomialOf {q : Polynomial} (hp : FaithfulAt σ place p)
    (ht : t.IsSatisfied σ (place t.point.label)) (hc : c.template.IsPure) (hholds : c.HoldsAt place)
    (h : p.polynomialOf t.point c = .ok q) : q.valueAt σ = 0 := by
  refine (Protocol.holdsAt_iff_valueAt_polynomialOf h hc fun l uv huv => ?_).1 hholds
  unfold Protocol.coordinatesFor at huv
  split at huv
  next hl =>
    obtain ⟨x, y, hx, hy, hσx, hσy⟩ := ht.coordinates
    obtain ⟨hx', hy'⟩ := coordinates?_eq_some huv
    cases hx.symm.trans hx'
    cases hy.symm.trans hy'
    rw [hl, hσx, hσy]
  next hl =>
    obtain ⟨s, hs, huv⟩ := Option.bind_eq_some_iff.1 huv
    obtain ⟨hmem, hlabel⟩ := Protocol.mem_of_get? hs
    obtain ⟨hx, hy⟩ := coordinates?_eq_some huv
    obtain ⟨hσx, hσy⟩ := hp s hmem
    rw [hσx _ hx, hσy _ hy, hlabel]

theorem label_absorb (t : Trial) (q : Polynomial) : (t.absorb q).point.label = t.point.label :=
  congr_arg Prod.fst (core_absorb t q)

/-- Conditions that hold place the point, unless a factor vanishes. -/
theorem IsFresh.isSatisfied_meet (ht : t.IsFresh p x y) (hfactors : t.factors = [])
    (hlength : cs.length ≤ 2) (hcs : ∀ c ∈ cs, c.Places t.point.label)
    (h : meet p t cs = (t', none)) (hp : FaithfulAt σ place p)
    (hsat : t.IsSatisfied σ (place t.point.label)) (hholds : ∀ c ∈ cs, c.HoldsAt place)
    (hne : ∀ a ∈ t'.factors, a.valueAt σ ≠ 0) : t'.IsSatisfied σ (place t.point.label) := by
  match cs, hlength with
  | [], _ =>
      cases h
      exact hsat
  | [c], _ =>
      obtain ⟨q, hq, h⟩ := meet_cons h
      cases h
      have hc := hcs c List.mem_cons_self
      have hzero := hsat.valueAt_polynomialOf hp hc.isPure (hholds c List.mem_cons_self) hq
      exact hsat.absorb (isClear_of_factors hfactors) hzero hne
  | [c, d], _ =>
      obtain ⟨hc, hd⟩ := List.forall_mem_cons.1 hcs
      obtain ⟨hcholds, hdholds⟩ := List.forall_mem_cons.1 hholds
      obtain ⟨q, r, hq, hr, hclear, rfl⟩ := ht.meet_pair hfactors hc h
      have hd := hd d List.mem_cons_self
      have hdholds := hdholds d List.mem_cons_self
      obtain ⟨extra, hextra, -⟩ := factors_absorb hclear r
      have hfirst : (t.absorb q).IsSatisfied σ (place t.point.label) := by
        refine hsat.absorb (isClear_of_factors hfactors)
          (hsat.valueAt_polynomialOf hp hc.isPure hcholds hq) fun a ha => hne a ?_
        rw [hextra]
        exact List.mem_append_left _ ha
      rw [← label_absorb t q] at hfirst ⊢
      exact hfirst.absorb hclear (hfirst.valueAt_polynomialOf hp hd.isPure hdholds hr) hne

end Fresh

section Coordinates

variable {P : Variable → Prop}

/-- All coordinates of the points of a protocol satisfy a condition. -/
def CoordinatesSatisfy (P : Variable → Prop) (p : Protocol) : Prop :=
  ∀ s ∈ p.steps, (∀ x, s.placement.x = some x → P x) ∧ ∀ y, s.placement.y = some y → P y

theorem mem_vars_polynomialOf {s : Step} {q : Polynomial} {v : Variable}
    (h : p.polynomialOf s c = .ok q) (hc : c.template.IsPure) (hv : v ∈ q.vars) :
    ∃ l uv, p.coordinatesFor s l = some uv ∧ (v = uv.1 ∨ v = uv.2) := by
  obtain ⟨r, uv, huv, hv⟩ := Template.mem_vars_of_instantiate hc (Protocol.polynomialOf_eq_ok h) hv
  obtain ⟨l, -, hl⟩ := Option.bind_eq_some_iff.1 huv
  exact ⟨l, uv, hl, hv⟩

/-- The polynomial of a condition is in coordinates, of the step or of other ones. -/
theorem satisfy_polynomialOf {s : Step} {q : Polynomial} (hp : CoordinatesSatisfy P p)
    (hs : ∀ uv, s.coordinates? = some uv → P uv.1 ∧ P uv.2) (hc : c.template.IsPure)
    (h : p.polynomialOf s c = .ok q) : ∀ v ∈ q.vars, P v := by
  intro v hv
  obtain ⟨l, uv, huv, hv⟩ := mem_vars_polynomialOf h hc hv
  have hboth : P uv.1 ∧ P uv.2 := by
    unfold Protocol.coordinatesFor at huv
    split at huv
    · exact hs uv huv
    · obtain ⟨u, hu, huv⟩ := Option.bind_eq_some_iff.1 huv
      obtain ⟨hx, hy⟩ := coordinates?_eq_some huv
      have hsat := hp u (Protocol.mem_of_get? hu).1
      exact ⟨hsat.1 _ hx, hsat.2 _ hy⟩
  rcases hv with rfl | rfl
  · exact hboth.1
  · exact hboth.2

/-- Renaming gives a point coordinates of other points only. -/
theorem satisfy_absorb {q : Polynomial} (ht : ∀ v, t.IsCoordinate v → P v)
    (hq : ∀ v ∈ q.vars, P v) : ∀ v, (t.absorb q).IsCoordinate v → P v := by
  rcases t.absorb_cases q with ⟨-, h⟩ | ⟨-, h⟩ | ⟨axis, own, w, hpinned, hplace, h⟩
  · rw [h]
    exact ht
  · rw [h]
    exact ht
  · rw [h]
    have hw : P w := hq w (Polynomial.mem_vars_of_pinned? hpinned)
    intro v hv
    rcases hplace with ⟨rfl, -⟩ | ⟨rfl, -⟩
    · rcases hv with hv | hv
      · cases hv
        exact hw
      · exact ht v (.inr hv)
    · rcases hv with hv | hv
      · exact ht v (.inl hv)
      · cases hv
        exact hw

theorem satisfy_meet (hp : CoordinatesSatisfy P p) (ht : ∀ v, t.IsCoordinate v → P v)
    (hcs : ∀ c ∈ cs, c.template.IsPure) (h : meet p t cs = (t', none)) :
    ∀ v, t'.IsCoordinate v → P v := by
  induction cs generalizing t with
  | nil =>
      cases h
      exact ht
  | cons c cs ih =>
      obtain ⟨q, hq, h⟩ := meet_cons h
      obtain ⟨hc, hcs⟩ := List.forall_mem_cons.1 hcs
      refine ih (satisfy_absorb ht (satisfy_polynomialOf hp (fun uv huv => ?_) hc hq)) hcs h
      obtain ⟨hx, hy⟩ := coordinates?_eq_some huv
      exact ⟨ht _ (.inl hx), ht _ (.inr hy)⟩

end Coordinates

theorem core_meet (h : meet p t cs = (t', none)) : t'.point.core = t.point.core := by
  induction cs generalizing t with
  | nil =>
      cases h
      rfl
  | cons c cs ih =>
      obtain ⟨q, -, h⟩ := meet_cons h
      exact (ih h).trans (core_absorb t q)

end Trial
end Planimetry
