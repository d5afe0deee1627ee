import Planimetry.Proofs.Except
import Planimetry.Proofs.Polynomial.Value
import Planimetry.Template

/-! Templates: their values, and which coordinates of the point under construction occur together. -/

namespace Planimetry

theorem lookup_map_snd {κ α β : Type} [BEq κ] (f : α → β) (es : List (κ × α)) (k : κ) :
    (es.map fun e => (e.1, f e.2)).lookup k = (es.lookup k).map f := by
  induction es with
  | nil => rfl
  | cons e es ih =>
      rw [List.map_cons, List.lookup_cons, List.lookup_cons]
      split
      next => rfl
      next => exact ih

def Variable.isPlaceholder : Variable → Bool
  | .placeholder .. => true
  | _ => false

namespace Vector

variable (u v : Vector) (c : ℚ)

@[simp] theorem x_add : (u + v).x = u.x + v.x := rfl

@[simp] theorem y_add : (u + v).y = u.y + v.y := rfl

@[simp] theorem x_sub : (u - v).x = u.x - v.x := rfl

@[simp] theorem y_sub : (u - v).y = u.y - v.y := rfl

@[simp] theorem x_scale : (u.scale c).x = u.x.scale c := rfl

@[simp] theorem y_scale : (u.scale c).y = u.y.scale c := rfl

end Vector

namespace Template

/-- All variables satisfy a condition. -/
def HasVars (P : Variable → Prop) (t : Template) : Prop := ∀ v ∈ t.vars, P v

section HasVars

variable {P : Variable → Prop} {t s : Template}

theorem hasVars_constant (c : ℚ) : HasVars P (Polynomial.constant c) := by
  intro v hv
  rw [← Polynomial.mem_vars_toMv, Polynomial.toMv_constant, MvPolynomial.vars_C] at hv
  exact absurd hv (Finset.notMem_empty v)

theorem hasVars_one : HasVars P 1 := hasVars_constant 1

theorem hasVars_coordinate {r : Label} {a : Axis} (h : P (.placeholder r a)) :
    HasVars P (coordinate r a) := fun _ hv => Polynomial.mem_vars_ofVariable.1 hv ▸ h

theorem HasVars.add (ht : HasVars P t) (hs : HasVars P s) : HasVars P (t + s) := fun v hv =>
  (Polynomial.mem_vars_add hv).elim (ht v) (hs v)

theorem HasVars.sub (ht : HasVars P t) (hs : HasVars P s) : HasVars P (t - s) := fun v hv =>
  (Polynomial.mem_vars_sub hv).elim (ht v) (hs v)

theorem HasVars.mul (ht : HasVars P t) (hs : HasVars P s) : HasVars P (t * s) := fun v hv =>
  (Polynomial.mem_vars_mul hv).elim (ht v) (hs v)

end HasVars

/-- All variables stand for coordinates of roles. -/
def IsPure (t : Template) : Prop := t.HasVars fun v => v.isPlaceholder = true

/-- No monomial contains both coordinates of the point under construction. -/
def IsApart (t : Template) : Prop :=
  ∀ m ∈ t.entries, m.1.degree (.placeholder own .x) = 0 ∨ m.1.degree (.placeholder own .y) = 0

instance (t : Template) : Decidable t.IsPure :=
  inferInstanceAs (Decidable (∀ v ∈ t.vars, _))

instance (t : Template) : Decidable t.IsApart :=
  inferInstanceAs (Decidable (∀ m ∈ t.entries, _))

theorem isApart_iff {t : Template} : t.IsApart ↔
    ∀ e ∈ t.toMv.support, e (.placeholder own .x) = 0 ∨ e (.placeholder own .y) = 0 := by
  constructor
  · intro h e he
    obtain ⟨m, hm, rfl⟩ :=
      Polynomial.exists_mem_of_coeff_ne_zero (MvPolynomial.mem_support_iff.1 he)
    rw [Monomial.exponents_apply, Monomial.exponents_apply]
    exact h m hm
  · intro h m hm
    rw [← Monomial.exponents_apply, ← Monomial.exponents_apply]
    exact h _ (Polynomial.mem_support.2 ⟨m.2, hm⟩)

/-- No variable stands for a coordinate of the point under construction. -/
def IsOwnFree (t : Template) : Prop := t.HasVars fun v => ∀ a, v ≠ .placeholder own a

section IsApart

variable {t s : Template}

/-- A factor without the point under construction keeps its coordinates apart. -/
theorem IsApart.mul (hs : s.IsApart) (ht : t.IsOwnFree) : (s * t).IsApart := by
  rw [isApart_iff] at hs ⊢
  intro e he
  rw [Polynomial.toMv_mul] at he
  obtain ⟨e₁, h₁, e₂, h₂, rfl⟩ := Finset.mem_add.1 (MvPolynomial.support_mul _ _ he)
  have hfree (a : Axis) : e₂ (.placeholder own a) = 0 := by
    by_contra hne
    refine ht (.placeholder own a) (Polynomial.mem_vars_toMv.1 ?_) a rfl
    rw [MvPolynomial.mem_vars_iff_mem_support]
    exact ⟨e₂, h₂, Finsupp.mem_support_iff.2 hne⟩
  rw [Finsupp.add_apply, Finsupp.add_apply, hfree, hfree]
  exact hs e₁ h₁

theorem IsApart.mul_left (hs : s.IsApart) (ht : t.IsOwnFree) : (t * s).IsApart := by
  have h := isApart_iff.1 (hs.mul ht)
  rw [Polynomial.toMv_mul, mul_comm, ← Polynomial.toMv_mul] at h
  exact isApart_iff.2 h

theorem IsApart.add (ht : t.IsApart) (hs : s.IsApart) : (t + s).IsApart := by
  rw [isApart_iff] at ht hs ⊢
  intro e he
  rw [Polynomial.toMv_add] at he
  rcases Finset.mem_union.1 (MvPolynomial.support_add he) with he | he
  · exact ht e he
  · exact hs e he

theorem IsApart.sub (ht : t.IsApart) (hs : s.IsApart) : (t - s).IsApart := by
  rw [isApart_iff] at ht hs ⊢
  intro e he
  rw [Polynomial.toMv_sub] at he
  rcases Finset.mem_union.1 (MvPolynomial.support_sub _ _ _ he) with he | he
  · exact ht e he
  · exact hs e he

end IsApart

/-- All variables of numerator and denominator satisfy a condition. -/
def TangentHasVars (P : Variable → Prop) (t : Tangent) : Prop :=
  t.numerator.HasVars P ∧ t.denominator.HasVars P

/-- Numerator and denominator keep the coordinates of the point under construction apart. -/
def TangentIsApart (t : Tangent) : Prop := t.numerator.IsApart ∧ t.denominator.IsApart

section Tangent

variable {P : Variable → Prop} {s t : Tangent} {a o b : Label}

theorem tangentHasVars_angleTangent (ha : ∀ axis, P (.placeholder a axis))
    (ho : ∀ axis, P (.placeholder o axis)) (hb : ∀ axis, P (.placeholder b axis)) :
    TangentHasVars P (angleTangent a o b) := by
  have hdifference {r : Label} (hr : ∀ axis, P (.placeholder r axis)) (axis : Axis) :
      HasVars P (coordinate r axis - coordinate o axis) :=
    (hasVars_coordinate (hr axis)).sub (hasVars_coordinate (ho axis))
  exact ⟨((hdifference ha .x).mul (hdifference hb .y)).sub
    ((hdifference ha .y).mul (hdifference hb .x)),
    ((hdifference ha .x).mul (hdifference hb .x)).add
      ((hdifference ha .y).mul (hdifference hb .y))⟩

theorem TangentHasVars.tangentOfSum (hs : TangentHasVars P s) (ht : TangentHasVars P t) :
    TangentHasVars P (Template.tangentOfSum s t) :=
  ⟨(hs.1.mul ht.2).add (ht.1.mul hs.2), (hs.2.mul ht.2).sub (hs.1.mul ht.1)⟩

theorem TangentIsApart.tangentOfSum (hs : TangentHasVars (fun v => ∀ a, v ≠ .placeholder own a) s)
    (ht : TangentIsApart t) : TangentIsApart (Template.tangentOfSum s t) :=
  ⟨(ht.2.mul_left hs.1).add (ht.1.mul hs.2), (ht.2.mul_left hs.2).sub (ht.1.mul_left hs.1)⟩

theorem tangentIsApart_ray : TangentIsApart (angleTangent "A" "O" own) := by
  unfold TangentIsApart
  decide +kernel

theorem placeholder_ne_own {r : Label} (hr : r ≠ own) (axis a : Axis) :
    Variable.placeholder r axis ≠ .placeholder own a := fun h => hr (Variable.placeholder.inj h).1

theorem isOwnFree_angleTangent (ha : a ≠ own) (ho : o ≠ own) (hb : b ≠ own) :
    TangentHasVars (fun v => ∀ a, v ≠ .placeholder own a) (angleTangent a o b) :=
  tangentHasVars_angleTangent (placeholder_ne_own ha) (placeholder_ne_own ho)
    (placeholder_ne_own hb)

theorem isApart_angleRay : angleRay.IsApart := by
  have hgiven := isOwnFree_angleTangent (a := "A1") (o := "O1") (b := "B1")
    (by decide) (by decide) (by decide)
  exact (tangentIsApart_ray.1.mul hgiven.2).sub (tangentIsApart_ray.2.mul hgiven.1)

theorem isApart_angleRayToSixty : angleRayToSixty.IsApart := by
  have hfirst := isOwnFree_angleTangent (a := "A1") (o := "O1") (b := "B1")
    (by decide) (by decide) (by decide)
  have hsecond := isOwnFree_angleTangent (a := "A2") (o := "O2") (b := "B2")
    (by decide) (by decide) (by decide)
  have hsum := TangentIsApart.tangentOfSum (hfirst.tangentOfSum hsecond) tangentIsApart_ray
  exact hsum.1.sub (hsum.2.mul (hasVars_coordinate (placeholder_ne_own (by decide) .x)))

theorem isPure_angleRay : angleRay.IsPure := by
  have hangle (a o b : Label) :=
    tangentHasVars_angleTangent (P := fun v => v.isPlaceholder = true) (a := a) (o := o) (b := b)
      (fun _ => rfl) (fun _ => rfl) (fun _ => rfl)
  have hray := hangle "A" "O" own
  have hgiven := hangle "A1" "O1" "B1"
  exact (hray.1.mul hgiven.2).sub (hray.2.mul hgiven.1)

theorem isPure_angleRayToSixty : angleRayToSixty.IsPure := by
  have hangle (a o b : Label) :=
    tangentHasVars_angleTangent (P := fun v => v.isPlaceholder = true) (a := a) (o := o) (b := b)
      (fun _ => rfl) (fun _ => rfl) (fun _ => rfl)
  have hsum := ((hangle "A1" "O1" "B1").tangentOfSum (hangle "A2" "O2" "B2")).tangentOfSum
    (hangle "A" "O" own)
  exact hsum.1.sub (hsum.2.mul (hasVars_coordinate rfl))

end Tangent

/-- The templates by which points are placed, other than those of angle rays. -/
def placing : List Template :=
  [midpoint.1, midpoint.2, shift.1, shift.2, centralSymmetry.1, centralSymmetry.2, quarterTurn.1,
    quarterTurn.2, reflection.1, reflection.2, foot.1, foot.2, circleCenter.1, circleCenter.2,
    tangentOfSixty.1, tangentOfSixty.2, collinear own "A" "B", parallel "P" own "A" "B",
    perpendicular "P" own "A" "B", equidistant own "A" "B", onCircle own "O" "A",
    onCircleWithDiameter own "A" "B", concyclic "A" "B" "C" own]

theorem isApart_of_mem_placing : ∀ t ∈ placing, t.IsApart := by decide +kernel

theorem isPure_of_mem_placing : ∀ t ∈ placing, t.IsPure := by decide +kernel

/-- The templates of statements. -/
def stating : List Template :=
  [0, identicalPoints "A" "B", collinear "A" "B" "C", parallel "A" "B" "C" "D",
    perpendicular "A" "B" "C" "D", congruentSegments "A" "B" "C" "D", concyclic "A" "B" "C" "D"]

theorem isPure_of_mem_stating : ∀ t ∈ stating, t.IsPure := by decide +kernel

theorem mem_roles {t : Template} {r : Label} :
    r ∈ t.roles ↔ ∃ a, Variable.placeholder r a ∈ t.vars := by
  unfold roles
  rw [List.mem_eraseDups, List.mem_filterMap]
  constructor
  · rintro ⟨v, hv, hr⟩
    cases v with
    | placeholder s a =>
        cases hr
        exact ⟨a, hv⟩
    | free i => cases hr
    | dependent i => cases hr
  · rintro ⟨a, ha⟩
    exact ⟨_, ha, rfl⟩

variable {α : Type} {coordinates : Label → Option (α × α)} {t : Template}

theorem checkRoles_eq_ok :
    t.checkRoles coordinates = .ok () ↔ ∀ r ∈ t.roles, (coordinates r).isSome = true := by
  have hfilter : (t.roles.filter fun r => (coordinates r).isNone) = [] ↔
      ∀ r ∈ t.roles, (coordinates r).isSome = true := by
    rw [List.filter_eq_nil_iff]
    refine forall₂_congr fun r _ => ?_
    cases coordinates r <;> simp
  rw [← hfilter]
  unfold checkRoles
  split
  next h => exact iff_of_true rfl h
  next h =>
    refine iff_of_false nofun fun hnil => ?_
    exact h hnil

variable {q : Polynomial} {coords : Label → Option (Variable × Variable)}
  {place : Label → Option (ℚ × ℚ)} {σ : Variable → ℚ}

/-- The variable in place of a variable of a template. -/
def assigned (coords : Label → Option (Variable × Variable)) : Variable → Variable
  | .placeholder r a => (coordinate? coords r a).getD (.placeholder r a)
  | v => v

/-- An instance has a point for each role. -/
theorem instantiate_eq_ok (h : t.instantiate coords = .ok q) :
    (∀ r ∈ t.roles, (coords r).isSome = true) ∧ q = t.rename (assigned coords) := by
  unfold instantiate at h
  obtain ⟨u, hroles, h⟩ := bind_eq_ok h
  refine ⟨checkRoles_eq_ok.1 hroles,
    (Except.ok.inj h).symm.trans (congr_arg (t.rename ·) (funext fun v => ?_))⟩
  cases v <;> rfl

theorem assigned_placeholder {r : Label} {a : Axis} {xy : Variable × Variable}
    (h : coords r = some xy) :
    assigned coords (.placeholder r a) = match a with
      | .x => xy.1
      | .y => xy.2 := by
  cases a <;> simp [assigned, coordinate?, h]

/-- The variables of a polynomial from a template are coordinates of the points for its roles. -/
theorem mem_vars_of_instantiate {v : Variable} (ht : t.IsPure) (h : t.instantiate coords = .ok q)
    (hv : v ∈ q.vars) : ∃ r xy, coords r = some xy ∧ (v = xy.1 ∨ v = xy.2) := by
  obtain ⟨hsome, rfl⟩ := instantiate_eq_ok h
  obtain ⟨u, hu, rfl⟩ := Polynomial.mem_vars_rename hv
  cases u with
  | free i => exact absurd (ht _ hu) nofun
  | dependent i => exact absurd (ht _ hu) nofun
  | placeholder r a =>
      obtain ⟨xy, hxy⟩ := Option.isSome_iff_exists.1 (hsome r (mem_roles.2 ⟨a, hu⟩))
      rw [assigned_placeholder hxy]
      cases a with
      | x => exact ⟨r, xy, hxy, .inl rfl⟩
      | y => exact ⟨r, xy, hxy, .inr rfl⟩

/-- A polynomial from a template takes the value of the template where the coordinates of its roles
are what the variables stand for. -/
theorem value_eq_valueAt (ht : t.IsPure)
    (hplace : ∀ r xy, coords r = some xy → place r = some (σ xy.1, σ xy.2))
    (h : t.instantiate coords = .ok q) : t.value place = .ok (q.valueAt σ) := by
  obtain ⟨hsome, rfl⟩ := instantiate_eq_ok h
  have hplaced : t.checkRoles place = .ok () := by
    refine checkRoles_eq_ok.2 fun r hr => ?_
    obtain ⟨xy, hxy⟩ := Option.isSome_iff_exists.1 (hsome r hr)
    rw [hplace r xy hxy]
    rfl
  unfold value
  simp only [hplaced, bind, Except.bind, pure, Except.pure, Except.ok.injEq]
  rw [Polynomial.eval_eq_valueAt, Polynomial.valueAt_rename]
  refine Polynomial.valueAt_congr fun v hv => ?_
  cases v with
  | free i => exact absurd (ht _ hv) nofun
  | dependent i => exact absurd (ht _ hv) nofun
  | placeholder r a =>
      obtain ⟨xy, hxy⟩ := Option.isSome_iff_exists.1 (hsome r (mem_roles.2 ⟨a, hv⟩))
      rw [assigned_placeholder hxy]
      cases a <;> simp [coordinate?, hplace r xy hxy]

/-- The values of the coordinates of roles with given places. -/
def located (place : Label → ℚ × ℚ) : Variable → ℚ
  | .placeholder r .x => (place r).1
  | .placeholder r .y => (place r).2
  | _ => 0

/-- The value of a template is that at the places of its roles. -/
theorem value_eq_located {at? : Label → Option (ℚ × ℚ)} (ht : t.IsPure)
    (h : ∀ r ∈ t.roles, (at? r).isSome = true) :
    t.value at? = .ok (t.valueAt (located fun r => (at? r).getD 0)) := by
  unfold value
  simp only [checkRoles_eq_ok.2 h, bind, Except.bind, pure, Except.pure, Except.ok.injEq]
  rw [Polynomial.eval_eq_valueAt]
  refine Polynomial.valueAt_congr fun v hv => ?_
  cases v with
  | free i => exact absurd (ht _ hv) nofun
  | dependent i => exact absurd (ht _ hv) nofun
  | placeholder r a =>
      obtain ⟨xy, hxy⟩ := Option.isSome_iff_exists.1 (h r (mem_roles.2 ⟨a, hv⟩))
      cases a <;> simp [coordinate?, located, hxy]

section Values

variable (σ : Variable → ℚ) (a b c d : Label)

/-- The values of the coordinates of a role. -/
def roleValue (r : Label) : ℚ × ℚ := (σ (.placeholder r .x), σ (.placeholder r .y))

theorem valueAt_squareDistance : (squareDistance a b).valueAt σ =
    ((roleValue σ b).1 - (roleValue σ a).1) * ((roleValue σ b).1 - (roleValue σ a).1) +
      ((roleValue σ b).2 - (roleValue σ a).2) * ((roleValue σ b).2 - (roleValue σ a).2) := by
  simp [squareDistance, between, position, Vector.square, Vector.dot, coordinate, roleValue]

theorem valueAt_parallel : (parallel a b c d).valueAt σ =
    ((roleValue σ b).1 - (roleValue σ a).1) * ((roleValue σ d).2 - (roleValue σ c).2) -
      ((roleValue σ b).2 - (roleValue σ a).2) * ((roleValue σ d).1 - (roleValue σ c).1) := by
  simp [parallel, between, position, Vector.cross, coordinate, roleValue]

theorem valueAt_perpendicular : (perpendicular a b c d).valueAt σ =
    ((roleValue σ b).1 - (roleValue σ a).1) * ((roleValue σ d).1 - (roleValue σ c).1) +
      ((roleValue σ b).2 - (roleValue σ a).2) * ((roleValue σ d).2 - (roleValue σ c).2) := by
  simp [perpendicular, between, position, Vector.dot, coordinate, roleValue]

theorem valueAt_collinear : (collinear a b c).valueAt σ =
    ((roleValue σ b).1 - (roleValue σ a).1) * ((roleValue σ c).2 - (roleValue σ a).2) -
      ((roleValue σ b).2 - (roleValue σ a).2) * ((roleValue σ c).1 - (roleValue σ a).1) :=
  valueAt_parallel σ a b a c

end Values

end Template
end Planimetry
