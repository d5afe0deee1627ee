import Mathlib.Algebra.MvPolynomial.Monad
import Planimetry.Proofs.Polynomial.Univariate
import Planimetry.Proofs.Template

/-! Evaluation at partial assignments: where the operands of an operation have values, its result has
one, and this is what the operation makes of the values of the operands. -/

namespace Planimetry

namespace Polynomial

/-! ### Operations in the polynomial ring -/

theorem sum_cons (p : Polynomial) (ps : List Polynomial) : Sparse.sum (p :: ps) = p + Sparse.sum ps := by
  apply toMv_injective
  rw [toMv_sum, toMv_add, toMv_sum, List.map_cons, List.sum_cons]

/-- The sum of a list, from left to right. -/
def sumOf : List Polynomial → Polynomial
  | [] => 0
  | p :: ps => ps.foldl (· + ·) p

theorem foldl_add (ps : List Polynomial) (p : Polynomial) :
    ps.foldl (· + ·) p = p + Sparse.sum ps := by
  apply toMv_injective
  induction ps generalizing p with
  | nil => simp
  | cons q qs ih => rw [List.foldl_cons, ih, sum_cons, toMv_add, toMv_add, toMv_add, toMv_add, add_assoc]

/-- The sum from left to right is the balanced sum. -/
theorem sumOf_eq (ps : List Polynomial) : sumOf ps = Sparse.sum ps := by
  cases ps with
  | nil => rfl
  | cons p ps => rw [sumOf, foldl_add, sum_cons]

theorem inVariable_eq_specialize (p : Polynomial) (v : Variable) :
    p.inVariable v = p.specialize (MvPolynomial.X (R := ℚ)) v := by
  have hid : (MvPolynomial.aeval (R := ℚ) (MvPolynomial.X : Variable → _)).toRingHom =
      RingHom.id (MvPolynomial Variable ℚ) := by
    ext <;> simp
  rw [specialize, hid, Polynomial.map_id]

theorem nodup_eraseDups {α : Type*} [BEq α] [LawfulBEq α] (xs : List α) : xs.eraseDups.Nodup := by
  match xs with
  | [] => exact .nil
  | x :: xs =>
      have hle := List.length_filter_le (fun y => !y == x) xs
      rw [List.eraseDups_cons, List.nodup_cons, List.mem_eraseDups, List.mem_filter]
      exact ⟨by simp, nodup_eraseDups _⟩
termination_by xs.length
decreasing_by
  rw [List.length_cons]
  omega

theorem nodup_exponents (p : Polynomial) (v : Variable) : (p.exponents v).Nodup :=
  nodup_eraseDups _

/-- An exponent that does not occur has no coefficient. -/
theorem coefficient_eq_zero {p : Polynomial} {v : Variable} {n : ℕ} (h : n ∉ p.exponents v) :
    p.coefficient v n = 0 := by
  unfold coefficient
  rw [List.filter_eq_nil_iff.2]
  · rfl
  · intro t ht hd
    refine h (List.mem_eraseDups.2 (List.mem_map.2 ⟨t, ht, ?_⟩))
    exact of_decide_eq_true hd

/-- Substitution puts a polynomial in place of the unknown. -/
theorem toMv_substitute_eq_eval (p : Polynomial) (v : Variable) (q : Polynomial) :
    (p.substitute v q).toMv = (p.inVariable v).eval q.toMv := by
  have hsupport : (p.inVariable v).support ⊆ (p.exponents v).toFinset := by
    intro n hn
    rw [Polynomial.mem_support_iff, coeff_inVariable, ne_eq, toMv_eq_zero] at hn
    rw [List.mem_toFinset]
    by_contra hmem
    exact hn (coefficient_eq_zero hmem)
  rw [Polynomial.eval_eq_sum, Polynomial.sum_eq_of_subset (fun n a => a * q.toMv ^ n)
    (fun n => zero_mul _) hsupport, List.sum_toFinset _ (nodup_exponents p v), substitute, toMv_sum,
    List.map_map]
  refine congr_arg List.sum (List.map_congr_left fun n _ => ?_)
  rw [Function.comp_apply, toMv_mul, toMv_pow, coeff_inVariable]

theorem toMv_substitute (p : Polynomial) (v : Variable) (q : Polynomial) :
    (p.substitute v q).toMv =
      MvPolynomial.bind₁ (Function.update MvPolynomial.X v q.toMv) p.toMv := by
  rw [toMv_substitute_eq_eval, inVariable_eq_specialize, eval_specialize]
  rfl

section Value

variable {K : Type*} [CommRing K] [Algebra ℚ K] (σ : Variable → K)

theorem valueAt_pow (p : Polynomial) (n : ℕ) : valueAt σ (p ^ n) = valueAt σ p ^ n := by
  simp [valueAt]

theorem valueAt_substitute (p : Polynomial) (v : Variable) (q : Polynomial) :
    valueAt σ (p.substitute v q) = valueAt (Function.update σ v (valueAt σ q)) p := by
  unfold valueAt
  rw [toMv_substitute, MvPolynomial.aeval_bind₁]
  congr 2
  funext w
  by_cases h : w = v
  · subst h
    rw [Function.update_self, Function.update_self]
  · rw [Function.update_of_ne h, Function.update_of_ne h, MvPolynomial.aeval_X]

end Value

theorem valueAt_mulTerm (σ : Variable → ℚ) (m : Monomial) (c : ℚ) (p : Polynomial) :
    valueAt σ (p.mulTerm m c) = valueAt σ p * (c * m.eval σ) := by
  unfold valueAt
  rw [toMv_mulTerm, map_mul, MvPolynomial.aeval_monomial, eval_eq_prod]
  rfl

/-! ### The variables of a result -/

section Vars

variable {p q : Polynomial} {v w : Variable}

theorem vars_constant (c : ℚ) : (constant c).vars = [] := isConstant_iff.1 (isConstant_constant c)

theorem mem_vars_scale {c : ℚ} (h : w ∈ (p.scale c).vars) : w ∈ p.vars := by
  rw [← mem_vars_toMv, toMv_scale] at h
  rcases Finset.mem_union.1 (MvPolynomial.vars_mul _ _ h) with h | h
  · rw [MvPolynomial.vars_C] at h
    exact absurd h (Finset.notMem_empty w)
  · exact mem_vars_toMv.1 h

theorem mem_vars_pow {n : ℕ} (h : w ∈ (p ^ n).vars) : w ∈ p.vars := by
  rw [← mem_vars_toMv, toMv_pow] at h
  exact mem_vars_toMv.1 (MvPolynomial.vars_pow _ _ h)

theorem mem_vars_mulTerm {m : Monomial} {c : ℚ} (h : w ∈ (p.mulTerm m c).vars) :
    w ∈ p.vars ∨ w ∈ m.vars := by
  rw [← mem_vars_toMv, toMv_mulTerm] at h
  rcases Finset.mem_union.1 (MvPolynomial.vars_mul _ _ h) with h | h
  · exact .inl (mem_vars_toMv.1 h)
  · rw [MvPolynomial.mem_vars_iff_mem_support] at h
    obtain ⟨e, he, hw⟩ := h
    rw [Finset.mem_singleton.1 (MvPolynomial.support_monomial_subset he)] at hw
    exact .inr (Monomial.mem_vars.2 (Finsupp.mem_support_iff.1 hw))

theorem mem_vars_substitute (h : w ∈ (p.substitute v q).vars) :
    w ∈ p.vars ∧ w ≠ v ∨ v ∈ p.vars ∧ w ∈ q.vars := by
  rw [← mem_vars_toMv, toMv_substitute] at h
  obtain ⟨u, hu, hw⟩ := MvPolynomial.mem_vars_bind₁ _ _ h
  rw [mem_vars_toMv] at hu
  by_cases huv : u = v
  · subst huv
    rw [Function.update_self, mem_vars_toMv] at hw
    exact .inr ⟨hu, hw⟩
  · rw [Function.update_of_ne huv, MvPolynomial.vars_X, Finset.mem_singleton] at hw
    exact .inl ⟨hw ▸ hu, hw ▸ huv⟩

end Vars

/-! ### Values at partial assignments -/

section Partial

variable {s : Variable → Option ℚ} {p q : Polynomial} {a b : ℚ}

/-- A value needs all variables that occur, and no other. -/
theorem eval?_eq_some : p.eval? s = some a ↔
    (∀ v ∈ p.vars, (s v).isSome = true) ∧ valueAt (fun v => (s v).getD 0) p = a := by
  unfold eval?
  split
  next h => rw [Option.some_inj, eval_eq_valueAt, and_iff_right (List.all_eq_true.1 h)]
  next h => exact iff_of_false nofun fun hs => h (List.all_eq_true.2 hs.1)

theorem exists_eval?_eq_some : (∃ a, p.eval? s = some a) ↔ ∀ v ∈ p.vars, (s v).isSome = true := by
  simp only [eval?_eq_some, exists_and_left, exists_eq', and_true]

theorem eval?_congr {s' : Variable → Option ℚ} (h : ∀ v ∈ p.vars, s v = s' v) :
    p.eval? s = p.eval? s' := by
  ext a
  rw [eval?_eq_some, eval?_eq_some]
  refine and_congr (forall₂_congr fun v hv => by rw [h v hv]) ?_
  rw [valueAt_congr fun v hv => by rw [h v hv]]

theorem eval?_constant (c : ℚ) : (constant c).eval? s = some c := by
  refine eval?_eq_some.2 ⟨fun v hv => ?_, valueAt_constant _ c⟩
  rw [vars_constant] at hv
  cases hv

theorem eval?_ofVariable (v : Variable) : (ofVariable v).eval? s = s v := by
  ext a
  simp only [eval?_eq_some, mem_vars_ofVariable, forall_eq, valueAt_ofVariable]
  cases s v <;> simp

/-- An operation that brings in no variables has a value where its operands have. -/
theorem eval?_of_valueAt {r : Polynomial} {f : ℚ → ℚ → ℚ}
    (hvars : ∀ v ∈ r.vars, v ∈ p.vars ∨ v ∈ q.vars)
    (hvalue : ∀ σ : Variable → ℚ, valueAt σ r = f (valueAt σ p) (valueAt σ q))
    (hp : p.eval? s = some a) (hq : q.eval? s = some b) : r.eval? s = some (f a b) := by
  obtain ⟨hpvars, rfl⟩ := eval?_eq_some.1 hp
  obtain ⟨hqvars, rfl⟩ := eval?_eq_some.1 hq
  exact eval?_eq_some.2 ⟨fun v hv => (hvars v hv).elim (hpvars v) (hqvars v), hvalue _⟩

theorem eval?_add (hp : p.eval? s = some a) (hq : q.eval? s = some b) :
    (p + q).eval? s = some (a + b) :=
  eval?_of_valueAt (fun _ => mem_vars_add) (fun σ => valueAt_add σ p q) hp hq

theorem eval?_sub (hp : p.eval? s = some a) (hq : q.eval? s = some b) :
    (p - q).eval? s = some (a - b) :=
  eval?_of_valueAt (fun _ => mem_vars_sub) (fun σ => valueAt_sub σ p q) hp hq

theorem eval?_mul (hp : p.eval? s = some a) (hq : q.eval? s = some b) :
    (p * q).eval? s = some (a * b) :=
  eval?_of_valueAt (fun _ => mem_vars_mul) (fun σ => valueAt_mul σ p q) hp hq

theorem eval?_scale (c : ℚ) (hp : p.eval? s = some a) : (p.scale c).eval? s = some (c * a) :=
  eval?_of_valueAt (f := fun a _ => c * a) (fun _ hv => .inl (mem_vars_scale hv))
    (fun σ => valueAt_scale σ c p) hp hp

theorem eval?_neg (hp : p.eval? s = some a) : (-p).eval? s = some (-a) := by
  have h := eval?_scale (-1) hp
  rwa [neg_one_mul] at h

theorem eval?_pow (n : ℕ) (hp : p.eval? s = some a) : (p ^ n).eval? s = some (a ^ n) :=
  eval?_of_valueAt (f := fun a _ => a ^ n) (fun _ hv => .inl (mem_vars_pow hv))
    (fun σ => valueAt_pow σ p n) hp hp

theorem eval?_mulTerm (m : Monomial) (c : ℚ) (hp : p.eval? s = some a)
    (hm : ∀ v ∈ m.vars, (s v).isSome = true) :
    (p.mulTerm m c).eval? s = some (a * (c * m.eval fun v => (s v).getD 0)) := by
  obtain ⟨hvars, rfl⟩ := eval?_eq_some.1 hp
  exact eval?_eq_some.2 ⟨fun v hv => (mem_vars_mulTerm hv).elim (hvars v) (hm v),
    valueAt_mulTerm _ m c p⟩

theorem eval?_sumOf {ps : List Polynomial} {as : List ℚ}
    (h : List.Forall₂ (fun p a => p.eval? s = some a) ps as) : (sumOf ps).eval? s = some as.sum := by
  rw [sumOf_eq]
  induction h with
  | nil => exact eval?_constant 0
  | cons hp _ ih =>
      rw [sum_cons, List.sum_cons]
      exact eval?_add hp ih

/-- The replacement needs a value only if the variable occurs. -/
theorem eval?_substitute {v : Variable} (hq : v ∈ p.vars → q.eval? s = some b)
    (hp : p.eval? (Function.update s v (some b)) = some a) :
    (p.substitute v q).eval? s = some a := by
  obtain ⟨hvars, rfl⟩ := eval?_eq_some.1 hp
  refine eval?_eq_some.2 ⟨fun w hw => ?_, ?_⟩
  · rcases mem_vars_substitute hw with ⟨hw, hne⟩ | ⟨hv, hw⟩
    · have hsome := hvars w hw
      rwa [Function.update_of_ne hne] at hsome
    · exact (eval?_eq_some.1 (hq hv)).1 w hw
  · rw [valueAt_substitute]
    refine valueAt_congr fun w hw => ?_
    by_cases h : w = v
    · subst h
      rw [Function.update_self, Function.update_self, (eval?_eq_some.1 (hq hw)).2]
      rfl
    · rw [Function.update_of_ne h, Function.update_of_ne h]

theorem eval?_rename (f : Variable → Variable) (hp : p.eval? (fun v => s (f v)) = some a) :
    (p.rename f).eval? s = some a := by
  obtain ⟨hvars, rfl⟩ := eval?_eq_some.1 hp
  refine eval?_eq_some.2 ⟨fun w hw => ?_, valueAt_rename _ f p⟩
  obtain ⟨v, hv, rfl⟩ := mem_vars_rename hw
  exact hvars v hv

end Partial

end Polynomial

/-! ### Instances of templates -/

namespace Template

/-- The values that a template sees, which are those of the variables in place of its own. -/
def seen (coords : Label → Option (Variable × Variable)) (s : Variable → Option ℚ) :
    Variable → Option ℚ
  | .placeholder r a => (coordinate? coords r a).bind s
  | v => s v

section Instantiate

variable {coords : Label → Option (Variable × Variable)} {s : Variable → Option ℚ} {t : Template}

theorem instantiate_eq (coords : Label → Option (Variable × Variable)) (t : Template) :
    t.instantiate coords = (t.checkRoles coords).map fun _ => t.rename (assigned coords) := by
  unfold instantiate
  cases t.checkRoles coords with
  | error e => rfl
  | ok u =>
      refine congr_arg (fun f => Except.ok (t.rename f)) (funext fun v => ?_)
      cases v <;> rfl

/-- An instance is refused exactly for roles without a point. -/
theorem instantiate_eq_error {e : MissingRoles} : t.instantiate coords = .error e ↔
    e.roles = (t.roles.filter fun r => (coords r).isNone) ∧
      ∃ r a, .placeholder r a ∈ t.vars ∧ coords r = none := by
  have hmissing : (∃ r a, .placeholder r a ∈ t.vars ∧ coords r = none) ↔
      (t.roles.filter fun r => (coords r).isNone) ≠ [] := by
    rw [ne_eq, List.filter_eq_nil_iff]
    push Not
    simp only [mem_roles, Option.isNone_iff_eq_none, exists_and_right]
  rw [hmissing, instantiate_eq, checkRoles]
  split
  next hnil =>
    rw [hnil]
    exact iff_of_false nofun fun h => h.2 rfl
  next hne =>
    refine ⟨fun h => ?_, fun h => ?_⟩
    · cases h
      exact ⟨rfl, hne⟩
    · exact congr_arg Except.error (congr_arg MissingRoles.mk h.1.symm)

theorem seen_eq {v : Variable} (h : (seen coords s v).isSome = true) :
    seen coords s v = s (assigned coords v) := by
  cases v with
  | free i => rfl
  | dependent i => rfl
  | placeholder r a =>
      simp only [seen, assigned] at h ⊢
      cases hc : coordinate? coords r a with
      | none => simp [hc] at h
      | some w => rfl

/-- A template has the value that its instance has at the points in place of the roles. -/
theorem eval?_instantiate {a : ℚ} (h : t.eval? (seen coords s) = some a) :
    ∃ q, t.instantiate coords = .ok q ∧ q.eval? s = some a := by
  have hvars := (Polynomial.eval?_eq_some.1 h).1
  cases hq : t.instantiate coords with
  | error e =>
      obtain ⟨-, r, a, hr, hnone⟩ := instantiate_eq_error.1 hq
      have hsome := hvars _ hr
      rw [seen, coordinate?, hnone] at hsome
      cases hsome
  | ok q =>
      refine ⟨q, rfl, ?_⟩
      rw [(instantiate_eq_ok hq).2]
      refine Polynomial.eval?_rename _ ((Polynomial.eval?_congr fun v hv => ?_).trans h)
      exact (seen_eq (hvars v hv)).symm

end Instantiate

end Template

namespace Polynomial

/-- What evaluation at an assignment makes of each operation. Operands have values where all of their
variables do. A replaced variable takes the value of its replacement, and a renamed one that of its
new name; all variables are renamed at once, and may become equal or change places. A template takes
the coordinates of the points that play its roles, and has no instance if one is missing. -/
structure RespectsOperations (s : Variable → Option ℚ) : Prop where
  defined : ∀ p : Polynomial, (∃ a, p.eval? s = some a) ↔ ∀ v ∈ p.vars, (s v).isSome = true
  constant : ∀ c, (constant c).eval? s = some c
  ofVariable : ∀ v, (ofVariable v).eval? s = s v
  add : ∀ (p q : Polynomial) (a b : ℚ), p.eval? s = some a → q.eval? s = some b →
    (p + q).eval? s = some (a + b)
  sub : ∀ (p q : Polynomial) (a b : ℚ), p.eval? s = some a → q.eval? s = some b →
    (p - q).eval? s = some (a - b)
  mul : ∀ (p q : Polynomial) (a b : ℚ), p.eval? s = some a → q.eval? s = some b →
    (p * q).eval? s = some (a * b)
  scale : ∀ (p : Polynomial) (a c : ℚ), p.eval? s = some a → (p.scale c).eval? s = some (c * a)
  neg : ∀ (p : Polynomial) (a : ℚ), p.eval? s = some a → (-p).eval? s = some (-a)
  pow : ∀ (p : Polynomial) (a : ℚ) (n : ℕ), p.eval? s = some a → (p ^ n).eval? s = some (a ^ n)
  mulTerm : ∀ (p : Polynomial) (a c : ℚ) (m : Monomial), p.eval? s = some a →
    (∀ v ∈ m.vars, (s v).isSome = true) →
      (p.mulTerm m c).eval? s = some (a * (c * m.eval fun v => (s v).getD 0))
  sum : ∀ (ps : List Polynomial) (as : List ℚ), ps.Forall₂ (fun p a => p.eval? s = some a) as →
    (sumOf ps).eval? s = some as.sum
  substitute : ∀ (p q : Polynomial) (v : Variable) (a b : ℚ),
    (v ∈ p.vars → q.eval? s = some b) → p.eval? (Function.update s v (some b)) = some a →
      (p.substitute v q).eval? s = some a
  rename : ∀ (p : Polynomial) (f : Variable → Variable) (a : ℚ),
    p.eval? (fun v => s (f v)) = some a → (p.rename f).eval? s = some a
  instantiate : ∀ (t : Template) (coords : Label → Option (Variable × Variable)) (a : ℚ),
    t.eval? (Template.seen coords s) = some a →
      ∃ q, t.instantiate coords = .ok q ∧ q.eval? s = some a
  missing : ∀ (t : Template) (coords : Label → Option (Variable × Variable)) (e : MissingRoles),
    t.instantiate coords = .error e ↔
      e.roles = (t.roles.filter fun r => (coords r).isNone) ∧
        ∃ r a, .placeholder r a ∈ t.vars ∧ coords r = none

/-- Evaluation is a homomorphism for all operations on polynomials. -/
theorem respectsOperations_eval? (s : Variable → Option ℚ) : RespectsOperations s :=
  { defined := fun _ => exists_eval?_eq_some
    constant := eval?_constant
    ofVariable := eval?_ofVariable
    add := fun _ _ _ _ => eval?_add
    sub := fun _ _ _ _ => eval?_sub
    mul := fun _ _ _ _ => eval?_mul
    scale := fun _ _ c => eval?_scale c
    neg := fun _ _ => eval?_neg
    pow := fun _ _ n => eval?_pow n
    mulTerm := fun _ _ c m => eval?_mulTerm m c
    sum := fun _ _ => eval?_sumOf
    substitute := fun _ _ _ _ _ => eval?_substitute
    rename := fun _ f _ => eval?_rename f
    instantiate := fun _ _ _ => Template.eval?_instantiate
    missing := fun _ _ _ => Template.instantiate_eq_error }

end Polynomial
end Planimetry
