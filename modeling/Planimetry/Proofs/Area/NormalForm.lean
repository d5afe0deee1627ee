import Mathlib.Algebra.BigOperators.Ring.List
import Planimetry.Area.Expansion
import Planimetry.Proofs.Area.Reading
import Planimetry.Proofs.Sparse

/-! Normal forms: the numerator of a single fraction vanishes where the expression does, and its expanded
form has the same value. -/

namespace Planimetry.Area

variable {ν : Quantity → ℚ}

namespace Expr

variable {a b e : Expr} {x y z : ℚ} {f g : Option Expr}

/-- The value of a factor that may be absent; an absent one stands for one. -/
def DenotesOption (ν : Quantity → ℚ) : Option Expr → ℚ → Prop
  | none, x => x = 1
  | some e, x => e.Denotes ν x

theorem DenotesOption.eq (hx : DenotesOption ν f x) (hy : DenotesOption ν f y) : x = y := by
  cases f with
  | none => exact Eq.trans (show x = 1 from hx) (show y = 1 from hy).symm
  | some e => exact Denotes.eq hx hy

theorem Denotes.times (ha : a.Denotes ν x) (hf : DenotesOption ν f y) :
    (a.times f).Denotes ν (x * y) := by
  cases f with
  | none =>
      obtain rfl : y = 1 := hf
      exact ha.of_eq (mul_one x).symm
  | some b => exact Denotes.mul ha hf

theorem DenotesOption.times (hf : DenotesOption ν f x) (hg : DenotesOption ν g y) :
    DenotesOption ν (timesOption f g) (x * y) := by
  cases f with
  | none =>
      obtain rfl : x = 1 := hf
      rw [one_mul]
      exact hg
  | some a => exact Denotes.times hf hg

/-- The value of a fraction whose denominator may be absent; a denominator that is there is not zero. -/
def DenotesFraction (ν : Quantity → ℚ) (p : Expr × Option Expr) (x : ℚ) : Prop :=
  ∃ y z, p.1.Denotes ν y ∧ DenotesOption ν p.2 z ∧ z ≠ 0 ∧ x = y / z

/-- A sum or a difference of fractions is one fraction, over their denominator if they have the same one. -/
theorem DenotesFraction.join {node : Expr → Expr → Expr} {op : ℚ → ℚ → ℚ} {p q : Expr × Option Expr}
    (hnode : ∀ {a b : Expr} {x y : ℚ}, a.Denotes ν x → b.Denotes ν y → (node a b).Denotes ν (op x y))
    (hop : ∀ x y z, op (x / z) (y / z) = op x y / z)
    (hp : DenotesFraction ν p x) (hq : DenotesFraction ν q y) :
    DenotesFraction ν (if p.2 = q.2 then (node p.1 q.1, p.2)
      else (node (p.1.times q.2) (q.1.times p.2), timesOption p.2 q.2)) (op x y) := by
  obtain ⟨s, t, hs, ht, hne, rfl⟩ := hp
  obtain ⟨u, w, hu, hw, hne', rfl⟩ := hq
  split
  next hsame =>
    obtain rfl : w = t := DenotesOption.eq hw (hsame ▸ ht)
    exact ⟨op s u, w, hnode hs hu, ht, hne, hop s u w⟩
  next =>
    refine ⟨op (s * w) (u * t), t * w, hnode (hs.times hw) (hu.times ht), ht.times hw, mul_ne_zero hne hne', ?_⟩
    rw [← hop, mul_div_mul_right s t hne', mul_comm t w, mul_div_mul_right u w hne]

/-- The parts of the single fraction give the value as their quotient. -/
theorem Denotes.split (he : e.Denotes ν x) : DenotesFraction ν e.split x := by
  induction e generalizing x with
  | number q => exact ⟨x, 1, he, rfl, one_ne_zero, (div_one x).symm⟩
  | atom q => exact ⟨x, 1, he, rfl, one_ne_zero, (div_one x).symm⟩
  | elim e p _ => exact (not_denotes_elim he).elim
  | neg e ih =>
      obtain ⟨w, hw, rfl⟩ := denotes_neg_iff.1 he
      obtain ⟨y, z, hy, hz, hne, rfl⟩ := ih hw
      exact ⟨-y, z, hy.neg, hz, hne, (neg_div z y).symm⟩
  | mul l r ihl ihr =>
      obtain ⟨s, t, hs, ht, rfl⟩ := denotes_mul_iff.1 he
      obtain ⟨y, z, hy, hz, hne, rfl⟩ := ihl hs
      obtain ⟨u, w, hu, hw, hne', rfl⟩ := ihr ht
      exact ⟨y * u, z * w, hy.mul hu, hz.times hw, mul_ne_zero hne hne', div_mul_div_comm y z u w⟩
  | div n d ihn ihd =>
      obtain ⟨s, t, hs, ht, hne₀, rfl⟩ := denotes_div_iff.1 he
      obtain ⟨y, z, hy, hz, hne, rfl⟩ := ihn hs
      obtain ⟨u, w, hu, hw, hne', rfl⟩ := ihd ht
      have hu0 : u ≠ 0 := fun h0 => hne₀ (by rw [h0, zero_div])
      exact ⟨y * w, z * u, hy.times hw, hz.times hu, mul_ne_zero hne hu0, div_div_div_eq y z u w⟩
  | add l r ihl ihr =>
      obtain ⟨s, t, hs, ht, rfl⟩ := denotes_add_iff.1 he
      exact DenotesFraction.join Denotes.add (fun x y z => (add_div x y z).symm) (ihl hs) (ihr ht)
  | sub l r ihl ihr =>
      obtain ⟨s, t, hs, ht, rfl⟩ := denotes_sub_iff.1 he
      exact DenotesFraction.join Denotes.sub (fun x y z => (sub_div x y z).symm) (ihl hs) (ihr ht)

theorem times_ne_div (ha : ∀ n d, a ≠ .div n d) (n d : Expr) : a.times f ≠ .div n d := by
  cases f with
  | none => exact ha n d
  | some b => exact nofun

theorem split_ne_div (e n d : Expr) : e.split.1 ≠ .div n d := by
  induction e generalizing n d with
  | number q => exact nofun
  | atom q => exact nofun
  | elim e p _ => exact nofun
  | neg e _ => exact nofun
  | mul l r _ _ => exact nofun
  | div m c ihm _ => exact times_ne_div ihm n d
  | add l r _ _ | sub l r _ _ =>
      unfold Expr.split
      dsimp only
      split <;> exact nofun

theorem numerator_of_ne_div (h : ∀ n d, e.singleFraction ≠ .div n d) :
    e.numerator = e.singleFraction := by
  unfold Expr.numerator
  split
  next n d heq => exact absurd heq (h n d)
  next => rfl

theorem singleFraction_eq (e : Expr) :
    e.singleFraction = e.split.1 ∧ e.split.2.getD .one = .one ∨
      e.singleFraction = .div e.split.1 (e.split.2.getD .one) := by
  unfold singleFraction
  rcases e.split with ⟨n, _ | d⟩
  · exact .inl ⟨rfl, rfl⟩
  · by_cases hone : d.isOne = true
    · exact .inl ⟨if_pos hone, isOne_iff.1 hone⟩
    · exact .inr (if_neg hone)

theorem numerator_eq (e : Expr) : e.numerator = e.split.1 := by
  have hdiv := split_ne_div e
  rcases singleFraction_eq e with ⟨heq, -⟩ | heq
  · rw [numerator_of_ne_div (heq ▸ hdiv), heq]
  · unfold Expr.numerator
    rw [heq]

/-- The numerator is that of a fraction with the value of the expression. -/
theorem Denotes.numerator (he : e.Denotes ν x) :
    ∃ y z, e.numerator.Denotes ν y ∧ z ≠ 0 ∧ x = y / z := by
  obtain ⟨y, z, hy, -, hne, hx⟩ := he.split
  exact ⟨y, z, (numerator_eq e).symm ▸ hy, hne, hx⟩

namespace IsReading

variable {R : Expr → ℚ → Prop} (hR : IsReading R)

include hR

theorem joinAdd (ha : R a x) (hb : R b y) : R (a.joinAdd b) (x + y) := by
  induction a generalizing x with
  | add l r _ ih =>
      obtain ⟨s, t, hs, ht, rfl⟩ := hR.add.1 ha
      rw [add_assoc]
      exact hR.add_intro hs (ih ht)
  | _ => exact hR.add_intro ha hb

theorem joinMul (ha : R a x) (hb : R b y) : R (a.joinMul b) (x * y) := by
  induction a generalizing x with
  | mul l r _ ih =>
      obtain ⟨s, t, hs, ht, rfl⟩ := hR.mul.1 ha
      rw [mul_assoc]
      exact hR.mul_intro hs (ih ht)
  | _ => exact hR.mul_intro ha hb

/-- The right-associative form has the value of the expression, if markers keep what is kept inside them. -/
theorem rightAssociative
    (helim : ∀ {a b : Expr} {p : Label} {x : ℚ}, (∀ y, R a y → R b y) → R (.elim a p) x → R (.elim b p) x)
    (he : R e x) : R e.rightAssociative x := by
  have hminus : R minusOne (-1) := hR.number.2 rfl
  induction e generalizing x with
  | number q => exact he
  | atom q => exact he
  | elim e p ih => exact helim (fun _ => ih) he
  | neg e ih =>
      obtain ⟨y, hy, rfl⟩ := hR.neg.1 he
      rw [← neg_one_mul]
      exact hR.joinMul hminus (ih hy)
  | add l r ihl ihr =>
      obtain ⟨y, z, hy, hz, rfl⟩ := hR.add.1 he
      exact hR.joinAdd (ihl hy) (ihr hz)
  | sub l r ihl ihr =>
      obtain ⟨y, z, hy, hz, rfl⟩ := hR.sub.1 he
      rw [sub_eq_add_neg, ← neg_one_mul]
      exact hR.joinAdd (ihl hy) (hR.joinMul hminus (ihr hz))
  | mul l r ihl ihr =>
      obtain ⟨y, z, hy, hz, rfl⟩ := hR.mul.1 he
      exact hR.joinMul (ihl hy) (ihr hz)
  | div n d ihn ihd =>
      obtain ⟨y, z, hy, hz, hne, rfl⟩ := hR.div.1 he
      exact hR.div_intro (ihn hy) (ihd hz) hne

end IsReading

theorem Denotes.rightAssociative (he : e.Denotes ν x) : e.rightAssociative.Denotes ν x :=
  (isReading_denotes ν).rightAssociative (fun _ h => (not_denotes_elim h).elim) he

end Expr

namespace Expansion

/-- The value of a product with its coefficient. -/
def termValue (ν : Quantity → ℚ) (f : Factors) (c : ℚ) : ℚ := c * (f.map ν).prod

theorem isAdditive_termValue (ν : Quantity → ℚ) : Sparse.IsAdditive (termValue ν) :=
  ⟨fun _ => zero_mul _, fun _ _ _ => add_mul _ _ _⟩

/-- The value of a sum of products. -/
def valueAt (ν : Quantity → ℚ) (s : Expansion) : ℚ := s.total (termValue ν)

variable (ν) (s t : Expansion) (c : ℚ)

theorem valueAt_constant : (constant c).valueAt ν = c :=
  (Sparse.total_single (isAdditive_termValue ν) [] c).trans (mul_one c)

theorem valueAt_ofOriented (o : Oriented) : (ofOriented o).valueAt ν = o.valueAt ν := by
  refine (Sparse.total_single (isAdditive_termValue ν) _ _).trans ?_
  unfold termValue Oriented.valueAt
  cases o.quantity with
  | none => rfl
  | some q => rw [Option.toList_some, List.map_singleton, List.prod_singleton, Option.elim_some]

theorem valueAt_add : (s + t).valueAt ν = s.valueAt ν + t.valueAt ν :=
  Sparse.total_add (isAdditive_termValue ν) s t

theorem valueAt_scale : (s.scale c).valueAt ν = s.valueAt ν * c := by
  unfold valueAt scale
  rw [Sparse.total_ofList (isAdditive_termValue ν), List.map_map, Sparse.total,
    ← List.sum_map_mul_right]
  refine congr_arg List.sum (List.map_congr_left fun e _ => ?_)
  exact mul_right_comm e.2 c _

theorem valueAt_neg : s.neg.valueAt ν = -s.valueAt ν := by
  rw [neg, valueAt_scale, mul_neg_one]

theorem valueAt_sub : (s.sub t).valueAt ν = s.valueAt ν - t.valueAt ν := by
  rw [sub, valueAt_add, valueAt_neg, sub_eq_add_neg]

theorem prod_mulFactors (f g : Factors) :
    ((mulFactors f g).map ν).prod = (f.map ν).prod * (g.map ν).prod := by
  rw [← List.prod_append, ← List.map_append]
  exact ((List.merge_perm_append _).map ν).prod_eq

theorem valueAt_mul : (s.mul t).valueAt ν = s.valueAt ν * t.valueAt ν := by
  have hinner (a : Factors × ℚ) (bs : List (Factors × ℚ)) :
      (bs.map fun b => termValue ν (mulFactors a.1 b.1) (a.2 * b.2)).sum =
        termValue ν a.1 a.2 * (bs.map fun b => termValue ν b.1 b.2).sum := by
    rw [← List.sum_map_mul_left]
    refine congr_arg List.sum (List.map_congr_left fun b _ => ?_)
    unfold termValue
    rw [prod_mulFactors]
    exact mul_mul_mul_comm _ _ _ _
  refine (Sparse.total_ofList (isAdditive_termValue ν) _).trans ?_
  unfold valueAt Sparse.total
  induction s.entries with
  | nil => exact (zero_mul _).symm
  | cons a as ih =>
      rw [List.flatMap_cons, List.map_append, List.sum_append, ih, List.map_cons, List.sum_cons,
        add_mul, List.map_map]
      exact congr_arg (· + _) (hinner a t.entries)

/-- A constant sum has the value that it tells. -/
theorem valueAt_of_isConstant (h : s.isConstant = true) : s.valueAt ν = s.constantValue := by
  have hread : s.valueAt ν = s.total fun f a => if f = [] then a else 0 := by
    refine congr_arg List.sum (List.map_congr_left fun e he => ?_)
    have hnil : e.1 = [] := List.isEmpty_iff.1 (List.all_eq_true.1 h e he)
    dsimp only
    rw [hnil, if_pos rfl]
    exact mul_one e.2
  refine hread.trans ((Sparse.total_eq_get (k := []) (if_pos rfl) (fun _ _ hne => if_neg hne) s).trans ?_)
  exact if_pos rfl

end Expansion

namespace Expr

variable {e : Expr} {x : ℚ} {s : Expansion}

/-- The expanded form has the value of the expression. -/
theorem Denotes.expand (hν : RespectsOrientation ν) (he : e.Denotes ν x) (h : e.expand = .ok s) :
    s.valueAt ν = x := by
  induction e generalizing x s with
  | number q =>
      cases h
      rw [Expansion.valueAt_constant, denotes_number_iff.1 he]
  | atom q =>
      obtain ⟨o, ho, h⟩ := bind_eq_ok h
      cases h
      rw [Expansion.valueAt_ofOriented, ← hν q o ho]
      exact he.2
  | neg e ih =>
      obtain ⟨t, ht, h⟩ := bind_eq_ok h
      cases h
      obtain ⟨y, hy, rfl⟩ := denotes_neg_iff.1 he
      rw [Expansion.valueAt_neg, ih hy ht]
  | add l r ihl ihr =>
      obtain ⟨t, ht, h⟩ := bind_eq_ok h
      obtain ⟨u, hu, h⟩ := bind_eq_ok h
      cases h
      obtain ⟨y, z, hy, hz, rfl⟩ := denotes_add_iff.1 he
      rw [Expansion.valueAt_add, ihl hy ht, ihr hz hu]
  | sub l r ihl ihr =>
      obtain ⟨t, ht, h⟩ := bind_eq_ok h
      obtain ⟨u, hu, h⟩ := bind_eq_ok h
      cases h
      obtain ⟨y, z, hy, hz, rfl⟩ := denotes_sub_iff.1 he
      rw [Expansion.valueAt_sub, ihl hy ht, ihr hz hu]
  | mul l r ihl ihr =>
      obtain ⟨t, ht, h⟩ := bind_eq_ok h
      obtain ⟨u, hu, h⟩ := bind_eq_ok h
      cases h
      obtain ⟨y, z, hy, hz, rfl⟩ := denotes_mul_iff.1 he
      rw [Expansion.valueAt_mul, ihl hy ht, ihr hz hu]
  | div n d ihn ihd =>
      obtain ⟨t, ht, h⟩ := bind_eq_ok h
      obtain ⟨y, z, hy, hz, hne, rfl⟩ := denotes_div_iff.1 he
      split at h
      next => cases h
      next hconstant =>
        split at h
        next => cases h
        next =>
          obtain ⟨u, hu, h⟩ := bind_eq_ok h
          cases h
          have hvalue := t.valueAt_of_isConstant ν (by simpa using hconstant)
          rw [Expansion.valueAt_scale, ihn hy hu, ← hvalue, ihd hz ht, mul_one_div]
  | elim e p _ => exact (not_denotes_elim he).elim

/-- The normal form vanishes exactly where the expression does. -/
theorem Denotes.normalForm (hν : RespectsOrientation ν) (he : e.Denotes ν x)
    (h : e.normalForm = .ok s) : s.valueAt ν = 0 ↔ x = 0 := by
  obtain ⟨y, z, hy, hne, rfl⟩ := he.numerator
  rw [hy.rightAssociative.expand hν h, div_eq_zero_iff]
  exact (or_iff_left hne).symm

/-- The quantities of an expression, from left to right. -/
def quantities : Expr → List Quantity
  | .number _ => []
  | .atom q => [q]
  | .add l r | .sub l r | .mul l r | .div l r => l.quantities ++ r.quantities
  | .neg e | .elim e _ => e.quantities

theorem forall_key_scale {P : Factors → Prop} {c : ℚ} (h : ∀ t ∈ s.entries, P t.1) :
    ∀ t ∈ (s.scale c).entries, P t.1 :=
  Sparse.forall_key_ofList (List.forall_mem_map.2 h)

theorem forall_key_add {P : Factors → Prop} {t : Expansion} (hs : ∀ u ∈ s.entries, P u.1)
    (ht : ∀ u ∈ t.entries, P u.1) : ∀ u ∈ (s + t).entries, P u.1 := by
  rw [Sparse.entries_add]
  exact Sparse.forall_key_merge P hs ht

theorem forall_key_mul {P : Factors → Prop} {t : Expansion}
    (hmul : ∀ f g, P f → P g → P (Expansion.mulFactors f g)) (hs : ∀ u ∈ s.entries, P u.1)
    (ht : ∀ u ∈ t.entries, P u.1) : ∀ u ∈ (s.mul t).entries, P u.1 := by
  refine Sparse.forall_key_ofList fun u hu => ?_
  obtain ⟨a, ha, hu⟩ := List.mem_flatMap.1 hu
  obtain ⟨b, hb, rfl⟩ := List.mem_map.1 hu
  exact hmul a.1 b.1 (hs a ha) (ht b hb)

/-- What holds of no factors and of the canonical ones of an expression, and is kept by products, holds of all
products in its expanded form. -/
theorem forall_key_expand {P : Factors → Prop} (hnil : P [])
    (hsingle : ∀ q ∈ e.quantities, ∀ o k, q.orient = .ok o → o.quantity = some k → P [k])
    (hmul : ∀ f g, P f → P g → P (Expansion.mulFactors f g)) (h : e.expand = .ok s) :
    ∀ t ∈ s.entries, P t.1 := by
  induction e generalizing s with
  | number q =>
      cases h
      exact Sparse.forall_key_single hnil
  | atom q =>
      obtain ⟨o, ho, h⟩ := bind_eq_ok h
      cases h
      refine Sparse.forall_key_single ?_
      cases hk : o.quantity with
      | none => exact hnil
      | some k => exact hsingle q List.mem_cons_self o k ho hk
  | neg e ih =>
      obtain ⟨t, ht, h⟩ := bind_eq_ok h
      cases h
      exact forall_key_scale (ih hsingle ht)
  | add l r ihl ihr =>
      obtain ⟨t, ht, h⟩ := bind_eq_ok h
      obtain ⟨u, hu, h⟩ := bind_eq_ok h
      cases h
      exact forall_key_add (ihl (fun q hq => hsingle q (List.mem_append_left _ hq)) ht)
        (ihr (fun q hq => hsingle q (List.mem_append_right _ hq)) hu)
  | sub l r ihl ihr =>
      obtain ⟨t, ht, h⟩ := bind_eq_ok h
      obtain ⟨u, hu, h⟩ := bind_eq_ok h
      cases h
      exact forall_key_add (ihl (fun q hq => hsingle q (List.mem_append_left _ hq)) ht)
        (forall_key_scale (ihr (fun q hq => hsingle q (List.mem_append_right _ hq)) hu))
  | mul l r ihl ihr =>
      obtain ⟨t, ht, h⟩ := bind_eq_ok h
      obtain ⟨u, hu, h⟩ := bind_eq_ok h
      cases h
      exact forall_key_mul hmul (ihl (fun q hq => hsingle q (List.mem_append_left _ hq)) ht)
        (ihr (fun q hq => hsingle q (List.mem_append_right _ hq)) hu)
  | div n d ihn ihd =>
      obtain ⟨t, ht, h⟩ := bind_eq_ok h
      split at h
      next => cases h
      next =>
        split at h
        next => cases h
        next =>
          obtain ⟨u, hu, h⟩ := bind_eq_ok h
          cases h
          exact forall_key_scale (ihn (fun q hq => hsingle q (List.mem_append_left _ hq)) hu)
  | elim e p ih => cases h

/-- The factors in an expanded form come from the quantities of the expression. -/
theorem forall_factor_expand {P : Quantity → Prop}
    (horient : ∀ q ∈ e.quantities, ∀ o k, q.orient = .ok o → o.quantity = some k → P k)
    (h : e.expand = .ok s) : ∀ t ∈ s.entries, ∀ f ∈ t.1, P f := by
  refine forall_key_expand (P := fun fs => ∀ f ∈ fs, P f) (List.forall_mem_nil _)
    (fun q hq o k ho hk => List.forall_mem_singleton.2 (horient q hq o k ho hk))
    (fun fs gs hf hg f hmem => ?_) h
  rcases List.mem_append.1 ((List.merge_perm_append _).mem_iff.1 hmem) with hmem | hmem
  · exact hf f hmem
  · exact hg f hmem

end Expr

end Planimetry.Area
