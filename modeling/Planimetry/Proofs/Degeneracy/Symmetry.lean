import Mathlib.Data.List.Permutation
import Mathlib.Tactic.Ring
import Planimetry.Proofs.Degeneracy.Coverage
import Planimetry.Proofs.Determinant
import Planimetry.Proofs.Transformation.System

/-! The configurations of some points do not depend on the order in which the points are taken: with a reading
of the points in one order, there is one in every other order that has the same polynomial up to sign. -/

namespace Planimetry

/-! ### The polynomials of relations -/

section Form

variable {R : Type*} [CommRing R]

/-- The two are equal up to sign. -/
def Alike (x y : R) : Prop := x = y ∨ x = -y

namespace Alike

variable {x y z : R}

theorem symm (h : Alike x y) : Alike y x := by
  rcases h with h | h
  · exact .inl h.symm
  · exact .inr (neg_eq_iff_eq_neg.2 h).symm

theorem trans (h : Alike x y) (h' : Alike y z) : Alike x z := by
  rcases h with rfl | rfl
  · exact h'
  · rcases h' with rfl | rfl
    · exact .inr rfl
    · exact .inl (neg_neg z)

end Alike

namespace Relation

def cross (u v : R × R) : R := u.1 * v.2 - u.2 * v.1

def dot (u v : R × R) : R := u.1 * v.1 + u.2 * v.2

/-- The polynomial of a relation between points with the given coordinates. -/
def form (place : Label → R × R) : Relation → R
  | .trivial => 0
  | .identical a b => dot (place b - place a) (place b - place a)
  | .collinear a b c => cross (place b - place a) (place c - place a)
  | .parallel a b c d => cross (place b - place a) (place d - place c)
  | .perpendicular a b c d => dot (place b - place a) (place d - place c)
  | .congruent a b c d => dot (place b - place a) (place b - place a) -
      dot (place d - place c) (place d - place c)
  | .concyclic a b c d =>
      let u := place a - place d
      let v := place b - place d
      let w := place c - place d
      dot u u * cross v w - dot v v * cross u w + dot w w * cross u v

/-- What the variables of a template stand for where labels with given coordinates play the roles. -/
def roleValues (place : Label → R × R) (roles : List (Label × Label)) : Variable → R
  | .placeholder role .x => ((roles.lookup role).map place).elim 0 Prod.fst
  | .placeholder role .y => ((roles.lookup role).map place).elim 0 Prod.snd
  | _ => 0

theorem valueAt_template [Algebra ℚ R] (place : Label → R × R) (r : Relation) :
    r.condition.template.valueAt (roleValues place r.condition.roles) = r.form place := by
  cases r with
  | trivial => exact Polynomial.valueAt_zero _
  | identical a b =>
      simp [condition, Template.identicalPoints, Template.squareDistance, Template.between,
        Template.position, Template.coordinate, Vector.square, Vector.dot, roleValues, form, dot,
        List.lookup]
  | collinear a b c =>
      simp [condition, Template.collinear, Template.between, Template.position, Template.coordinate,
        Vector.cross, roleValues, form, cross, List.lookup]
  | parallel a b c d =>
      simp [condition, Template.parallel, Template.between, Template.position, Template.coordinate,
        Vector.cross, roleValues, form, cross, List.lookup]
  | perpendicular a b c d =>
      simp [condition, Template.perpendicular, Template.between, Template.position,
        Template.coordinate, Vector.dot, roleValues, form, dot, List.lookup]
  | congruent a b c d =>
      simp [condition, Template.congruentSegments, Template.squareDistance, Template.between,
        Template.position, Template.coordinate, Vector.square, Vector.dot, roleValues, form, dot,
        List.lookup]
  | concyclic a b c d =>
      refine (Template.valueAt_concyclic_eq _ "A" "B" "C" "D").trans ?_
      simp [condition, roleValues, form, dot, cross, List.lookup]
      ring

section Coordinates

variable {coordinates : Label → Option (Variable × Variable)}

/-- The two variables of a point, as polynomials. -/
noncomputable def variablesAt (coordinates : Label → Option (Variable × Variable)) (l : Label) :
    MvPolynomial Variable ℚ × MvPolynomial Variable ℚ :=
  (coordinates l).elim 0 fun xy => (.X xy.1, .X xy.2)

/-- A relation of placed points has a polynomial. -/
theorem exists_polynomialAt {r : Relation}
    (h : ∀ l ∈ r.condition.generators, (coordinates l).isSome = true) :
    ∃ q, r.condition.polynomialAt coordinates = .ok q ∧ q.toMv = r.form (variablesAt coordinates) := by
  have hplaced : ∀ role ∈ r.condition.template.roles, ∃ l xy,
      r.condition.roles.lookup role = some l ∧ coordinates l = some xy := by
    intro role hrole
    obtain ⟨l, hl, hlookup⟩ := r.exists_lookup hrole
    obtain ⟨xy, hxy⟩ := Option.isSome_iff_exists.1 (h l hl)
    exact ⟨l, xy, hlookup, hxy⟩
  refine ⟨_, Template.instantiate_of_isSome fun role hrole => ?_, ?_⟩
  · obtain ⟨l, xy, hlookup, hxy⟩ := hplaced role hrole
    rw [hlookup, Option.bind_some, hxy]
    rfl
  · rw [← Polynomial.valueAt_X, Polynomial.valueAt_rename, ← valueAt_template]
    refine Polynomial.valueAt_congr fun v hv => ?_
    cases v with
    | free i => exact absurd (r.isPure_condition _ hv) nofun
    | dependent i => exact absurd (r.isPure_condition _ hv) nofun
    | placeholder role a =>
        obtain ⟨l, xy, hlookup, hxy⟩ := hplaced role (Template.mem_roles.2 ⟨a, hv⟩)
        cases a <;>
          simp [Template.assigned, Template.coordinate?, roleValues, variablesAt, hlookup, hxy]

theorem isMultiple_of_alike {r r' : Relation} {f g q : Polynomial}
    (hf : f.toMv = r.form (variablesAt coordinates)) (hg : g.toMv = r'.form (variablesAt coordinates))
    (h : Alike (r.form (variablesAt coordinates)) (r'.form (variablesAt coordinates)))
    (hq : f.IsMultiple q) : g.IsMultiple q := by
  refine Polynomial.IsMultiple.trans ?_ hq
  rw [← hf, ← hg] at h
  rcases h with h | h
  · exact Polynomial.toMv_injective h ▸ .refl f
  · refine ⟨-1, by norm_num, Polynomial.toMv_injective ?_⟩
    rw [h, Polynomial.toMv_scale, map_neg, map_one, neg_one_mul]

end Coordinates

section Alike

variable (place : Label → R × R) (a b c d : Label)

theorem alike_identical : Alike ((identical b a).form place) ((identical a b).form place) := by
  refine .inl ?_
  simp only [form, dot, Prod.fst_sub, Prod.snd_sub]
  ring

theorem alike_collinear_first : Alike ((collinear b a c).form place) ((collinear a b c).form place) := by
  refine .inr ?_
  simp only [form, cross, Prod.fst_sub, Prod.snd_sub]
  ring

theorem alike_collinear_last : Alike ((collinear a c b).form place) ((collinear a b c).form place) := by
  refine .inr ?_
  simp only [form, cross]
  ring

theorem alike_parallel_flip : Alike ((parallel b a c d).form place) ((parallel a b c d).form place) := by
  refine .inr ?_
  simp only [form, cross, Prod.fst_sub, Prod.snd_sub]
  ring

theorem alike_parallel_turn : Alike ((parallel c d a b).form place) ((parallel a b c d).form place) := by
  refine .inr ?_
  simp only [form, cross]
  ring

theorem alike_perpendicular_flip :
    Alike ((perpendicular b a c d).form place) ((perpendicular a b c d).form place) := by
  refine .inr ?_
  simp only [form, dot, Prod.fst_sub, Prod.snd_sub]
  ring

theorem alike_perpendicular_turn :
    Alike ((perpendicular c d a b).form place) ((perpendicular a b c d).form place) := by
  refine .inl ?_
  simp only [form, dot]
  ring

theorem alike_congruent_turn :
    Alike ((congruent c d a b).form place) ((congruent a b c d).form place) :=
  .inr (neg_sub _ _).symm

theorem alike_concyclic_first :
    Alike ((concyclic b a c d).form place) ((concyclic a b c d).form place) := by
  refine .inr ?_
  simp only [form, cross, dot]
  ring

theorem alike_concyclic_middle :
    Alike ((concyclic a c b d).form place) ((concyclic a b c d).form place) := by
  refine .inr ?_
  simp only [form, cross, dot]
  ring

theorem alike_concyclic_last :
    Alike ((concyclic a b d c).form place) ((concyclic a b c d).form place) := by
  refine .inr ?_
  simp only [form, cross, dot, Prod.fst_sub, Prod.snd_sub]
  ring

end Alike

end Relation

end Form

/-! ### Readings in another order -/

section Swap

variable {α : Type}

/-- What stays when two neighbours are swapped stays in every order. -/
theorem of_perm_of_swap {P : List α → Prop} {xs ys : List α}
    (hswap : ∀ before a b after, P (before ++ a :: b :: after) → P (before ++ b :: a :: after))
    (h : xs.Perm ys) (hxs : P xs) : P ys := by
  -- behind any other points, so that the induction can go on past the first one
  suffices ∀ before, P (before ++ xs) → P (before ++ ys) from this [] hxs
  clear hxs
  induction h with
  | nil => exact fun _ h => h
  | cons a _ ih =>
      intro before h
      rw [List.append_cons] at h ⊢
      exact ih _ h
  | swap a b after => exact fun before => hswap before b a after
  | trans _ _ ih ih' => exact fun before h => ih' before (ih before h)

/-- In three places, it is enough to swap the first two and the last two. -/
theorem of_perm_three {P : α → α → α → Prop} {a b c a' b' c' : α} (h : [a, b, c].Perm [a', b', c'])
    (hfirst : ∀ a b c, P a b c → P b a c) (hlast : ∀ a b c, P a b c → P a c b) (hP : P a b c) :
    P a' b' c' := by
  refine of_perm_of_swap (P := fun l => ∀ a b c, l = [a, b, c] → P a b c) ?_ h ?_ _ _ _ rfl
  · rintro (_ | ⟨x, _ | ⟨y, before⟩⟩) b a after hP u v w heq
    · obtain ⟨rfl, rfl, rfl⟩ := by simpa using heq
      exact hfirst _ _ _ (hP _ _ _ rfl)
    · obtain ⟨rfl, rfl, rfl, rfl⟩ := by simpa using heq
      exact hlast _ _ _ (hP _ _ _ rfl)
    · have hlength := congr_arg List.length heq
      simp only [List.length_append, List.length_cons, List.length_nil] at hlength
      omega
  · rintro u v w heq
    obtain ⟨rfl, rfl, rfl⟩ := by simpa using heq
    exact hP

theorem of_perm_four {P : α → α → α → α → Prop} {a b c d a' b' c' d' : α}
    (h : [a, b, c, d].Perm [a', b', c', d']) (hfirst : ∀ a b c d, P a b c d → P b a c d)
    (hmiddle : ∀ a b c d, P a b c d → P a c b d) (hlast : ∀ a b c d, P a b c d → P a b d c)
    (hP : P a b c d) : P a' b' c' d' := by
  refine of_perm_of_swap (P := fun l => ∀ a b c d, l = [a, b, c, d] → P a b c d) ?_ h ?_ _ _ _ _ rfl
  · rintro (_ | ⟨x, _ | ⟨y, _ | ⟨z, before⟩⟩⟩) b a after hP u v w t heq
    · obtain ⟨rfl, rfl, rfl⟩ := by simpa using heq
      exact hfirst _ _ _ _ (hP _ _ _ _ rfl)
    · obtain ⟨rfl, rfl, rfl, rfl⟩ := by simpa using heq
      exact hmiddle _ _ _ _ (hP _ _ _ _ rfl)
    · obtain ⟨rfl, rfl, rfl, rfl, rfl⟩ := by simpa using heq
      exact hlast _ _ _ _ (hP _ _ _ _ rfl)
    · have hlength := congr_arg List.length heq
      simp only [List.length_append, List.length_cons, List.length_nil] at hlength
      omega
  · rintro u v w t heq
    obtain ⟨rfl, rfl, rfl, rfl⟩ := by simpa using heq
    exact hP

end Swap

namespace Configuration

/-- The relation that a configuration stands for between points in a given order: the vertex comes first, and
so do the points of the first line. -/
def relation? : Configuration → List Label → Option Relation
  | .identicalPoints, [a, b] => some (.identical a b)
  | .collinearPoints, [a, b, c] => some (.collinear a b c)
  | .perpendicularRays, [v, a, b] => some (.perpendicular v a v b)
  | .equalSegments, [v, a, b] => some (.congruent v a v b)
  | .parallelLines, [a, b, c, d] => some (.parallel a b c d)
  | .perpendicularLines, [a, b, c, d] => some (.perpendicular a b c d)
  | .concyclicPoints, [a, b, c, d] => some (.concyclic a b c d)
  | _, _ => none

variable {c : Configuration} {labels labels' : List Label} {relation : Relation}

theorem length_of_relation? (h : c.relation? labels = some relation) : labels.length = c.arity := by
  unfold relation? at h
  split at h <;> cases h <;> rfl

theorem generators_subset_of_relation? (h : c.relation? labels = some relation) :
    relation.condition.generators ⊆ labels := by
  unfold relation? at h
  split at h <;> cases h <;> simp [Relation.condition, Condition.generators]

theorem of_mem_vertexReadings {reading : Label → Label → Label → Reading} {r : Reading}
    (hlength : labels.length = 3) (hnodup : labels.Nodup) (h : .ok r ∈ vertexReadings labels reading) :
    ∃ v a b, r = reading v a b ∧ [v, a, b].Perm labels := by
  obtain ⟨a, b, d, rfl⟩ := List.length_eq_three.1 hlength
  obtain rfl | rfl | rfl : r = _ ∨ r = _ ∨ r = _ := by simpa [vertexReadings_eq hnodup] using h
  · exact ⟨a, b, d, rfl, .refl _⟩
  · exact ⟨b, a, d, rfl, .swap a b [d]⟩
  · exact ⟨d, a, b, rfl, (List.perm_append_singleton d [a, b]).symm⟩

theorem of_mem_pairReadings {reading : Label → Label → Label → Label → Reading} {r : Reading}
    (hlength : labels.length = 4) (h : .ok r ∈ pairReadings labels reading) :
    ∃ a b d e, r = reading a b d e ∧ [a, b, d, e].Perm labels := by
  obtain ⟨a, b, d, e, rfl⟩ := List.length_eq_four.1 hlength
  obtain rfl | rfl | rfl : r = _ ∨ r = _ ∨ r = _ := by simpa [pairReadings] using h
  · exact ⟨a, b, d, e, rfl, .refl _⟩
  · exact ⟨a, d, b, e, rfl, (List.Perm.swap b d [e]).cons a⟩
  · exact ⟨a, e, b, d, rfl, (List.perm_append_singleton e [b, d]).symm.cons a⟩

/-- A reading is that of its points in their order, and these are the points that are read. -/
theorem relation?_of_mem_readings {r : Reading} (hlength : labels.length = c.arity)
    (hnodup : labels.Nodup) (h : .ok r ∈ c.readings labels) :
    c.relation? r.points = some r.relation ∧ r.points.Perm labels := by
  cases c with
  | identicalPoints =>
      obtain ⟨a, b, rfl⟩ := List.length_eq_two.1 hlength
      obtain rfl : r = _ := by simpa [readings] using h
      exact ⟨rfl, .refl _⟩
  | collinearPoints =>
      obtain ⟨a, b, d, rfl⟩ := List.length_eq_three.1 hlength
      obtain rfl : r = _ := by simpa [readings] using h
      exact ⟨rfl, .refl _⟩
  | perpendicularRays =>
      obtain ⟨v, a, b, rfl, hperm⟩ := of_mem_vertexReadings hlength hnodup h
      exact ⟨rfl, hperm⟩
  | equalSegments =>
      obtain ⟨v, a, b, rfl, hperm⟩ := of_mem_vertexReadings hlength hnodup h
      exact ⟨rfl, hperm⟩
  | parallelLines =>
      obtain ⟨a, b, d, e, rfl, hperm⟩ := of_mem_pairReadings hlength h
      exact ⟨rfl, hperm⟩
  | perpendicularLines =>
      obtain ⟨a, b, d, e, rfl, hperm⟩ := of_mem_pairReadings hlength h
      exact ⟨rfl, hperm⟩
  | concyclicPoints =>
      obtain ⟨a, b, d, e, rfl⟩ := List.length_eq_four.1 hlength
      obtain rfl : r = _ := by simpa [readings] using h
      exact ⟨rfl, .refl _⟩

section Order

variable {R : Type*} [CommRing R] {place : Label → R × R}

/-- What has two rays or two segments from a vertex can be read with each of three points as the vertex. -/
theorem exists_vertexReading {f : Label → Label → Label → Relation}
    (hturn : ∀ v a b, Alike ((f v b a).form place) ((f v a b).form place))
    {reading : Label → Label → Label → Reading} (hreading : ∀ v a b, (reading v a b).relation = f v a b)
    {v a b : Label} (hnodup : labels.Nodup) (h : [v, a, b].Perm labels) :
    ∃ r, .ok r ∈ vertexReadings labels reading ∧ Alike (r.relation.form place) ((f v a b).form place) := by
  obtain ⟨x, y, z, rfl⟩ := List.length_eq_three.1 h.length_eq.symm
  rw [vertexReadings_eq hnodup]
  have hsome : Alike ((f x y z).form place) ((f v a b).form place) ∨
      Alike ((f y x z).form place) ((f v a b).form place) ∨
      Alike ((f z x y).form place) ((f v a b).form place) := by
    refine of_perm_three (P := fun x y z => Alike ((f x y z).form place) ((f v a b).form place) ∨
      Alike ((f y x z).form place) ((f v a b).form place) ∨
      Alike ((f z x y).form place) ((f v a b).form place)) h ?_ ?_ (.inl (.inl rfl))
    · rintro x y z (h | h | h)
      · exact .inr (.inl h)
      · exact .inl h
      · exact .inr (.inr ((hturn _ _ _).trans h))
    · rintro x y z (h | h | h)
      · exact .inl ((hturn _ _ _).trans h)
      · exact .inr (.inr h)
      · exact .inr (.inl h)
  rcases hsome with h | h | h
  · exact ⟨reading x y z, by simp, hreading x y z ▸ h⟩
  · exact ⟨reading y x z, by simp, hreading y x z ▸ h⟩
  · exact ⟨reading z x y, by simp, hreading z x y ▸ h⟩

/-- What has two lines can be read with each of the three ways to split four points into two pairs. -/
theorem exists_pairReading {f : Label → Label → Label → Label → Relation}
    (hflip : ∀ a b c d, Alike ((f b a c d).form place) ((f a b c d).form place))
    (hturn : ∀ a b c d, Alike ((f c d a b).form place) ((f a b c d).form place))
    {reading : Label → Label → Label → Label → Reading}
    (hreading : ∀ a b c d, (reading a b c d).relation = f a b c d)
    {a b d e : Label} (h : [a, b, d, e].Perm labels) :
    ∃ r, .ok r ∈ pairReadings labels reading ∧
      Alike (r.relation.form place) ((f a b d e).form place) := by
  obtain ⟨x, y, z, t, rfl⟩ := List.length_eq_four.1 h.length_eq.symm
  -- the points of the second line can be exchanged as well: the lines change places before and after
  have hflip' (a b c d : Label) : Alike ((f a b d c).form place) ((f a b c d).form place) :=
    ((hturn d c a b).trans (hflip c d a b)).trans (hturn a b c d)
  have hsome : Alike ((f x y z t).form place) ((f a b d e).form place) ∨
      Alike ((f x z y t).form place) ((f a b d e).form place) ∨
      Alike ((f x t y z).form place) ((f a b d e).form place) := by
    refine of_perm_four (P := fun x y z t => Alike ((f x y z t).form place) ((f a b d e).form place) ∨
      Alike ((f x z y t).form place) ((f a b d e).form place) ∨
      Alike ((f x t y z).form place) ((f a b d e).form place)) h ?_ ?_ ?_ (.inl (.inl rfl))
    · rintro x y z t (h | h | h)
      · exact .inl ((hflip _ _ _ _).trans h)
      · exact .inr (.inr ((hturn _ _ _ _).trans h))
      · exact .inr (.inl ((hturn _ _ _ _).trans h))
    · rintro x y z t (h | h | h)
      · exact .inr (.inl h)
      · exact .inl h
      · exact .inr (.inr ((hflip' _ _ _ _).trans h))
    · rintro x y z t (h | h | h)
      · exact .inl ((hflip' _ _ _ _).trans h)
      · exact .inr (.inr h)
      · exact .inr (.inl h)
  rcases hsome with h | h | h
  · exact ⟨reading x y z t, by simp [pairReadings], hreading x y z t ▸ h⟩
  · exact ⟨reading x z y t, by simp [pairReadings], hreading x z y t ▸ h⟩
  · exact ⟨reading x t y z, by simp [pairReadings], hreading x t y z ▸ h⟩

/-- A relation that a configuration stands for in one order of the points has the polynomial, up to sign, of
some reading of them in any other order. -/
theorem exists_reading_of_perm (place : Label → R × R) (h : c.relation? labels = some relation)
    (hnodup : labels'.Nodup) (hperm : labels.Perm labels') :
    ∃ r, .ok r ∈ c.readings labels' ∧ Alike (r.relation.form place) (relation.form place) := by
  unfold relation? at h
  split at h
  next a b =>
    cases h
    rcases List.pair_perm.1 hperm with rfl | rfl
    · exact ⟨_, List.mem_singleton_self _, .inl rfl⟩
    · exact ⟨_, List.mem_singleton_self _, Relation.alike_identical place a b⟩
  next a b d =>
    cases h
    obtain ⟨x, y, z, rfl⟩ := List.length_eq_three.1 hperm.length_eq.symm
    refine ⟨_, List.mem_singleton_self _, ?_⟩
    exact of_perm_three hperm
      (P := fun x y z => Alike ((Relation.collinear x y z).form place) ((Relation.collinear a b d).form place))
      (fun _ _ _ => (Relation.alike_collinear_first place _ _ _).trans)
      (fun _ _ _ => (Relation.alike_collinear_last place _ _ _).trans) (.inl rfl)
  next v a b =>
    cases h
    exact exists_vertexReading (f := fun v a b => .perpendicular v a v b)
      (fun _ _ _ => Relation.alike_perpendicular_turn place _ _ _ _) (fun _ _ _ => rfl) hnodup hperm
  next v a b =>
    cases h
    exact exists_vertexReading (f := fun v a b => .congruent v a v b)
      (fun _ _ _ => Relation.alike_congruent_turn place _ _ _ _) (fun _ _ _ => rfl) hnodup hperm
  next a b d e =>
    cases h
    exact exists_pairReading (f := .parallel) (Relation.alike_parallel_flip place)
      (Relation.alike_parallel_turn place) (fun _ _ _ _ => rfl) hperm
  next a b d e =>
    cases h
    exact exists_pairReading (f := .perpendicular) (Relation.alike_perpendicular_flip place)
      (Relation.alike_perpendicular_turn place) (fun _ _ _ _ => rfl) hperm
  next a b d e =>
    cases h
    obtain ⟨x, y, z, t, rfl⟩ := List.length_eq_four.1 hperm.length_eq.symm
    refine ⟨_, List.mem_singleton_self _, ?_⟩
    exact of_perm_four hperm
      (P := fun x y z t =>
        Alike ((Relation.concyclic x y z t).form place) ((Relation.concyclic a b d e).form place))
      (fun _ _ _ _ => (Relation.alike_concyclic_first place _ _ _ _).trans)
      (fun _ _ _ _ => (Relation.alike_concyclic_middle place _ _ _ _).trans)
      (fun _ _ _ _ => (Relation.alike_concyclic_last place _ _ _ _).trans) (.inl rfl)
  next => cases h

end Order

end Configuration

end Planimetry
