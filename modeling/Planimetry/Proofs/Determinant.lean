import Mathlib.Algebra.BigOperators.Fin
import Mathlib.LinearAlgebra.Matrix.Determinant.Basic
import Planimetry.Template
import Planimetry.Proofs.Polynomial.Value

/-! Determinants of templates: expanded by their first rows they have the value of the determinant of the values,
as in the condition that four points are on a circle. -/

namespace Planimetry.Template

variable {R : Type*} [CommRing R] [Algebra ℚ R] (σ : Variable → R)

/-- The sum over the entries of a row, each with the sign of its column. -/
theorem valueAt_foldl_signed (f : ℕ → Template) (es : List (Template × ℕ)) (t : Template) :
    (es.foldl (fun total e => if e.1.isZero then total
      else if e.2 % 2 = 0 then total + e.1 * f e.2 else total - e.1 * f e.2) t).valueAt σ =
      t.valueAt σ + (es.map fun e => (-1) ^ e.2 * e.1.valueAt σ * (f e.2).valueAt σ).sum := by
  induction es generalizing t with
  | nil => simp
  | cons e es ih =>
      rw [List.foldl_cons, ih, List.map_cons, List.sum_cons, ← add_assoc]
      refine congr_arg (· + _) ?_
      split
      next hzero => rw [Sparse.isZero_iff.1 hzero, Polynomial.valueAt_zero, mul_zero, zero_mul, add_zero]
      next =>
        rcases Nat.mod_two_eq_zero_or_one e.2 with heven | hodd
        · rw [if_pos heven, Polynomial.valueAt_add, Polynomial.valueAt_mul,
            (Nat.even_iff.2 heven).neg_one_pow, one_mul]
        · rw [if_neg (by omega), Polynomial.valueAt_sub, Polynomial.valueAt_mul,
            (Nat.odd_iff.2 hodd).neg_one_pow, neg_one_mul, neg_mul, sub_eq_add_neg]

omit [Algebra ℚ R] in
theorem sum_zipIdx {α : Type} (xs : List α) (z : α) (g : α × ℕ → R) :
    (xs.zipIdx.map g).sum = ∑ i : Fin xs.length, g (xs.getD i z, i) := by
  have hlist : xs.zipIdx.map g = List.ofFn fun i : Fin xs.length => g (xs.getD i z, i) :=
    List.ext_getElem (by simp) fun i h h' => by simp
  rw [hlist, List.sum_ofFn]

/-- Without one column, the entries are those of the matrix without it. -/
theorem getD_eraseIdx {α : Type} {n : ℕ} (xs : List α) (z : α) (j : Fin (n + 1)) (k : Fin n) :
    (xs.eraseIdx j).getD k z = xs.getD (j.succAbove k) z := by
  rw [List.getD_eq_getElem?_getD, List.getD_eq_getElem?_getD, List.getElem?_eraseIdx, Fin.succAbove]
  by_cases h : (k : ℕ) < j
  · rw [if_pos h, if_pos (show k.castSucc < j from h)]
    rfl
  · rw [if_neg h, if_neg (show ¬k.castSucc < j from h)]
    rfl

/-- The values of what is kept of each row. -/
noncomputable def keptValues (keep : List Template → List Template) (rows : List (List Template)) (n : ℕ) :
    Matrix (Fin n) (Fin n) R :=
  Matrix.of fun i j => ((keep (rows.getD i [])).getD j 0).valueAt σ

/-- What is kept apart from one column, in all rows but the first. -/
theorem keptValues_eraseIdx (keep : List Template → List Template) (row : List Template)
    (rows : List (List Template)) {n : ℕ} (j : Fin (n + 1)) :
    keptValues σ (fun r => (keep r).eraseIdx j) rows n =
      (keptValues (R := R) σ keep (row :: rows) (n + 1)).submatrix Fin.succ j.succAbove := by
  ext i k
  exact congr_arg (Polynomial.valueAt σ) (getD_eraseIdx _ _ _ _)

/-- A minor has the value of the determinant of the values that are kept. -/
theorem valueAt_minor (keep : List Template → List Template) (rows : List (List Template))
    (h : ∀ row ∈ rows, (keep row).length = rows.length) :
    (minor keep rows).valueAt σ = (keptValues (R := R) σ keep rows rows.length).det := by
  induction rows generalizing keep with
  | nil => exact (Polynomial.valueAt_one σ).trans Matrix.det_fin_zero.symm
  | cons row rest ih =>
      cases rest with
      | nil =>
          have hfirst : (keep row).headD 0 = (keep row).getD 0 0 := by cases keep row <;> rfl
          rw [List.length_singleton, Matrix.det_fin_one, minor, hfirst]
          rfl
      | cons next rest =>
          have hrow := h row List.mem_cons_self
          rw [List.length_cons, Matrix.det_succ_row_zero, minor]
          dsimp only
          rw [valueAt_foldl_signed σ (fun j => minor (fun r => (keep r).eraseIdx j) (next :: rest)),
            Polynomial.valueAt_zero, zero_add, sum_zipIdx _ 0, hrow]
          refine Finset.sum_congr rfl fun j _ => ?_
          rw [← keptValues_eraseIdx, ← ih]
          · rfl
          · intro r hr
            have hlength : (keep r).length = (next :: rest).length + 1 := h r (List.mem_cons_of_mem _ hr)
            have hcolumn : (j : ℕ) < (keep r).length := hlength ▸ j.isLt
            rw [List.length_eraseIdx_of_lt hcolumn, hlength, Nat.add_sub_cancel]

theorem valueAt_determinant (rows : List (List Template)) (h : ∀ row ∈ rows, row.length = rows.length) :
    (determinant rows).valueAt σ = (keptValues (R := R) σ id rows rows.length).det :=
  valueAt_minor σ id rows h

/-! ### Four points on a circle -/

/-- The two coordinates of a role, between the sum of their squares and one. -/
def circleRow (r : Label) : Fin 4 → R :=
  let x := σ (.placeholder r .x)
  let y := σ (.placeholder r .y)
  ![x * x + y * y, x, y, 1]

theorem valueAt_concyclic (points : Fin 4 → Label) :
    (concyclic (points 0) (points 1) (points 2) (points 3)).valueAt σ =
      (Matrix.of fun i => circleRow σ (points i)).det := by
  have hrows : keptValues σ id ([points 0, points 1, points 2, points 3].map fun r =>
      [(position r).square, coordinate r .x, coordinate r .y, 1]) 4 =
      Matrix.of fun i => circleRow σ (points i) := by
    ext i j
    fin_cases i <;> fin_cases j <;>
      simp [keptValues, circleRow, position, coordinate, Vector.square, Vector.dot]
  rw [concyclic, valueAt_determinant σ _ (by simp), ← hrows]
  rfl

/-- The squares of four points weigh the triangles of the others. -/
theorem valueAt_concyclic_eq (a b c d : Label) :
    let x (r : Label) := σ (.placeholder r .x)
    let y (r : Label) := σ (.placeholder r .y)
    let square (r : Label) := x r * x r + y r * y r
    let triangle (p q r : Label) := (x q - x p) * (y r - y p) - (y q - y p) * (x r - x p)
    (concyclic a b c d).valueAt σ = square a * triangle b c d - square b * triangle a c d +
      square c * triangle a b d - square d * triangle a b c := by
  intro x y square triangle
  have hvalue := valueAt_concyclic σ ![a, b, c, d]
  have hlast : (1 : Fin 4).succAbove (2 : Fin 3) = 3 ∧ (2 : Fin 4).succAbove (2 : Fin 3) = 3 ∧
      (3 : Fin 4).succAbove (2 : Fin 3) = 2 := ⟨rfl, rfl, rfl⟩
  rw [Matrix.det_succ_row_zero] at hvalue
  refine hvalue.trans ?_
  simp [Fin.sum_univ_succ, Matrix.det_fin_three, hlast, circleRow, x, y, square, triangle]
  ring

end Planimetry.Template
