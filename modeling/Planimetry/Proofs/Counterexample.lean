import Planimetry.Counterexample
import Planimetry.Proofs.Polynomial.Evaluation

/-! Draws from a seeded generator: which integers each draw takes, and that a search ends with the first draw at
which the polynomial does not vanish. -/

namespace Planimetry

namespace Generator

variable {bound seed : Int}

/-- The state of a seeded generator after some integers. -/
def stateAt (seed : Int) : ℕ → ℕ
  | 0 => (seed % modulus).toNat
  | n + 1 => (stateAt seed n * 1664525 + 1013904223) % modulus

/-- The integer that is taken after some others, none further from zero than the bound. -/
def integerAt (bound seed : Int) (n : ℕ) : Int :=
  -bound + stateAt seed (n + 1) / 256 % (2 * bound + 1)

theorem seeded_eq (seed : Int) : seeded seed = .congruential (stateAt seed 0) := rfl

theorem next_stateAt (hbound : 0 ≤ bound) (seed : Int) (n : ℕ) :
    (congruential (stateAt seed n)).next (-bound) (bound + 1) =
      (integerAt bound seed n, .congruential (stateAt seed (n + 1))) := by
  have hwidth : bound + 1 - -bound = 2 * bound + 1 := by omega
  unfold next integerAt
  dsimp only
  rw [hwidth, Int.fmod_eq_emod_of_nonneg _ (by omega)]
  rfl

theorem abs_integerAt_le (hbound : 0 ≤ bound) (seed : Int) (n : ℕ) :
    -bound ≤ integerAt bound seed n ∧ integerAt bound seed n ≤ bound := by
  have hpos : 0 < 2 * bound + 1 := by omega
  have hlow := Int.emod_nonneg (stateAt seed (n + 1) / 256) hpos.ne'
  have hhigh := Int.emod_lt_of_pos (stateAt seed (n + 1) / 256) hpos
  unfold integerAt
  omega

end Generator

namespace Assignment

open Generator

variable {bound seed : Int}

/-- The values of an assignment, of its own variables only. -/
def values (a : Assignment) (v : Variable) : Option ℚ := Option.map (fun n : Int => (n : ℚ)) (a.lookup v)

/-- The integers from a number on, one for each variable in order. -/
def drawnFrom (bound seed : Int) (vs : List Variable) (n : ℕ) : Assignment :=
  vs.mapIdx fun i v => (v, integerAt bound seed (n + i))

theorem draw_stateAt (hbound : 0 ≤ bound) (seed : Int) (vs : List Variable) (n : ℕ) :
    draw bound vs (.congruential (stateAt seed n)) =
      (drawnFrom bound seed vs n, .congruential (stateAt seed (n + vs.length))) := by
  induction vs generalizing n with
  | nil => rfl
  | cons v vs ih =>
      unfold draw
      rw [next_stateAt hbound]
      dsimp only
      rw [ih]
      unfold drawnFrom
      rw [List.mapIdx_cons, List.length_cons]
      simp only [Nat.add_zero, Nat.add_assoc, Nat.add_comm 1]

theorem map_fst_drawnFrom (bound seed : Int) (vs : List Variable) (n : ℕ) :
    (drawnFrom bound seed vs n).map Prod.fst = vs := by
  refine List.ext_getElem (by simp [drawnFrom]) fun i _ _ => ?_
  simp [drawnFrom]

theorem bounded_drawnFrom (hbound : 0 ≤ bound) (seed : Int) (vs : List Variable) (n : ℕ) :
    ∀ e ∈ drawnFrom bound seed vs n, -bound ≤ e.2 ∧ e.2 ≤ bound := by
  intro e he
  obtain ⟨i, hi, rfl⟩ := List.mem_mapIdx.1 he
  exact abs_integerAt_le hbound seed (n + i)

end Assignment

namespace Polynomial

open Generator Assignment

variable {p : Polynomial} {bound seed : Int} {a : Assignment}

theorem eval?_values (h : a.map Prod.fst = p.vars) : p.eval? a.values = some (p.eval a.value) := by
  have hall : ∀ v ∈ p.vars, (a.values v).isSome = true := by
    intro v hv
    rw [← h] at hv
    obtain ⟨e, he, rfl⟩ := List.mem_map.1 hv
    unfold values
    rw [Option.isSome_map]
    exact List.lookup_isSome_iff.2 ⟨e, he, beq_self_eq_true _⟩
  have hvalue : (fun v => (a.values v).getD 0) = a.value := by
    funext v
    unfold values value
    cases a.lookup v with
    | none => exact Int.cast_zero.symm
    | some n => rfl
  unfold eval?
  rw [if_pos (List.all_eq_true.2 hall), hvalue]

/-- The values of the variables of a polynomial in a draw, by its number. -/
def drawn (p : Polynomial) (bound seed : Int) (k : ℕ) : Assignment :=
  drawnFrom bound seed p.vars (k * p.vars.length)

theorem eval?_drawn (p : Polynomial) (bound seed : Int) (k : ℕ) :
    p.eval? (p.drawn bound seed k).values = some (p.eval (p.drawn bound seed k).value) :=
  eval?_values (map_fst_drawnFrom _ _ _ _)

/-- The search goes through the draws one by one, however many it has behind it. -/
theorem search_stateAt (hbound : 0 ≤ bound) (seed : Int) (p : Polynomial) (k n : ℕ) :
    (p.search bound n (.congruential (stateAt seed (k * p.vars.length)))).1 =
      ((List.range' k n).find? fun i => p.eval (p.drawn bound seed i).value ≠ 0).map
        (p.drawn bound seed) := by
  induction n generalizing k with
  | zero => rfl
  | succ n ih =>
      unfold search
      rw [draw_stateAt hbound, List.range'_succ, List.find?_cons, ← Nat.succ_mul]
      dsimp only
      change (if p.eval (p.drawn bound seed k).value = 0 then _ else _ : _ × _).1 = _
      split
      next hzero =>
        rw [ih, decide_eq_false (not_not_intro hzero)]
      next hne =>
        rw [decide_eq_true hne]
        rfl

/-- What a counterexample is: integers within the bound for exactly the variables, taken from the first draw of
those allowed at which the polynomial does not vanish. -/
structure IsCounterexample (p : Polynomial) (attempts bound seed : Int) (a : Assignment) : Prop where
  vars : a.map Prod.fst = p.vars
  bounded : ∀ e ∈ a, -bound ≤ e.2 ∧ e.2 ≤ bound
  first : ∃ k : ℕ, k < attempts ∧ a = p.drawn bound seed k ∧
    ∀ j < k, p.eval? (p.drawn bound seed j).values = some 0
  nonzero : ∃ c, c ≠ 0 ∧ p.eval? a.values = some c

theorem counterexample_seeded (hbound : 0 ≤ bound) (hp : p.isRefutable = true) (attempts seed : Int) :
    (p.counterexample attempts bound (.seeded seed)).1 =
      ((List.range' 0 attempts.toNat).find? fun i => p.eval (p.drawn bound seed i).value ≠ 0).map
        (p.drawn bound seed) := by
  have hstart : (seeded seed) = .congruential (stateAt seed (0 * p.vars.length)) := by
    rw [Nat.zero_mul, seeded_eq]
  unfold counterexample
  rw [if_pos hp, hstart, search_stateAt hbound]

theorem isCounterexample_of_counterexample {attempts : Int} (hbound : 0 ≤ bound)
    (hp : p.isRefutable = true) (h : (p.counterexample attempts bound (.seeded seed)).1 = some a) :
    p.IsCounterexample attempts bound seed a := by
  rw [counterexample_seeded hbound hp] at h
  obtain ⟨k, hk, rfl⟩ := Option.map_eq_some_iff.1 h
  rw [List.find?_range'_eq_some] at hk
  obtain ⟨hne, hmem, hearlier⟩ := hk
  refine ⟨map_fst_drawnFrom _ _ _ _, bounded_drawnFrom hbound _ _ _, ⟨k, ?_, rfl, fun j hj => ?_⟩,
    ⟨_, of_decide_eq_true hne, eval?_drawn p bound seed k⟩⟩
  · have hlt := (List.mem_range'_1.1 hmem).2
    omega
  · have hzero := hearlier j (Nat.zero_le j) hj
    rw [eval?_drawn]
    simpa using hzero

theorem eval?_drawn_eq_zero {attempts : Int} (hbound : 0 ≤ bound) (hp : p.isRefutable = true)
    (h : (p.counterexample attempts bound (.seeded seed)).1 = none) {k : ℕ} (hk : k < attempts) :
    p.eval? (p.drawn bound seed k).values = some 0 := by
  rw [counterexample_seeded hbound hp, Option.map_eq_none_iff, List.find?_eq_none] at h
  have hzero := h k (List.mem_range'_1.2 (by omega))
  rw [eval?_drawn]
  simpa using hzero

end Polynomial

end Planimetry
