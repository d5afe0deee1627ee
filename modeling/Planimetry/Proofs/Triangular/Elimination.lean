import Planimetry.Proofs.Except
import Planimetry.Proofs.Polynomial.PseudoDivision
import Planimetry.Triangular

/-! Triangulation: what one elimination does to the hypotheses, the common zeros of hypotheses and
chain, and the remainder of a statement. -/

namespace Planimetry

/-- All hypotheses vanish at an assignment. -/
def VanishAt {K : Type*} [CommRing K] [Algebra ℚ K] (σ : Variable → K) (hs : List Hypothesis) : Prop :=
  ∀ h ∈ hs, h.polynomial.valueAt σ = 0

namespace Triangular

variable {limit : Int} {v : Variable} {pending rest : List Hypothesis}

theorem limitedRemainder_ok {f g r : Polynomial} (h : f.limitedRemainder limit v g = .ok r) :
    r = f.pseudoRemainder g v := by
  unfold Polynomial.limitedRemainder at h
  dsimp only at h
  split at h
  · cases h
  · exact (Except.ok.inj h).symm

theorem degree_le_of_precedes {h k : Hypothesis} (hk : precedes v h k = true) :
    h.polynomial.degree v ≤ k.polynomial.degree v := by
  unfold precedes at hk
  rw [Bool.or_eq_true, decide_eq_true_iff, Bool.and_eq_true, beq_iff_eq] at hk
  omega

theorem degree_lt_of_not_precedes {h k : Hypothesis} (hk : precedes v h k = false) :
    k.polynomial.degree v ≤ h.polynomial.degree v := by
  unfold precedes at hk
  rw [Bool.or_eq_false_iff, decide_eq_false_iff_not] at hk
  omega

theorem splitPivot_none (h : splitPivot v pending = none) :
    ∀ k ∈ pending, k.polynomial.degree v = 0 := by
  induction pending with
  | nil => simp
  | cons k ks ih =>
      unfold splitPivot at h
      split at h
      next hks =>
        split at h
        · cases h
        · exact List.forall_mem_cons.2 ⟨by omega, ih hks⟩
      next => split at h <;> cases h

/-- The pivot is one of the hypotheses with the variable, and of lowest degree among these. -/
theorem splitPivot_some {before after : List Hypothesis} {pivot : Hypothesis}
    (h : splitPivot v pending = some (before, pivot, after)) :
    pending = before ++ pivot :: after ∧ 0 < pivot.polynomial.degree v ∧
      ∀ k ∈ pending, 0 < k.polynomial.degree v →
        pivot.polynomial.degree v ≤ k.polynomial.degree v := by
  induction pending generalizing before pivot after with
  | nil => cases h
  | cons k ks ih =>
      unfold splitPivot at h
      split at h
      next hks =>
        split at h
        next hk =>
          obtain ⟨rfl, rfl, rfl⟩ := Option.some.inj h
          refine ⟨rfl, hk, List.forall_mem_cons.2 ⟨fun _ => le_rfl, fun l hl hpos => ?_⟩⟩
          exact absurd (splitPivot_none hks l hl) hpos.ne'
        next => cases h
      next before' pivot' after' hks =>
        obtain ⟨hsplit, hpos, hmin⟩ := ih hks
        split at h
        next hk =>
          obtain ⟨rfl, rfl, rfl⟩ := Option.some.inj h
          rw [Bool.and_eq_true, decide_eq_true_iff] at hk
          have hle := degree_le_of_precedes hk.2
          refine ⟨rfl, hk.1, List.forall_mem_cons.2 ⟨fun _ => le_rfl, fun l hl hl' => ?_⟩⟩
          exact hle.trans (hmin l hl hl')
        next hk =>
          obtain ⟨rfl, rfl, rfl⟩ := Option.some.inj h
          refine ⟨congr_arg (k :: ·) hsplit, hpos,
            List.forall_mem_cons.2 ⟨fun hk' => ?_, hmin⟩⟩
          refine degree_lt_of_not_precedes (Bool.eq_false_iff.2 fun hp => hk ?_)
          rw [Bool.and_eq_true, decide_eq_true_iff]
          exact ⟨hk', hp⟩

section ReduceBy

variable {g : Polynomial} {hs rs : List Hypothesis}

theorem reduceBy_cons {h : Hypothesis} (hok : reduceBy limit v g (h :: hs) = .ok rs) :
    ∃ rs', reduceBy limit v g hs = .ok rs' ∧
      (h.polynomial.degree v = 0 ∧ rs = h :: rs' ∨
        0 < h.polynomial.degree v ∧
          (h.polynomial.pseudoRemainder g v = 0 ∧ rs = rs' ∨
            h.polynomial.pseudoRemainder g v ≠ 0 ∧
              rs = { h with polynomial := h.polynomial.pseudoRemainder g v } :: rs')) := by
  unfold reduceBy at hok
  split at hok
  next hd =>
    obtain ⟨rs', hrest, hok⟩ := bind_eq_ok hok
    exact ⟨rs', hrest, .inl ⟨hd, (Except.ok.inj hok).symm⟩⟩
  next hd =>
    obtain ⟨r, hr, hok⟩ := bind_eq_ok hok
    obtain ⟨rs', hrest, hok⟩ := bind_eq_ok hok
    obtain rfl := limitedRemainder_ok hr
    refine ⟨rs', hrest, .inr ⟨Nat.pos_of_ne_zero hd, ?_⟩⟩
    have hrs := Except.ok.inj hok
    split at hrs
    next hz => exact .inl ⟨Sparse.isZero_iff.1 hz, hrs.symm⟩
    next hz => exact .inr ⟨fun h0 => hz (Sparse.isZero_iff.2 h0), hrs.symm⟩

/-- Reduction keeps what remainders inherit. -/
theorem forall_reduceBy {P : Polynomial → Prop}
    (hP : ∀ f : Polynomial, P f → f.pseudoRemainder g v ≠ 0 → P (f.pseudoRemainder g v))
    (hok : reduceBy limit v g hs = .ok rs) (hhs : ∀ h ∈ hs, P h.polynomial) :
    ∀ r ∈ rs, P r.polynomial := by
  induction hs generalizing rs with
  | nil =>
      cases hok
      exact List.forall_mem_nil _
  | cons h hs ih =>
      obtain ⟨rs', hrest, hcase⟩ := reduceBy_cons hok
      obtain ⟨hh, hhs⟩ := List.forall_mem_cons.1 hhs
      have hrs := ih hrest hhs
      rcases hcase with ⟨-, rfl⟩ | ⟨-, ⟨-, rfl⟩ | ⟨hr, rfl⟩⟩
      · exact List.forall_mem_cons.2 ⟨hh, hrs⟩
      · exact hrs
      · exact List.forall_mem_cons.2 ⟨hP _ hh hr, hrs⟩

variable {K : Type*} [Field K] [Algebra ℚ K] {σ : Variable → K}

/-- Where the initial of the divisor does not vanish, reduction brings in no common zeros. -/
theorem vanishAt_of_reduceBy (hg : g.valueAt σ = 0) (hi : (g.initial v).valueAt σ ≠ 0)
    (hok : reduceBy limit v g hs = .ok rs) (hrs : VanishAt σ rs) : VanishAt σ hs := by
  induction hs generalizing rs with
  | nil => exact List.forall_mem_nil _
  | cons h hs ih =>
      obtain ⟨rs', hrest, hcase⟩ := reduceBy_cons hok
      obtain ⟨k, hk⟩ := Polynomial.exists_initial_pow_mul_valueAt σ h.polynomial g v hg
      have hlift (hz : (h.polynomial.pseudoRemainder g v).valueAt σ = 0) :
          h.polynomial.valueAt σ = 0 := by
        rw [hz, mul_eq_zero] at hk
        exact hk.resolve_left (pow_ne_zero k hi)
      rcases hcase with ⟨-, rfl⟩ | ⟨-, ⟨hz, rfl⟩ | ⟨-, rfl⟩⟩
      · have hcons := List.forall_mem_cons.1 hrs
        exact List.forall_mem_cons.2 ⟨hcons.1, ih hrest hcons.2⟩
      · refine List.forall_mem_cons.2 ⟨hlift ?_, ih hrest hrs⟩
        rw [hz, Polynomial.valueAt_zero]
      · have hcons := List.forall_mem_cons.1 hrs
        exact List.forall_mem_cons.2 ⟨hlift hcons.1, ih hrest hcons.2⟩

theorem degreeSum_cons (v : Variable) (h : Hypothesis) (hs : List Hypothesis) :
    degreeSum v (h :: hs) = h.polynomial.degree v + degreeSum v hs := by
  have hfold (n : ℕ) (ks : List Hypothesis) :
      ks.foldl (fun n h => n + h.polynomial.degree v) n =
        n + ks.foldl (fun n h => n + h.polynomial.degree v) 0 := by
    induction ks generalizing n with
    | nil => rfl
    | cons k ks ih =>
        rw [List.foldl_cons, ih, List.foldl_cons, ih (0 + _)]
        omega
  unfold degreeSum
  rw [List.foldl_cons, hfold]
  omega

theorem degreeSum_append (v : Variable) (hs ks : List Hypothesis) :
    degreeSum v (hs ++ ks) = degreeSum v hs + degreeSum v ks := by
  induction hs with
  | nil => exact (Nat.zero_add _).symm
  | cons h hs ih => rw [List.cons_append, degreeSum_cons, degreeSum_cons, ih, Nat.add_assoc]

theorem degree_le_degreeSum (v : Variable) {h : Hypothesis} (hmem : h ∈ hs) :
    h.polynomial.degree v ≤ degreeSum v hs := by
  induction hs with
  | nil => cases hmem
  | cons k ks ih =>
      rw [degreeSum_cons]
      rcases List.mem_cons.1 hmem with rfl | hmem
      · exact Nat.le_add_right _ _
      · exact (ih hmem).trans (Nat.le_add_left _ _)

/-- Reduction by a polynomial of lowest degree lowers the degree of all that contain the variable. -/
theorem degreeSum_reduceBy (hg : 0 < g.degree v)
    (hmin : ∀ h ∈ hs, 0 < h.polynomial.degree v → g.degree v ≤ h.polynomial.degree v)
    (hok : reduceBy limit v g hs = .ok rs) :
    degreeSum v rs ≤ degreeSum v hs ∧
      ((∃ h ∈ hs, h.polynomial.degree v ≠ 0) → degreeSum v rs < degreeSum v hs) := by
  induction hs generalizing rs with
  | nil =>
      cases hok
      exact ⟨le_rfl, by simp⟩
  | cons h hs ih =>
      obtain ⟨rs', hrest, hcase⟩ := reduceBy_cons hok
      obtain ⟨hle, hlt⟩ := ih (List.forall_mem_cons.1 hmin).2 hrest
      have hlow := Polynomial.degree_pseudoRemainder_lt hg h.polynomial
      have hhead := (List.forall_mem_cons.1 hmin).1
      rw [degreeSum_cons]
      rcases hcase with ⟨hd, rfl⟩ | ⟨hd, ⟨-, rfl⟩ | ⟨-, rfl⟩⟩
      · rw [degreeSum_cons, List.exists_mem_cons_iff]
        refine ⟨by omega, ?_⟩
        rintro (hne | hex)
        · exact absurd hd hne
        · have := hlt hex
          omega
      · exact ⟨by omega, fun _ => by omega⟩
      · have := hhead hd
        rw [degreeSum_cons]
        exact ⟨by dsimp only; omega, fun _ => by dsimp only; omega⟩

end ReduceBy

/-- The polynomials by which `isolate` divides, and last the one that it takes out. -/
def isolationPivots (limit : Int) (v : Variable) : Nat → List Hypothesis → List Polynomial
  | 0, _ => []
  | rounds + 1, pending =>
    match splitPivot v pending with
    | none => []
    | some (before, pivot, after) =>
      if (before ++ after).all fun h => h.polynomial.degree v = 0 then [pivot.polynomial]
      else match reduceBy limit v pivot.polynomial before, reduceBy limit v pivot.polynomial after with
        | .ok before, .ok after =>
          pivot.polynomial :: isolationPivots limit v rounds (before ++ pivot :: after)
        | _, _ => []

/-- How a variable is isolated: no hypothesis contains it, or just one does, or all others that do are
reduced by one of lowest degree. -/
inductive Isolates (limit : Int) (v : Variable) :
    List Hypothesis → Option Hypothesis → List Hypothesis → List Polynomial → Prop
  | absent {pending : List Hypothesis} (h : ∀ k ∈ pending, k.polynomial.degree v = 0) :
    Isolates limit v pending none pending []
  | found {before after : List Hypothesis} {pivot : Hypothesis} (hpivot : 0 < pivot.polynomial.degree v)
    (h : ∀ k ∈ before ++ after, k.polynomial.degree v = 0) :
    Isolates limit v (before ++ pivot :: after) (some pivot) (before ++ after) [pivot.polynomial]
  | round {before after before' after' rest : List Hypothesis} {pivot : Hypothesis}
    {found : Option Hypothesis} {pivots : List Polynomial}
    (hpivot : 0 < pivot.polynomial.degree v)
    (hbefore : reduceBy limit v pivot.polynomial before = .ok before')
    (hafter : reduceBy limit v pivot.polynomial after = .ok after')
    (h : Isolates limit v (before' ++ pivot :: after') found rest pivots) :
    Isolates limit v (before ++ pivot :: after) found rest (pivot.polynomial :: pivots)

/-- Reduction by a pivot of lowest degree lowers the degrees of those that are not yet isolated. -/
theorem degreeSum_round_lt {before after before' after' : List Hypothesis} {pivot : Hypothesis}
    (hsplit : splitPivot v pending = some (before, pivot, after))
    (hbefore : reduceBy limit v pivot.polynomial before = .ok before')
    (hafter : reduceBy limit v pivot.polynomial after = .ok after')
    (hothers : ∃ k ∈ before ++ after, k.polynomial.degree v ≠ 0) :
    degreeSum v (before' ++ pivot :: after') < degreeSum v pending := by
  obtain ⟨rfl, hpos, hmin⟩ := splitPivot_some hsplit
  have hb := degreeSum_reduceBy hpos (fun k hk => hmin k (List.mem_append_left _ hk)) hbefore
  have ha := degreeSum_reduceBy hpos
    (fun k hk => hmin k (List.mem_append_right _ (List.mem_cons_of_mem _ hk))) hafter
  simp only [degreeSum_append, degreeSum_cons]
  obtain ⟨k, hk, hne⟩ := hothers
  rcases List.mem_append.1 hk with hk | hk
  · have hlt := hb.2 ⟨k, hk, hne⟩
    omega
  · have hlt := ha.2 ⟨k, hk, hne⟩
    omega

theorem all_eq_false_iff {hs : List Hypothesis} :
    ¬(hs.all fun h => h.polynomial.degree v = 0) = true ↔ ∃ h ∈ hs, h.polynomial.degree v ≠ 0 := by
  simp [List.all_eq_true]

theorem isolates_of_isolate {found : Option Hypothesis} {rounds : ℕ}
    (hrounds : degreeSum v pending ≤ rounds)
    (hok : isolate limit v rounds pending = .ok (found, rest)) :
    Isolates limit v pending found rest (isolationPivots limit v rounds pending) := by
  induction rounds generalizing pending with
  | zero =>
      cases hok
      refine .absent fun k hk => ?_
      have hle := degree_le_degreeSum v hk
      omega
  | succ rounds ih =>
      unfold isolate at hok
      unfold isolationPivots
      rcases hsplit : splitPivot v pending with _ | ⟨before, pivot, after⟩
      · rw [hsplit] at hok
        cases hok
        exact .absent (splitPivot_none hsplit)
      · rw [hsplit] at hok
        obtain ⟨rfl, hpos, -⟩ := splitPivot_some hsplit
        dsimp only at hok ⊢
        split at hok
        next hall =>
          cases hok
          rw [if_pos hall]
          exact .found hpos fun k hk => by simpa using List.all_eq_true.1 hall k hk
        next hall =>
          rw [if_neg hall]
          obtain ⟨before', hb, hok⟩ := bind_eq_ok hok
          obtain ⟨after', ha, hok⟩ := bind_eq_ok hok
          simp only [hb, ha]
          have hlt := degreeSum_round_lt hsplit hb ha (all_eq_false_iff.1 hall)
          exact .round hpos hb ha (ih (by omega) hok)

section Isolates

variable {found : Option Hypothesis} {pivots : List Polynomial}

theorem forall_mem_insert {P : Hypothesis → Prop} {before after : List Hypothesis}
    {pivot : Hypothesis} :
    (∀ k ∈ before ++ pivot :: after, P k) ↔ P pivot ∧ ∀ k ∈ before ++ after, P k := by
  rw [List.forall_mem_append, List.forall_mem_cons, List.forall_mem_append]
  tauto

theorem Isolates.degree_rest (h : Isolates limit v pending found rest pivots) :
    ∀ k ∈ rest, k.polynomial.degree v = 0 := by
  induction h with
  | absent h => exact h
  | found _ h => exact h
  | round _ _ _ _ ih => exact ih

theorem Isolates.degree_found (h : Isolates limit v pending found rest pivots) :
    ∀ k ∈ found, 0 < k.polynomial.degree v := by
  induction h with
  | absent _ => exact nofun
  | found hpivot _ =>
      intro k hk
      cases hk
      exact hpivot
  | round _ _ _ _ ih => exact ih

/-- Isolation keeps what remainders inherit from dividend and divisor. -/
theorem Isolates.forall_mem {P : Polynomial → Prop}
    (hP : ∀ f g : Polynomial, 0 < g.degree v → P f → P g → f.pseudoRemainder g v ≠ 0 →
      P (f.pseudoRemainder g v))
    (h : Isolates limit v pending found rest pivots) (hpending : ∀ k ∈ pending, P k.polynomial) :
    (∀ k ∈ found, P k.polynomial) ∧ ∀ k ∈ rest, P k.polynomial := by
  induction h with
  | absent _ => exact ⟨nofun, hpending⟩
  | found _ _ =>
      obtain ⟨hpivot, hrest⟩ := forall_mem_insert.1 hpending
      refine ⟨fun k hk => ?_, hrest⟩
      cases hk
      exact hpivot
  | round hpos hbefore hafter _ ih =>
      obtain ⟨hpivot, hrest⟩ := forall_mem_insert.1 hpending
      obtain ⟨hb, ha⟩ := List.forall_mem_append.1 hrest
      have hrem := fun f hf => hP f _ hpos hf hpivot
      refine ih (forall_mem_insert.2 ⟨hpivot, List.forall_mem_append.2 ⟨?_, ?_⟩⟩)
      · exact forall_reduceBy hrem hbefore hb
      · exact forall_reduceBy hrem hafter ha

/-- Isolation brings in no variables. -/
theorem Isolates.not_mem_vars {w : Variable} (h : Isolates limit v pending found rest pivots)
    (hw : ∀ k ∈ pending, w ∉ k.polynomial.vars) :
    (∀ k ∈ found, w ∉ k.polynomial.vars) ∧ ∀ k ∈ rest, w ∉ k.polynomial.vars :=
  h.forall_mem (P := fun p => w ∉ p.vars) (fun _ _ hpos hf hg _ hmem =>
    (Polynomial.mem_vars_pseudoRemainder hpos hmem).elim hf hg) hw

variable {K : Type*} [Field K] [Algebra ℚ K] {σ : Variable → K}

/-- What is left vanishes with the hypotheses. -/
theorem Isolates.vanishAt (h : Isolates limit v pending found rest pivots)
    (hσ : VanishAt σ pending) :
    (∀ k ∈ found, k.polynomial.valueAt σ = 0) ∧ VanishAt σ rest := by
  refine h.forall_mem (P := fun p => p.valueAt σ = 0) (fun f g _ hf hg _ => ?_) hσ
  obtain ⟨k, hk⟩ := Polynomial.exists_initial_pow_mul_valueAt σ f g v hg
  rw [← hk, hf, mul_zero]

/-- Where the initials of the pivots do not vanish, the hypotheses vanish with what is left. -/
theorem Isolates.vanishAt_of (h : Isolates limit v pending found rest pivots)
    (hpivots : ∀ g ∈ pivots, (g.initial v).valueAt σ ≠ 0)
    (hfound : ∀ k ∈ found, k.polynomial.valueAt σ = 0) (hrest : VanishAt σ rest) :
    VanishAt σ pending := by
  induction h with
  | absent _ => exact hrest
  | found _ _ => exact forall_mem_insert.2 ⟨hfound _ rfl, hrest⟩
  | round _ hbefore hafter _ ih =>
      obtain ⟨hi, hlater⟩ := List.forall_mem_cons.1 hpivots
      obtain ⟨hpivot, hreduced⟩ := forall_mem_insert.1 (ih hlater hfound hrest)
      obtain ⟨hb, ha⟩ := List.forall_mem_append.1 hreduced
      refine forall_mem_insert.2 ⟨hpivot, List.forall_mem_append.2 ⟨?_, ?_⟩⟩
      · exact vanishAt_of_reduceBy hpivot hi hbefore hb
      · exact vanishAt_of_reduceBy hpivot hi hafter ha

end Isolates

section Eliminate

variable {t t' : Triangular} {vs : List Variable}

theorem eliminate_cons (hok : eliminate limit t pending (v :: vs) = .ok t') :
    ∃ found rest, isolate limit v (degreeSum v pending) pending = .ok (found, rest) ∧
      eliminate limit { t with chain := (found.toList.map fun h => ⟨v, h⟩) ++ t.chain } rest vs =
        .ok t' := by
  unfold eliminate at hok
  obtain ⟨⟨found, rest⟩, hi, hok⟩ := bind_eq_ok hok
  exact ⟨found, rest, hi, hok⟩

/-- A triangular system whose chain contains the eliminated variables. -/
def IsProper (t : Triangular) : Prop := ∀ e ∈ t.chain, 0 < e.polynomial.degree e.eliminated

theorem IsProper.eliminate (ht : t.IsProper)
    (hok : Triangular.eliminate limit t pending vs = .ok t') : t'.IsProper := by
  induction vs generalizing t pending with
  | nil =>
      cases hok
      exact ht
  | cons v vs ih =>
      obtain ⟨found, rest, hi, hok⟩ := eliminate_cons hok
      refine ih (fun e he => ?_) hok
      rcases List.mem_append.1 he with he | he
      · obtain ⟨k, hk, rfl⟩ := List.mem_map.1 he
        exact (isolates_of_isolate le_rfl hi).degree_found k (Option.mem_toList.1 hk)
      · exact ht e he

theorem IsProper.initial_ne_zero (ht : t.IsProper) {e : ChainEntry} (he : e ∈ t.chain) :
    e.initial ≠ 0 := by
  refine Polynomial.initial_ne_zero (fun hz => ?_) _
  have hpos := ht e he
  rw [hz] at hpos
  exact absurd hpos (lt_irrefl 0)

theorem isProper_ofSystem {system : List Hypothesis} (hok : ofSystem limit system = .ok t) :
    t.IsProper :=
  IsProper.eliminate (t := {}) (fun _ he => nomatch he) hok

variable {K : Type*} [Field K] [Algebra ℚ K] {σ : Variable → K}

/-- All polynomials of the chain vanish at an assignment. -/
def ChainVanishAt (σ : Variable → K) (t : Triangular) : Prop :=
  ∀ e ∈ t.chain, e.polynomial.valueAt σ = 0

theorem chainVanishAt_eliminate (ht : t.ChainVanishAt σ) (hσ : VanishAt σ pending)
    (hok : eliminate limit t pending vs = .ok t') :
    t'.ChainVanishAt σ ∧ ∀ q ∈ t'.residual, q.valueAt σ = 0 := by
  induction vs generalizing t pending with
  | nil =>
      cases hok
      refine ⟨ht, fun q hq => ?_⟩
      obtain ⟨h, hh, rfl⟩ := List.mem_map.1 hq
      exact hσ h hh
  | cons v vs ih =>
      obtain ⟨found, rest, hi, hok⟩ := eliminate_cons hok
      obtain ⟨hfound, hrest⟩ := (isolates_of_isolate le_rfl hi).vanishAt hσ
      refine ih (fun e he => ?_) hrest hok
      rcases List.mem_append.1 he with he | he
      · obtain ⟨k, hk, rfl⟩ := List.mem_map.1 he
        exact hfound k (Option.mem_toList.1 hk)
      · exact ht e he

/-- Chain and residual vanish where the system does. -/
theorem chainVanishAt_ofSystem {system : List Hypothesis} (hσ : VanishAt σ system)
    (hok : ofSystem limit system = .ok t) :
    t.ChainVanishAt σ ∧ ∀ q ∈ t.residual, q.valueAt σ = 0 :=
  chainVanishAt_eliminate (t := {}) (fun _ he => nomatch he)
    (fun h hh => hσ h (List.mem_filter.1 hh).1) hok

/-- On the zeros of the chain the remainder is a multiple of the statement, by a factor that is zero
only if an initial is. -/
theorem exists_mul_eq_reduceThrough {es : List ChainEntry} {s r : Polynomial}
    (hes : ∀ e ∈ es, e.polynomial.valueAt σ = 0) (hok : reduceThrough limit es s = .ok r) :
    ∃ c : K, c * s.valueAt σ = r.valueAt σ ∧
      ((∀ e ∈ es, e.initial.valueAt σ ≠ 0) → c ≠ 0) := by
  induction es generalizing s with
  | nil =>
      cases hok
      exact ⟨1, one_mul _, fun _ => one_ne_zero⟩
  | cons e es ih =>
      obtain ⟨he, hes⟩ := List.forall_mem_cons.1 hes
      unfold reduceThrough at hok
      split at hok
      next =>
        obtain ⟨c, hc, hne⟩ := ih hes hok
        exact ⟨c, hc, fun h => hne (List.forall_mem_cons.1 h).2⟩
      next =>
        obtain ⟨s', hr, hok⟩ := bind_eq_ok hok
        obtain ⟨c, hc, hne⟩ := ih hes hok
        obtain ⟨k, hk⟩ := Polynomial.exists_initial_pow_mul_valueAt σ s _ e.eliminated he
        rw [limitedRemainder_ok hr, ← hk, ← mul_assoc] at hc
        refine ⟨_, hc, fun h => ?_⟩
        obtain ⟨hi, h⟩ := List.forall_mem_cons.1 h
        exact mul_ne_zero (hne h) (pow_ne_zero k hi)

theorem exists_reduce_of_mapM {s : Polynomial} {rs : List Polynomial}
    (h : [s].mapM (t.reduce limit) = .ok rs) : ∃ r ∈ rs, t.reduce limit s = .ok r := by
  cases forall₂_of_mapM h with
  | cons hr _ => exact ⟨_, List.mem_cons_self, hr⟩

theorem exists_mul_eq_reduce {s r : Polynomial} (ht : t.ChainVanishAt σ)
    (hok : t.reduce limit s = .ok r) :
    ∃ c : K, c * s.valueAt σ = r.valueAt σ ∧
      ((∀ p ∈ t.initials, p.valueAt σ ≠ 0) → c ≠ 0) := by
  obtain ⟨c, hc, hne⟩ :=
    exists_mul_eq_reduceThrough (fun e he => ht e (List.mem_reverse.1 he)) hok
  refine ⟨c, hc, fun h => hne fun e he => h _ (List.mem_map.2 ⟨e, List.mem_reverse.1 he, rfl⟩)⟩

end Eliminate

end Triangular
end Planimetry
