import Planimetry.Proofs.Triangular.Elimination

/-! Termination: the loops of pseudo-division and of triangulation end by themselves, after as many rounds
as are granted to them, and nothing but the limit on terms can stop them earlier. -/

namespace Planimetry

namespace Polynomial

/-- The loop of pseudo-division: it reduces until the degree is below that of the divisor. -/
inductive Reduces (g : Polynomial) (v : Variable) : Polynomial → Polynomial → Prop
  | done {r : Polynomial} (h : r.degree v < g.degree v) : Reduces g v r r
  | round {r r' : Polynomial} (h : g.degree v ≤ r.degree v) (hrest : Reduces g v (reduceOnce g v r) r') :
    Reduces g v r r'

variable {f g r r' : Polynomial} {v : Variable}

theorem Reduces.unique (h : Reduces g v f r) (h' : Reduces g v f r') : r = r' := by
  induction h with
  | done hlt =>
      cases h' with
      | done _ => rfl
      | round hle _ => exact absurd hlt (Nat.not_lt.2 hle)
  | round hle _ ih =>
      cases h' with
      | done hlt => exact absurd hlt (Nat.not_lt.2 hle)
      | round _ hrest => exact ih hrest

/-- The loop ends within as many rounds as the degrees differ. -/
theorem reduces_reduceWhile (hg : 0 < g.degree v) (n : ℕ) (f : Polynomial)
    (hn : f.degree v < n + g.degree v) : Reduces g v f (reduceWhile g v n f) := by
  induction n generalizing f with
  | zero => exact .done (by omega)
  | succ n ih =>
      unfold reduceWhile
      split
      next hlt => exact .done hlt
      next hle =>
        have hlow := degree_reduceOnce_lt hg (Nat.le_of_not_lt hle)
        exact .round (Nat.le_of_not_lt hle) (ih _ (by omega))

/-- The pseudo-remainder is what the loop ends with. -/
theorem reduces_iff (hg : 0 < g.degree v) : Reduces g v f r ↔ f.pseudoRemainder g v = r := by
  have hloop : Reduces g v f (f.pseudoRemainder g v) := reduces_reduceWhile hg _ f (by omega)
  constructor
  · exact hloop.unique
  · rintro rfl
    exact hloop

end Polynomial

namespace Triangular

variable {limit : Int} {v : Variable} {pending before after next : List Hypothesis} {pivot : Hypothesis}
  {rounds : ℕ}

/-- Reduces all others by the pivot. -/
def reduceOthers (limit : Int) (v : Variable) (before : List Hypothesis) (pivot : Hypothesis)
    (after : List Hypothesis) : Except LimitExceeded (List Hypothesis) := do
  let before ← reduceBy limit v pivot.polynomial before
  let after ← reduceBy limit v pivot.polynomial after
  return before ++ pivot :: after

/-- The loop that isolates a variable: it reduces by pivots until one hypothesis at most contains the
variable, or a remainder exceeds the limit. -/
inductive Isolating (limit : Int) (v : Variable) :
    List Hypothesis → Except LimitExceeded (Option Hypothesis × List Hypothesis) → Prop
  | absent {pending : List Hypothesis} (h : splitPivot v pending = none) :
    Isolating limit v pending (.ok (none, pending))
  | found {pending before after : List Hypothesis} {pivot : Hypothesis}
    (h : splitPivot v pending = some (before, pivot, after))
    (hothers : ∀ k ∈ before ++ after, k.polynomial.degree v = 0) :
    Isolating limit v pending (.ok (some pivot, before ++ after))
  | exceeded {pending before after : List Hypothesis} {pivot : Hypothesis} {e : LimitExceeded}
    (h : splitPivot v pending = some (before, pivot, after))
    (hothers : ∃ k ∈ before ++ after, k.polynomial.degree v ≠ 0)
    (herror : reduceOthers limit v before pivot after = .error e) :
    Isolating limit v pending (.error e)
  | round {pending before after next : List Hypothesis} {pivot : Hypothesis}
    {result : Except LimitExceeded (Option Hypothesis × List Hypothesis)}
    (h : splitPivot v pending = some (before, pivot, after))
    (hothers : ∃ k ∈ before ++ after, k.polynomial.degree v ≠ 0)
    (hok : reduceOthers limit v before pivot after = .ok next)
    (hrest : Isolating limit v next result) : Isolating limit v pending result

theorem isolate_succ (limit : Int) (v : Variable) (rounds : ℕ) (pending : List Hypothesis) :
    isolate limit v (rounds + 1) pending = match splitPivot v pending with
      | none => .ok (none, pending)
      | some (before, pivot, after) =>
        if (before ++ after).all fun h => h.polynomial.degree v = 0 then
          .ok (some pivot, before ++ after)
        else reduceOthers limit v before pivot after >>= isolate limit v rounds := by
  unfold isolate reduceOthers
  cases splitPivot v pending with
  | none => rfl
  | some found => simp only [bind_assoc, pure_bind]

theorem reduceOthers_ok (h : reduceOthers limit v before pivot after = .ok next) :
    ∃ before' after', reduceBy limit v pivot.polynomial before = .ok before' ∧
      reduceBy limit v pivot.polynomial after = .ok after' ∧ next = before' ++ pivot :: after' := by
  unfold reduceOthers at h
  obtain ⟨before', hbefore, h⟩ := bind_eq_ok h
  obtain ⟨after', hafter, h⟩ := bind_eq_ok h
  exact ⟨before', after', hbefore, hafter, (Except.ok.inj h).symm⟩

/-- A round lowers the degrees of those that are not yet isolated. -/
theorem degreeSum_reduceOthers (hsplit : splitPivot v pending = some (before, pivot, after))
    (hothers : ∃ k ∈ before ++ after, k.polynomial.degree v ≠ 0)
    (hok : reduceOthers limit v before pivot after = .ok next) :
    degreeSum v next < degreeSum v pending := by
  obtain ⟨before', after', hbefore, hafter, rfl⟩ := reduceOthers_ok hok
  exact degreeSum_round_lt hsplit hbefore hafter hothers

theorem degreeSum_pos (hsplit : splitPivot v pending = some (before, pivot, after)) :
    0 < degreeSum v pending := by
  obtain ⟨rfl, hpos, -⟩ := splitPivot_some hsplit
  exact hpos.trans_le (degree_le_degreeSum v (List.mem_append_right _ List.mem_cons_self))

/-- The loop ends within as many rounds as the degrees add up to. -/
theorem isolating_isolate (hrounds : degreeSum v pending ≤ rounds) :
    Isolating limit v pending (isolate limit v rounds pending) := by
  induction rounds generalizing pending with
  | zero =>
      refine .absent ?_
      rcases hsplit : splitPivot v pending with _ | ⟨before, pivot, after⟩
      · rfl
      · have hpos := degreeSum_pos hsplit
        omega
  | succ rounds ih =>
      rw [isolate_succ]
      rcases hsplit : splitPivot v pending with _ | ⟨before, pivot, after⟩
      · exact .absent hsplit
      · dsimp only
        split
        next hall => exact .found hsplit fun k hk => by simpa using List.all_eq_true.1 hall k hk
        next hall =>
          have hothers := all_eq_false_iff.1 hall
          cases hreduce : reduceOthers limit v before pivot after with
          | error e => exact .exceeded hsplit hothers hreduce
          | ok next =>
              have hlt := degreeSum_reduceOthers hsplit hothers hreduce
              exact .round hsplit hothers hreduce (ih (by omega))

/-- With enough rounds, isolation is what the loop ends with. -/
theorem Isolating.isolate_eq {result : Except LimitExceeded (Option Hypothesis × List Hypothesis)}
    (h : Isolating limit v pending result) (hrounds : degreeSum v pending ≤ rounds) :
    isolate limit v rounds pending = result := by
  induction h generalizing rounds with
  | absent hsplit =>
      cases rounds with
      | zero => rfl
      | succ rounds => rw [isolate_succ, hsplit]
  | found hsplit hothers =>
      obtain ⟨rounds, rfl⟩ := Nat.exists_eq_add_of_lt ((degreeSum_pos hsplit).trans_le hrounds)
      rw [isolate_succ, hsplit]
      exact if_pos (List.all_eq_true.2 fun k hk => decide_eq_true (hothers k hk))
  | exceeded hsplit hothers herror =>
      obtain ⟨rounds, rfl⟩ := Nat.exists_eq_add_of_lt ((degreeSum_pos hsplit).trans_le hrounds)
      rw [isolate_succ, hsplit]
      dsimp only
      rw [if_neg (all_eq_false_iff.2 hothers), herror]
      rfl
  | round hsplit hothers hok _ ih =>
      obtain ⟨rounds, rfl⟩ := Nat.exists_eq_add_of_lt ((degreeSum_pos hsplit).trans_le hrounds)
      have hlt := degreeSum_reduceOthers hsplit hothers hok
      rw [isolate_succ, hsplit]
      dsimp only
      rw [if_neg (all_eq_false_iff.2 hothers), hok]
      exact ih (by omega)

/-- Isolation is what the loop ends with. -/
theorem isolating_iff {result : Except LimitExceeded (Option Hypothesis × List Hypothesis)} :
    Isolating limit v pending result ↔ isolate limit v (degreeSum v pending) pending = result := by
  constructor
  · exact fun h => h.isolate_eq le_rfl
  · rintro rfl
    exact isolating_isolate le_rfl

/-! ### The limit on terms -/

/-- A computation has one result, which it gives for all large limits, and for smaller ones unless it tells
of more terms than the limit. -/
def IsLimited {α : Type} (run : Int → Except LimitExceeded α) : Prop :=
  ∃ a, (∃ bound, ∀ limit, bound ≤ limit → run limit = .ok a) ∧
    ∀ limit, run limit = .ok a ∨ ∃ e, run limit = .error e ∧ e.limit = limit ∧ limit < e.size

section IsLimited

variable {α β : Type}

theorem isLimited_ok (a : α) : IsLimited fun _ => .ok a :=
  ⟨a, ⟨0, fun _ _ => rfl⟩, fun _ => .inl rfl⟩

theorem IsLimited.bind {run : Int → Except LimitExceeded α} {next : Int → α → Except LimitExceeded β}
    (h : IsLimited run) (hnext : ∀ a, IsLimited fun limit => next limit a) :
    IsLimited fun limit => run limit >>= next limit := by
  obtain ⟨a, ⟨bound, hlarge⟩, hall⟩ := h
  obtain ⟨b, ⟨bound', hlarge'⟩, hall'⟩ := hnext a
  dsimp only at hlarge' hall'
  refine ⟨b, ⟨max bound bound', fun limit hle => ?_⟩, fun limit => ?_⟩
  · dsimp only
    rw [hlarge limit (le_trans (le_max_left _ _) hle)]
    exact hlarge' limit (le_trans (le_max_right _ _) hle)
  · dsimp only
    rcases hall limit with hok | ⟨e, herror, hbeyond⟩
    · rw [hok]
      exact hall' limit
    · rw [herror]
      exact .inr ⟨e, rfl, hbeyond⟩

theorem isLimited_limitedRemainder (v : Variable) (f g : Polynomial) :
    IsLimited fun limit => f.limitedRemainder limit v g := by
  unfold Polynomial.limitedRemainder
  refine ⟨f.pseudoRemainder g v, ⟨(f.pseudoRemainder g v).size, fun limit hle => ?_⟩, fun limit => ?_⟩
  · exact if_neg (not_lt.2 hle)
  · dsimp only
    split
    next hlt => exact .inr ⟨_, rfl, rfl, hlt⟩
    next => exact .inl rfl

theorem isLimited_reduceBy (v : Variable) (g : Polynomial) (hs : List Hypothesis) :
    IsLimited fun limit => reduceBy limit v g hs := by
  induction hs with
  | nil => exact isLimited_ok []
  | cons h hs ih =>
      unfold reduceBy
      split
      next => exact ih.bind fun rest => isLimited_ok _
      next =>
        exact (isLimited_limitedRemainder v _ g).bind fun r => ih.bind fun rest => isLimited_ok _

theorem isLimited_reduceOthers (v : Variable) (before : List Hypothesis) (pivot : Hypothesis)
    (after : List Hypothesis) : IsLimited fun limit => reduceOthers limit v before pivot after :=
  (isLimited_reduceBy v _ before).bind fun _ =>
    (isLimited_reduceBy v _ after).bind fun _ => isLimited_ok _

theorem isLimited_isolate (v : Variable) (rounds : ℕ) (pending : List Hypothesis) :
    IsLimited fun limit => isolate limit v rounds pending := by
  induction rounds generalizing pending with
  | zero => exact isLimited_ok _
  | succ rounds ih =>
      simp only [isolate_succ]
      split
      next => exact isLimited_ok _
      next before pivot after _ =>
        split
        next => exact isLimited_ok _
        next => exact (isLimited_reduceOthers v before pivot after).bind ih

theorem isLimited_eliminate (t : Triangular) (pending : List Hypothesis) (vs : List Variable) :
    IsLimited fun limit => eliminate limit t pending vs := by
  induction vs generalizing t pending with
  | nil => exact isLimited_ok _
  | cons v vs ih => exact (isLimited_isolate v _ pending).bind fun _ => ih _ _

end IsLimited

end Triangular
end Planimetry
