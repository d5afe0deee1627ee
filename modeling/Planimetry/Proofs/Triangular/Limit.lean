import Planimetry.Proofs.Triangular.Elimination

/-! The limit on the number of terms: it can stop an elimination, and otherwise does not show in anything that
comes of it. -/

namespace Planimetry

/-- A computation without any limit, with the pseudo-remainders that it takes, in order. -/
structure Course (α : Type) where
  remainders : List Polynomial
  result : α

namespace Course

variable {α β : Type}

instance : Monad Course where
  pure a := ⟨[], a⟩
  bind c f := ⟨c.remainders ++ (f c.result).remainders, (f c.result).result⟩

@[simp] theorem remainders_pure (a : α) : (pure a : Course α).remainders = [] := rfl

@[simp] theorem result_pure (a : α) : (pure a : Course α).result = a := rfl

@[simp] theorem remainders_bind (c : Course α) (f : α → Course β) :
    (c >>= f).remainders = c.remainders ++ (f c.result).remainders := rfl

@[simp] theorem result_bind (c : Course α) (f : α → Course β) :
    (c >>= f).result = (f c.result).result := rfl

theorem ext {c d : Course α} (hremainders : c.remainders = d.remainders) (hresult : c.result = d.result) :
    c = d := by
  cases c
  cases d
  cases hremainders
  cases hresult
  rfl

instance : LawfulMonad Course := .mk' Course
  (fun _ => ext (List.append_nil _) rfl)
  (fun _ _ => rfl)
  (fun _ _ _ => ext (List.append_assoc _ _ _) rfl)

/-- What comes of a computation that stops at the first pseudo-remainder with more terms than the limit. -/
def within (limit : Int) (c : Course α) : Except LimitExceeded α :=
  match c.remainders.find? fun r => limit < r.size with
  | some r => .error ⟨r.size, limit⟩
  | none => .ok c.result

theorem within_bind (limit : Int) (c : Course α) (f : α → Course β) :
    (c >>= f).within limit = c.within limit >>= fun a => (f a).within limit := by
  unfold within
  rw [remainders_bind, List.find?_append]
  cases c.remainders.find? fun r => limit < r.size <;> rfl

/-- A computation that is not stopped takes pseudo-remainders of at most as many terms as allowed. -/
theorem within_eq_ok {limit : Int} {c : Course α} {a : α} (h : c.within limit = .ok a) :
    a = c.result ∧ ∀ r ∈ c.remainders, r.size ≤ limit := by
  unfold within at h
  split at h
  next => cases h
  next hnone =>
    cases h
    exact ⟨rfl, fun r hr => Int.not_lt.1 fun hlt =>
      List.find?_eq_none.1 hnone r hr (decide_eq_true hlt)⟩

theorem within_eq_error {limit : Int} {c : Course α} {e : LimitExceeded}
    (h : c.within limit = .error e) : e.limit = limit ∧ limit < e.size := by
  unfold within at h
  split at h
  next r hr =>
    cases h
    have hlt := List.find?_some hr
    exact ⟨rfl, of_decide_eq_true hlt⟩
  next => cases h

/-- A higher limit stops nothing that a lower one does not. -/
theorem within_mono {limit limit' : Int} (hle : limit ≤ limit') {c : Course α} {a : α}
    (h : c.within limit = .ok a) : c.within limit' = .ok a := by
  obtain ⟨rfl, hsizes⟩ := within_eq_ok h
  unfold within
  rw [List.find?_eq_none.2]
  intro r hr
  have hsize := hsizes r hr
  rw [decide_eq_true_eq]
  omega

/-! ### Eliminations -/

/-- A pseudo-remainder. -/
def remainder (v : Variable) (f g : Polynomial) : Course Polynomial :=
  ⟨[f.pseudoRemainder g v], f.pseudoRemainder g v⟩

/-- Replaces the hypotheses that contain the variable by their nonzero pseudo-remainders. -/
def reduceBy (v : Variable) (pivot : Polynomial) : List Hypothesis → Course (List Hypothesis)
  | [] => pure []
  | h :: hs =>
    if h.polynomial.degree v = 0 then do
      let rest ← reduceBy v pivot hs
      return h :: rest
    else do
      let r ← remainder v h.polynomial pivot
      let rest ← reduceBy v pivot hs
      return if r.isZero then rest else { h with polynomial := r } :: rest

/-- Reduces by pivots until one hypothesis at most contains the variable, and takes that one out. -/
def isolate (v : Variable) : Nat → List Hypothesis → Course (Option Hypothesis × List Hypothesis)
  | 0, pending => pure (none, pending)
  | rounds + 1, pending =>
    match Triangular.splitPivot v pending with
    | none => pure (none, pending)
    | some (before, pivot, after) =>
      if (before ++ after).all fun h => h.polynomial.degree v = 0 then
        pure (some pivot, before ++ after)
      else do
        let before ← reduceBy v pivot.polynomial before
        let after ← reduceBy v pivot.polynomial after
        isolate v rounds (before ++ pivot :: after)

/-- Eliminates variables in the given order. -/
def eliminate (t : Triangular) (pending : List Hypothesis) : List Variable → Course Triangular
  | [] => pure { t with residual := pending.map Hypothesis.polynomial }
  | v :: vs => do
    let (pivot, rest) ← isolate v (Triangular.degreeSum v pending) pending
    eliminate { t with chain := (pivot.toList.map fun h => ⟨v, h⟩) ++ t.chain } rest vs

/-- Brings a system to triangular form. -/
def ofSystem (system : List Hypothesis) : Course Triangular :=
  let pending := system.filter fun h => !h.polynomial.isZero
  eliminate {} pending (Triangular.dependents pending)

/-- Divides by chain entries in the given order. -/
def reduceThrough : List ChainEntry → Polynomial → Course Polynomial
  | [], r => pure r
  | e :: es, r =>
    if r.degree e.eliminated = 0 then reduceThrough es r
    else remainder e.eliminated r e.polynomial >>= reduceThrough es

/-- The successive pseudo-remainder of a statement. -/
def reduce (t : Triangular) (statement : Polynomial) : Course Polynomial :=
  reduceThrough t.chain.reverse statement

variable (limit : Int)

theorem within_remainder (v : Variable) (f g : Polynomial) :
    (remainder v f g).within limit = f.limitedRemainder limit v g := by
  unfold within remainder Polynomial.limitedRemainder
  dsimp only
  rw [List.find?_singleton]
  by_cases h : limit < (f.pseudoRemainder g v).size
  · rw [if_pos h, if_pos (decide_eq_true h)]
  · rw [if_neg h, if_neg (by simpa using h)]

theorem within_reduceBy (v : Variable) (pivot : Polynomial) (hs : List Hypothesis) :
    (reduceBy v pivot hs).within limit = Triangular.reduceBy limit v pivot hs := by
  induction hs with
  | nil => rfl
  | cons h hs ih =>
      unfold reduceBy Triangular.reduceBy
      split
      next => rw [within_bind, ih]; rfl
      next => simp only [within_bind, within_remainder, ih]; rfl

theorem within_isolate (v : Variable) (rounds : Nat) (pending : List Hypothesis) :
    (isolate v rounds pending).within limit = Triangular.isolate limit v rounds pending := by
  induction rounds generalizing pending with
  | zero => rfl
  | succ rounds ih =>
      unfold isolate Triangular.isolate
      rcases Triangular.splitPivot v pending with _ | ⟨before, pivot, after⟩
      · rfl
      · dsimp only
        split
        next => rfl
        next => simp only [within_bind, within_reduceBy, ih]

theorem within_eliminate (t : Triangular) (pending : List Hypothesis) (vs : List Variable) :
    (eliminate t pending vs).within limit = Triangular.eliminate limit t pending vs := by
  induction vs generalizing t pending with
  | nil => rfl
  | cons v vs ih =>
      unfold eliminate Triangular.eliminate
      simp only [within_bind, within_isolate, ih]

theorem within_ofSystem (system : List Hypothesis) :
    (ofSystem system).within limit = Triangular.ofSystem limit system :=
  within_eliminate limit {} _ _

theorem within_reduceThrough (es : List ChainEntry) (r : Polynomial) :
    (reduceThrough es r).within limit = Triangular.reduceThrough limit es r := by
  induction es generalizing r with
  | nil => rfl
  | cons e es ih =>
      unfold reduceThrough Triangular.reduceThrough
      split
      next => exact ih r
      next => simp only [within_bind, within_remainder, ih]

theorem within_reduce (t : Triangular) (q : Polynomial) :
    (reduce t q).within limit = t.reduce limit q :=
  within_reduceThrough limit _ q

theorem within_mapM {f : α → Course β} {g : α → Except LimitExceeded β}
    (hf : ∀ a, (f a).within limit = g a) (as : List α) : (as.mapM f).within limit = as.mapM g := by
  induction as with
  | nil => rfl
  | cons a as ih =>
      rw [List.mapM_cons, List.mapM_cons]
      simp only [within_bind, hf, ih]
      rfl

/-! ### What is kept -/

section Kept

variable {P : Polynomial → Prop} {v : Variable} {pivot : Polynomial} {hs pending : List Hypothesis}
  {vs : List Variable} {t : Triangular}

theorem forall_reduceBy (hhs : ∀ h ∈ hs, P h.polynomial)
    (hr : ∀ r ∈ (reduceBy v pivot hs).remainders, P r) :
    ∀ h ∈ (reduceBy v pivot hs).result, P h.polynomial := by
  induction hs with
  | nil => exact List.forall_mem_nil _
  | cons h hs ih =>
      obtain ⟨hh, hhs⟩ := List.forall_mem_cons.1 hhs
      unfold reduceBy at hr ⊢
      split at hr
      next hdegree =>
        rw [if_pos hdegree]
        rw [remainders_bind, remainders_pure, List.append_nil] at hr
        exact List.forall_mem_cons.2 ⟨hh, ih hhs hr⟩
      next hdegree =>
        rw [if_neg hdegree]
        rw [remainders_bind, remainders_bind, remainders_pure, List.append_nil] at hr
        obtain ⟨hremainder, hr⟩ := List.forall_mem_append.1 hr
        rw [result_bind, result_bind, result_pure]
        split
        next => exact ih hhs hr
        next => exact List.forall_mem_cons.2 ⟨hremainder _ List.mem_cons_self, ih hhs hr⟩

theorem forall_isolate {rounds : Nat} (hpending : ∀ h ∈ pending, P h.polynomial)
    (hr : ∀ r ∈ (isolate v rounds pending).remainders, P r) :
    (∀ h ∈ (isolate v rounds pending).result.1, P h.polynomial) ∧
      ∀ h ∈ (isolate v rounds pending).result.2, P h.polynomial := by
  induction rounds generalizing pending with
  | zero => exact ⟨nofun, hpending⟩
  | succ rounds ih =>
      unfold isolate at hr ⊢
      rcases hsplit : Triangular.splitPivot v pending with _ | ⟨before, pivot, after⟩
      · exact ⟨nofun, hpending⟩
      · obtain ⟨rfl, -, -⟩ := Triangular.splitPivot_some hsplit
        obtain ⟨hbefore, hpivot⟩ := List.forall_mem_append.1 hpending
        obtain ⟨hpivot, hafter⟩ := List.forall_mem_cons.1 hpivot
        rw [hsplit] at hr
        dsimp only at hr ⊢
        split at hr
        next hall =>
          rw [if_pos hall]
          refine ⟨fun h hh => ?_, List.forall_mem_append.2 ⟨hbefore, hafter⟩⟩
          obtain rfl := Option.mem_some.1 hh
          exact hpivot
        next hall =>
          rw [if_neg hall]
          rw [remainders_bind, remainders_bind, List.forall_mem_append, List.forall_mem_append] at hr
          obtain ⟨hr, hr', hrest⟩ := hr
          exact ih (List.forall_mem_append.2 ⟨forall_reduceBy hbefore hr,
            List.forall_mem_cons.2 ⟨hpivot, forall_reduceBy hafter hr'⟩⟩) hrest

theorem forall_eliminate (hchain : ∀ e ∈ t.chain, P e.polynomial)
    (hpending : ∀ h ∈ pending, P h.polynomial) (hr : ∀ r ∈ (eliminate t pending vs).remainders, P r) :
    (∀ e ∈ (eliminate t pending vs).result.chain, P e.polynomial) ∧
      ∀ q ∈ (eliminate t pending vs).result.residual, P q := by
  induction vs generalizing t pending with
  | nil => exact ⟨hchain, List.forall_mem_map.2 hpending⟩
  | cons v vs ih =>
      unfold eliminate at hr ⊢
      rw [remainders_bind, List.forall_mem_append] at hr
      obtain ⟨hpivot, hrest⟩ := forall_isolate hpending hr.1
      refine ih (List.forall_mem_append.2 ⟨?_, hchain⟩) hrest hr.2
      rw [List.forall_mem_map]
      exact fun h hh => hpivot h (Option.mem_toList.1 hh)

/-- The polynomials of a triangular system are hypotheses, or pseudo-remainders on the way to it. -/
theorem mem_ofSystem (system : List Hypothesis) :
    ∀ q ∈ (ofSystem system).result.chain.map ChainEntry.polynomial ++ (ofSystem system).result.residual,
      q ∈ system.map Hypothesis.polynomial ∨ q ∈ (ofSystem system).remainders := by
  have hpending : ∀ h ∈ system.filter fun h => !h.polynomial.isZero,
      h.polynomial ∈ system.map Hypothesis.polynomial ∨ h.polynomial ∈ (ofSystem system).remainders :=
    fun h hh => .inl (List.mem_map_of_mem (List.mem_filter.1 hh).1)
  obtain ⟨hchain, hresidual⟩ := forall_eliminate (t := {})
    (P := fun q => q ∈ system.map Hypothesis.polynomial ∨ q ∈ (ofSystem system).remainders)
    (List.forall_mem_nil _) hpending (fun _ hr => .inr hr)
  rw [List.forall_mem_append, List.forall_mem_map]
  exact ⟨hchain, hresidual⟩

end Kept

end Course

namespace Triangular

variable {limit : Int} {system : List Hypothesis} {t : Triangular}

/-- What a triangulation under a limit has kept: hypotheses, and pseudo-remainders of at most as many terms as
allowed, the same as without any limit. -/
structure IsWithin (limit : Int) (system : List Hypothesis) (t : Triangular) : Prop where
  course : ∀ limit', ofSystem limit' system = (Course.ofSystem system).within limit'
  result : t = (Course.ofSystem system).result
  size : ∀ r ∈ (Course.ofSystem system).remainders, r.size ≤ limit
  mem : ∀ q ∈ t.chain.map ChainEntry.polynomial ++ t.residual,
    q ∈ system.map Hypothesis.polynomial ∨ q ∈ (Course.ofSystem system).remainders

theorem isWithin_of_ofSystem (h : ofSystem limit system = .ok t) : IsWithin limit system t := by
  rw [← Course.within_ofSystem] at h
  obtain ⟨rfl, hsize⟩ := Course.within_eq_ok h
  exact ⟨fun limit' => (Course.within_ofSystem limit' system).symm, rfl, hsize,
    Course.mem_ofSystem system⟩

end Triangular

end Planimetry
