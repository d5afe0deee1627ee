import Planimetry.Proofs.Area.Context
import Planimetry.Proofs.Area.Parameters
import Planimetry.Proofs.Transformation.Hypothesis
import Planimetry.Proofs.Verdict

/-! Proofs by the area method on a protocol without coordinates, and on the one that a pass or an earlier
proof has left behind: both go along, up to the variables of free ratios. -/

namespace Planimetry

namespace Variable

/-- Moves the free variables from an index on ahead. -/
def ahead (n : ℤ) (k : ℕ) : Variable → Variable
  | .free i => .free (if n ≤ i then i + k else i)
  | v => v

theorem ahead_injective (n : ℤ) (k : ℕ) : Function.Injective (ahead n k) := by
  intro v w h
  cases v <;> cases w <;> simp only [ahead, Variable.free.injEq, reduceCtorEq] at h
  case free.free i j =>
    have hij : i = j := by split at h <;> split at h <;> omega
    rw [hij]
  all_goals exact h

theorem ahead_free {n i : ℤ} (h : n ≤ i) (k : ℕ) : (free i).ahead n k = .free (i + k) :=
  congr_arg Variable.free (if_pos h)

end Variable

namespace Protocol

variable {p q : Protocol} {v : Variable} {l : Label}

/-- The protocol after some further free variables were given out. -/
def ahead (p : Protocol) (k : ℕ) : Protocol := { p with freeIndex := p.freeIndex + k }

theorem ahead_zero (p : Protocol) : p.ahead 0 = p := by
  unfold ahead
  rw [Nat.cast_zero, add_zero]

theorem nextFree_ahead (p : Protocol) (k : ℕ) :
    (p.ahead k).nextFree = (.free (p.freeIndex + k), p.ahead (k + 1)) := by
  unfold nextFree ahead
  simp only [Nat.cast_add, Nat.cast_one, add_assoc]

theorem Knows.ahead_eq (h : p.Knows v) (k : ℕ) : v.ahead p.freeIndex k = v := by
  cases v with
  | free i => exact congr_arg Variable.free (if_neg (not_le.2 h))
  | dependent i => rfl
  | placeholder r a => rfl

end Protocol

namespace Protocol

/-- A pass over a protocol, and what it leaves behind. -/
structure IsPass (p : Protocol) (settings : Settings) (t : Transformation) : Prop where
  run : (p.startWu settings).run = (none, t)
  core : t.protocol.steps.map Step.core = p.steps.map Step.core
  statement : t.protocol.statement = p.statement
  placed : ∀ s ∈ t.protocol.points, s.isPlaced = true
  known : Trial.CoordinatesSatisfy t.protocol.Knows t.protocol
  construction : ∀ s ∈ t.protocol.steps, s.category ≠ .statement

theorem exists_isPass {p : Protocol} (hp : Appended p) (settings : Settings) :
    ∃ t, p.IsPass settings t := by
  obtain ⟨t, hrun, hbare, hplaced⟩ := Transformation.exists_run hp settings.useBestInstantiation
    settings.alignBasePoints
  have ht := (isConsistent_startWu hp settings).advanceAll hp.ordered hrun
  exact ⟨t, hrun, ht.core, ht.statement, hplaced, ht.known,
    (hp.furnished.of_bare hp.ordered hbare).construction⟩

namespace IsPass

variable {p : Protocol} {settings : Settings} {t : Transformation} {k : ℕ}

/-- A later pass finds nothing to do. -/
theorem run_ahead (h : p.IsPass settings t) (k : ℕ) :
    ((t.protocol.ahead k).startWu settings).run = (none, (t.protocol.ahead k).startWu settings) :=
  Transformation.advanceAll_of_isPlaced (t := (t.protocol.ahead k).startWu settings) h.placed
    h.construction _

/-- A protocol whose points are all placed is left as it is. -/
theorem eq_startWu (h : p.IsPass settings t) (hp : Appended p)
    (hplaced : ∀ s ∈ p.points, s.isPlaced = true) : t = p.startWu settings := by
  have hsame := h.run
  unfold Transformation.run at hsame
  rw [Transformation.advanceAll_of_isPlaced hplaced hp.furnished.construction] at hsame
  exact (congr_arg Prod.snd hsame).symm

end IsPass

end Protocol

namespace Area

section Follows

variable {α β γ δ ε σ : Type} {S : σ → σ → Prop} {R : α → β → Prop} {R' : γ → δ → Prop}

/-- Two computations end in the same error, or with results in a relation. -/
inductive EndsAlike (R : α → β → Prop) : Except ε α → Except ε β → Prop
  | error (e : ε) : EndsAlike R (.error e) (.error e)
  | ok {a : α} {b : β} (h : R a b) : EndsAlike R (.ok a) (.ok b)

/-- From states in a relation, two computations end alike, in states in this relation. -/
def Follows (S : σ → σ → Prop) (R : α → β → Prop) (x : ExceptT ε (StateM σ) α)
    (y : ExceptT ε (StateM σ) β) : Prop :=
  ∀ s t, S s t → EndsAlike R (x.run s).1 (y.run t).1 ∧ S (x.run s).2 (y.run t).2

theorem run_bind_of_returns {x : ExceptT ε (StateM σ) α} {s s' : σ} {a : α} (h : Returns x s a s')
    (f : α → ExceptT ε (StateM σ) γ) : (x >>= f).run s = (f a).run s' := by
  rw [run_bind, h]
  rfl

theorem Follows.bind {x : ExceptT ε (StateM σ) α} {y : ExceptT ε (StateM σ) β}
    {f : α → ExceptT ε (StateM σ) γ} {g : β → ExceptT ε (StateM σ) δ} (h : Follows S R x y)
    (hf : ∀ a b, R a b → Follows S R' (f a) (g b)) : Follows S R' (x >>= f) (y >>= g) := by
  intro s t hst
  obtain ⟨hends, hst'⟩ := h s t hst
  rw [run_bind, run_bind]
  revert hends hst'
  generalize (x.run s).1 = r, (x.run s).2 = s', (y.run t).1 = r', (y.run t).2 = t'
  intro hends hst'
  cases hends with
  | error e => exact ⟨.error e, hst'⟩
  | ok hab => exact hf _ _ hab s' t' hst'

theorem follows_pure {a : α} {b : β} (h : R a b) :
    Follows S R (pure a : ExceptT ε (StateM σ) α) (pure b) :=
  fun _ _ hst => ⟨.ok h, hst⟩

theorem follows_throw (e : ε) :
    Follows S R (throw e : ExceptT ε (StateM σ) α) (throw e : ExceptT ε (StateM σ) β) :=
  fun _ _ hst => ⟨.error e, hst⟩

theorem follows_liftM (x : Except ε α) :
    Follows S (fun a b => a = b ∧ x = .ok a) (liftM x : ExceptT ε (StateM σ) α) (liftM x) := by
  intro s t hst
  cases x with
  | error e => exact ⟨.error e, hst⟩
  | ok a => exact ⟨.ok ⟨rfl, rfl⟩, hst⟩

theorem follows_get : Follows S S (get : ExceptT ε (StateM σ) σ) get :=
  fun _ _ hst => ⟨.ok hst, hst⟩

theorem follows_modify {f g : σ → σ} (h : ∀ s t, S s t → S (f s) (g t)) :
    Follows S (· = ·) (modify f : ExceptT ε (StateM σ) PUnit) (modify g) :=
  fun s t hst => ⟨.ok rfl, h s t hst⟩

theorem follows_set {s' t' : σ} (h : S s' t') :
    Follows S (· = ·) (set s' : ExceptT ε (StateM σ) PUnit) (set t') :=
  fun _ _ _ => ⟨.ok rfl, h⟩

end Follows

namespace Progress

variable {p q : Protocol} {k : ℕ} {s t : Progress}

/-- Two proofs with coordinates from the same pass, the second with its free ratios further ahead. -/
structure Matches (q : Protocol) (k : ℕ) (s t : Progress) : Prop where
  used : t.used = s.used
  ratios : t.ratios = s.ratios.map fun r => (r.1, r.2.ahead q.freeIndex k)
  protocol : ∃ j, s.protocol = q.ahead j ∧ t.protocol = q.ahead (j + k)

/-- A proof that has yet to place its points next to one whose points a pass has placed. -/
structure Awaits (p q : Protocol) (k : ℕ) (s t : Progress) : Prop where
  used : t.used = s.used
  ratios : s.ratios = [] ∧ t.ratios = []
  protocol : s.protocol = p ∧ t.protocol = q.ahead k

/-- A proof from an unplaced protocol next to one that an earlier proof has left behind. -/
def Trails (p q : Protocol) (k : ℕ) (s t : Progress) : Prop := s.Awaits p q k t ∨ s.Matches q k t

theorem trails_start (p q : Protocol) (k : ℕ) (events events' : List Event) :
    Trails p q k { protocol := p, events } { protocol := q.ahead k, events := events' } :=
  .inl ⟨rfl, ⟨rfl, rfl⟩, rfl, rfl⟩

theorem Trails.used_eq (h : s.Trails p q k t) : t.used = s.used := h.elim Awaits.used Matches.used

theorem Trails.update (h : s.Trails p q k t) (used : List Label) (events events' : List Event) :
    Trails p q k { s with used, events } { t with used, events := events' } :=
  h.imp (fun h => ⟨rfl, h.ratios, h.protocol⟩) fun h => ⟨rfl, h.ratios, h.protocol⟩

end Progress

namespace Prover

variable {p q : Protocol} {k : ℕ} {m : Prover}

section Elimination

theorem follows_recording {α : Type} (u : Using α) :
    Follows (Progress.Trails p q k) (· = ·) (Proving.recording u) (Proving.recording u) := by
  intro s t hst
  have hrun (s : Progress) :
      (Proving.recording u).run s = ((u.run s.used).1, { s with used := (u.run s.used).2 }) := rfl
  rw [hrun, hrun, hst.used_eq]
  refine ⟨?_, hst.update _ _ _⟩
  cases (u.run s.used).1 with
  | error e => exact .error e
  | ok a => exact .ok rfl

theorem follows_report (e : Event) :
    Follows (Progress.Trails p q k) (· = ·) (Proving.report e) (Proving.report e) :=
  follows_modify fun s _ hst => hst.used_eq ▸ hst.update s.used _ _

theorem follows_simplify (e : Expr) :
    Follows (Progress.Trails p q k) (· = ·) (m.simplify e) (m.simplify e) := by
  refine (follows_liftM _).bind ?_
  rintro ⟨e, settled⟩ _ ⟨rfl, -⟩
  cases settled with
  | true => exact follows_pure rfl
  | false => exact (follows_report _).bind fun _ _ _ => follows_pure rfl

theorem follows_eliminateAll (points : List Label) (e : Expr) :
    Follows (Progress.Trails p q k) (· = ·) (m.eliminateAll points e) (m.eliminateAll points e) := by
  induction points generalizing e with
  | nil => exact follows_pure rfl
  | cons point points ih =>
      unfold eliminateAll
      refine (follows_liftM _).bind ?_
      rintro mentioned _ ⟨rfl, -⟩
      cases mentioned with
      | false => exact ih e
      | true =>
          refine (follows_recording _).bind ?_
          rintro e _ rfl
          refine (follows_simplify e).bind ?_
          rintro e _ rfl
          refine (ih e).bind ?_
          rintro result _ rfl
          exact follows_pure rfl

theorem follows_eliminateConstructed (e : Expr) (before : Option Label) :
    Follows (Progress.Trails p q k) (· = ·) (m.eliminateConstructed e before)
      (m.eliminateConstructed e before) := by
  refine (follows_liftM _).bind ?_
  rintro points _ ⟨rfl, -⟩
  refine (follows_simplify e).bind ?_
  rintro e _ rfl
  exact follows_eliminateAll _ e

end Elimination

section Coordinates

variable {settings : Settings} {pass : Transformation} {s t : Progress}

theorem returns_placePoints_of_isPlaced (h : ∀ u ∈ s.protocol.points, u.isPlaced = true) :
    Returns m.placePoints s () s := by
  unfold placePoints
  refine returns_bind.2 ⟨s, s, returns_get.2 ⟨rfl, rfl⟩, ?_⟩
  rw [if_pos (List.all_eq_true.2 h)]
  exact returns_pure.2 ⟨rfl, rfl⟩

theorem returns_placePoints_of_isPass (hpass : s.protocol.IsPass m.settings pass)
    (h : ¬∀ u ∈ s.protocol.points, u.isPlaced = true) :
    ∃ events, Returns m.placePoints s () { s with protocol := pass.protocol, events } := by
  have hrun := hpass.run
  unfold Protocol.startWu at hrun
  refine ⟨s.events ++ [Transformation.startEvent s.protocol], ?_⟩
  unfold placePoints
  refine returns_bind.2 ⟨s, s, returns_get.2 ⟨rfl, rfl⟩, ?_⟩
  rw [if_neg fun hall => h (List.all_eq_true.1 hall)]
  refine returns_bind.2 ⟨(), _, returns_modify.2 rfl, ?_⟩
  rw [hrun]
  refine returns_bind.2 ⟨(), _, returns_modify.2 rfl, ?_⟩
  exact returns_pure.2 ⟨rfl, rfl⟩

/-- Points are placed by a pass, unless they are placed. -/
theorem exists_placePoints (hp : Appended p) (hpass : p.IsPass m.settings pass)
    (h : s.Trails p pass.protocol k t) :
    ∃ s' t', Returns m.placePoints s () s' ∧ Returns m.placePoints t () t' ∧
      s'.Matches pass.protocol k t' := by
  rcases h with ⟨hused, ⟨hratios, hratios'⟩, hprotocol, hprotocol'⟩ | h
  · have hlater : Returns m.placePoints t () t :=
      returns_placePoints_of_isPlaced (hprotocol' ▸ hpass.placed)
    have hmap : t.ratios = s.ratios.map fun r => (r.1, r.2.ahead pass.protocol.freeIndex k) := by
      rw [hratios, hratios']
      rfl
    by_cases hplaced : ∀ u ∈ p.points, u.isPlaced = true
    · refine ⟨s, t, returns_placePoints_of_isPlaced (hprotocol ▸ hplaced), hlater, hused, hmap, 0,
        ?_, ?_⟩
      · rw [hprotocol, Protocol.ahead_zero, hpass.eq_startWu hp hplaced]
        rfl
      · rw [hprotocol', zero_add]
    · obtain ⟨events, hs⟩ := returns_placePoints_of_isPass (hprotocol ▸ hpass) (hprotocol ▸ hplaced)
      refine ⟨_, t, hs, hlater, hused, hmap, 0, ?_, ?_⟩
      · exact (Protocol.ahead_zero _).symm
      · rw [hprotocol', zero_add]
  · obtain ⟨j, hj, hj'⟩ := h.protocol
    exact ⟨s, t, returns_placePoints_of_isPlaced (hj ▸ hpass.placed),
      returns_placePoints_of_isPlaced (hj' ▸ hpass.placed), h⟩

/-- A variable is given out twice, the second time further ahead. -/
theorem follows_ratioVariable (r : Quantity) :
    Follows (Progress.Matches q k) (fun v w => w = v.ahead q.freeIndex k) (ratioVariable r)
      (ratioVariable r) := by
  refine follows_get.bind fun s t h => ?_
  obtain ⟨j, hj, hj'⟩ := h.protocol
  have hlookup : t.ratios.lookup r = (s.ratios.lookup r).map (Variable.ahead q.freeIndex k) := by
    rw [h.ratios, lookup_map_snd]
  have hahead : (Variable.free (q.freeIndex + j)).ahead q.freeIndex k =
      .free (q.freeIndex + (j + k : ℕ)) := by
    rw [Variable.ahead_free (by omega), Nat.cast_add, add_assoc]
  rw [hlookup]
  cases s.ratios.lookup r with
  | some v => exact follows_pure rfl
  | none =>
      simp only [Option.map_none, hj, hj', Protocol.nextFree_ahead]
      refine (follows_set ⟨h.used, ?_, j + 1, rfl, ?_⟩).bind fun _ _ _ => follows_pure hahead.symm
      · simp only [h.ratios, List.map_append, List.map_singleton, hahead]
      · rw [Nat.add_right_comm]

theorem freeCoordinates_of_steps {p' : Protocol} (h : p'.steps = p.steps) (l : Label) :
    m.freeCoordinates p' l = m.freeCoordinates p l := by
  unfold freeCoordinates Protocol.get?
  rw [h]

theorem ahead_freeCoordinates {l : Label} {xy : Variable × Variable}
    (hknown : Trial.CoordinatesSatisfy q.Knows q) (h : m.freeCoordinates q l = .ok xy) :
    (xy.1.ahead q.freeIndex k, xy.2.ahead q.freeIndex k) = xy := by
  obtain ⟨u, hu, hxy⟩ := Option.bind_eq_some_iff.1 (freeCoordinates_eq_ok h).1
  obtain ⟨hx, hy⟩ := Trial.coordinates?_eq_some hxy
  obtain ⟨hknownx, hknowny⟩ := hknown u (Protocol.mem_of_get? hu).1
  rw [(hknownx _ hx).ahead_eq, (hknowny _ hy).ahead_eq]

/-- Polynomials in the coordinates of free points are the same. -/
theorem follows_inCoordinates (hknown : Trial.CoordinatesSatisfy q.Knows q) {template : Template}
    (ht : template.IsPure) (a b c : Label) :
    Follows (Progress.Matches q k) (fun f g => g = f.rename (Variable.ahead q.freeIndex k))
      (m.inCoordinates template a b c) (m.inCoordinates template a b c) := by
  refine follows_get.bind fun s t hst => ?_
  obtain ⟨j, hj, hj'⟩ := hst.protocol
  have hsteps (l : Label) : m.freeCoordinates t.protocol l = m.freeCoordinates s.protocol l :=
    freeCoordinates_of_steps (by rw [hj, hj']; rfl) l
  have hq (l : Label) : m.freeCoordinates s.protocol l = m.freeCoordinates q l :=
    freeCoordinates_of_steps (by rw [hj]; rfl) l
  simp only [hsteps, hq]
  refine (follows_liftM _).bind ?_
  rintro first _ ⟨rfl, hfirst⟩
  refine (follows_liftM _).bind ?_
  rintro second _ ⟨rfl, hsecond⟩
  refine (follows_liftM _).bind ?_
  rintro third _ ⟨rfl, hthird⟩
  have hahead : ∀ r xy, [("A", first), ("B", second), ("C", third)].lookup r = some xy →
      (xy.1.ahead q.freeIndex k, xy.2.ahead q.freeIndex k) = xy := by
    intro r xy hxy
    obtain ⟨before, after, heq, -⟩ := List.lookup_eq_some_iff.1 hxy
    have hmem : (r, xy) ∈ [("A", first), ("B", second), ("C", third)] :=
      heq ▸ List.mem_append_right _ List.mem_cons_self
    simp only [List.mem_cons, Prod.mk.injEq, List.not_mem_nil, or_false] at hmem
    rcases hmem with ⟨-, rfl⟩ | ⟨-, rfl⟩ | ⟨-, rfl⟩
    · exact ahead_freeCoordinates hknown hfirst
    · exact ahead_freeCoordinates hknown hsecond
    · exact ahead_freeCoordinates hknown hthird
  cases hinstance : template.instantiate
      fun r => [("A", first), ("B", second), ("C", third)].lookup r with
  | error missing => exact follows_throw _
  | ok g =>
      refine follows_pure ?_
      have hrename := Template.instantiate_rename ht (f := Variable.ahead q.freeIndex k)
        (fun r xy hxy => hxy.trans (congr_arg some (hahead r xy hxy).symm)) hinstance
      exact Except.ok.inj (hinstance.symm.trans hrename)

theorem follows_quantityPolynomial (hknown : Trial.CoordinatesSatisfy q.Knows q) (f : Quantity) :
    Follows (Progress.Matches q k) (fun a b => b = a.rename (Variable.ahead q.freeIndex k))
      (m.quantityPolynomial f) (m.quantityPolynomial f) := by
  cases f with
  | area a b c => exact follows_inCoordinates hknown (by decide +kernel) a b c
  | pythagoras a b c => exact follows_inCoordinates hknown (by decide +kernel) a b c
  | ratio a b c d =>
      refine (follows_liftM _).bind ?_
      rintro free _ ⟨rfl, -⟩
      cases free with
      | false => exact follows_throw _
      | true =>
          refine (follows_ratioVariable _).bind ?_
          rintro v _ rfl
          exact follows_pure (Polynomial.rename_ofVariable _ v).symm

theorem follows_productPolynomial (hknown : Trial.CoordinatesSatisfy q.Knows q) (fs : Factors)
    (a : Polynomial) :
    Follows (Progress.Matches q k) (fun a b => b = a.rename (Variable.ahead q.freeIndex k))
      (m.productPolynomial a fs)
      (m.productPolynomial (a.rename (Variable.ahead q.freeIndex k)) fs) := by
  induction fs generalizing a with
  | nil => exact follows_pure rfl
  | cons f fs ih =>
      refine (follows_quantityPolynomial hknown f).bind ?_
      rintro b _ rfl
      rw [← Polynomial.rename_mul]
      exact ih _

theorem follows_sumPolynomial (hknown : Trial.CoordinatesSatisfy q.Knows q)
    (ts : List (Factors × ℚ)) (a : Polynomial) :
    Follows (Progress.Matches q k) (fun a b => b = a.rename (Variable.ahead q.freeIndex k))
      (m.sumPolynomial a ts) (m.sumPolynomial (a.rename (Variable.ahead q.freeIndex k)) ts) := by
  induction ts generalizing a with
  | nil => exact follows_pure rfl
  | cons t ts ih =>
      have hproduct := follows_productPolynomial (m := m) (k := k) hknown t.1 (.constant t.2)
      rw [Polynomial.rename_constant] at hproduct
      refine hproduct.bind ?_
      rintro b _ rfl
      rw [← Polynomial.rename_add]
      exact ih _

end Coordinates

section Proof

variable {settings : Settings} {pass : Transformation} (hp : Appended p)
  (hpass : p.IsPass m.settings pass)

include hp hpass

/-- Polynomials of a form differ in the variables of free ratios. -/
theorem follows_toPolynomial (form : Expansion) :
    Follows (Progress.Trails p pass.protocol k)
      (fun a b => b = a.rename (Variable.ahead pass.protocol.freeIndex k)) (m.toPolynomial form)
      (m.toPolynomial form) := by
  intro s t h
  obtain ⟨s', t', hs, ht, h'⟩ := exists_placePoints hp hpass h
  obtain ⟨hends, hmatches⟩ := follows_sumPolynomial hpass.known form.entries 0 s' t' h'
  unfold toPolynomial
  rw [run_bind_of_returns hs, run_bind_of_returns ht]
  exact ⟨hends, .inr hmatches⟩

theorem follows_denominatorPolynomial (point : Label) (e : Expr) :
    Follows (Progress.Trails p pass.protocol k)
      (fun a b => b = a.rename (Variable.ahead pass.protocol.freeIndex k))
      (m.denominatorPolynomial point e) (m.denominatorPolynomial point e) := by
  refine (follows_eliminateConstructed e (some point)).bind ?_
  rintro ⟨e, trace⟩ _ rfl
  refine (follows_liftM _).bind ?_
  rintro form _ ⟨rfl, -⟩
  exact follows_toPolynomial hp hpass form

theorem follows_denominatorPolynomials (point : Label) (es : List Expr) :
    Follows (Progress.Trails p pass.protocol k)
      (fun as bs => bs = as.map (Polynomial.rename (Variable.ahead pass.protocol.freeIndex k)))
      (m.denominatorPolynomials point es) (m.denominatorPolynomials point es) := by
  induction es with
  | nil => exact follows_pure rfl
  | cons e es ih =>
      refine (follows_denominatorPolynomial hp hpass point e).bind ?_
      rintro a _ rfl
      refine ih.bind ?_
      rintro as _ rfl
      refine follows_pure ?_
      rw [Polynomial.isConstant_rename (Variable.ahead_injective _ _)]
      split
      next => rfl
      next => rfl

theorem follows_denominatorsFrom (n position : ℕ) :
    Follows (Progress.Trails p pass.protocol k)
      (fun as bs => bs = as.map (Polynomial.rename (Variable.ahead pass.protocol.freeIndex k)))
      (m.denominatorsFrom n position) (m.denominatorsFrom n position) := by
  induction n generalizing position with
  | zero => exact follows_pure rfl
  | succ n ih =>
      refine follows_get.bind fun s t h => ?_
      rw [h.used_eq]
      cases s.used[position]? with
      | none => exact follows_pure rfl
      | some point =>
          refine (follows_denominatorPolynomials hp hpass point _).bind ?_
          rintro as _ rfl
          refine (ih (position + 1)).bind ?_
          rintro bs _ rfl
          exact follows_pure (List.map_append).symm

omit hp hpass in
theorem start_of_core (h : q.steps.map Step.core = p.steps.map Step.core)
    (hstatement : q.statement = p.statement) (statement : Option Statement) :
    start q statement = start p statement := by
  unfold start
  simp only [hstatement, Protocol.contains_of_core h]

/-- A proof comes to the same end on a protocol with coordinates, and to the same conditions up to the
variables of free ratios. -/
theorem follows_prove (statement : Option Statement) :
    Follows (Progress.Trails p pass.protocol k)
      (fun a b => b.holds = a.holds ∧ b.nondegenerate =
        a.nondegenerate.map (Polynomial.rename (Variable.ahead pass.protocol.freeIndex k)))
      (m.prove statement) (m.prove statement) := by
  refine follows_get.bind fun s t h => ?_
  have hstart : start s.protocol statement = start p statement ∧
      start t.protocol statement = start p statement := by
    have hahead (j : ℕ) : start (pass.protocol.ahead j) statement = start p statement :=
      start_of_core hpass.core hpass.statement statement
    rcases h with h | h
    · rw [h.protocol.1, h.protocol.2]
      exact ⟨rfl, hahead k⟩
    · obtain ⟨j, hj, hj'⟩ := h.protocol
      rw [hj, hj']
      exact ⟨hahead j, hahead (j + k)⟩
  rw [hstart.1, hstart.2]
  refine (follows_liftM _).bind ?_
  rintro e _ ⟨rfl, -⟩
  refine (follows_eliminateConstructed e none).bind ?_
  rintro ⟨e, trace⟩ _ rfl
  refine (follows_liftM _).bind ?_
  rintro form _ ⟨rfl, -⟩
  refine (follows_report _).bind fun _ _ _ => ?_
  have hconclude (polynomial : Option Polynomial) :
      Follows (Progress.Trails p pass.protocol k)
        (fun a b => b.holds = a.holds ∧ b.nondegenerate =
          a.nondegenerate.map (Polynomial.rename (Variable.ahead pass.protocol.freeIndex k)))
        (do return (⟨polynomial.all Sparse.isZero, form, polynomial, trace, ← m.nondegenerate⟩ : Proof))
        (do
          let polynomial := polynomial.map
            (Polynomial.rename (Variable.ahead pass.protocol.freeIndex k))
          return (⟨polynomial.all Sparse.isZero, form, polynomial, trace, ← m.nondegenerate⟩ :
            Proof)) := by
    refine (follows_denominatorsFrom hp hpass _ _).bind ?_
    rintro as _ rfl
    refine follows_pure ⟨?_, rfl⟩
    cases polynomial with
    | none => rfl
    | some a => exact Polynomial.isZero_rename (Variable.ahead_injective _ _) a
  dsimp only
  split
  next => exact hconclude none
  next =>
      have hsome : Follows (Progress.Trails p pass.protocol k)
          (fun a b => b = a.map (Polynomial.rename (Variable.ahead pass.protocol.freeIndex k)))
          (some <$> m.toPolynomial form) (some <$> m.toPolynomial form) :=
        (follows_toPolynomial hp hpass form).bind fun a b hab => follows_pure (hab ▸ rfl)
      refine hsome.bind ?_
      rintro polynomial _ rfl
      exact hconclude polynomial

end Proof

end Prover

end Area
end Planimetry
