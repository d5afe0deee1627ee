import Planimetry.Proofs.Transformation.Pass

/-! Placing a point in place: the coordinates, the system and the factors change step by step, as far as the
conditions have polynomials and nothing breaks in. In the end the pass is the one that places the point at
once, and on the way it only grows. -/

namespace Planimetry

/-! ### Work in place -/

/-- Why work in place ends early: a step cannot be turned into polynomials, or a fault breaks in. -/
inductive Halt where
  | failed (e : TransformError)
  | fault

/-- A pass that is worked on in place, and after how many operations a fault breaks in, if one does. -/
structure Site where
  work : Transformation
  fuse : Option ℕ := none

/-- Work that ends early keeps what it changed until then. -/
abbrev Work := EStateM Halt Site

/-- A hypothesis with its variables renamed. -/
def Hypothesis.rename (f : Variable → Variable) (h : Hypothesis) : Hypothesis :=
  { h with polynomial := h.polynomial.rename f }

/-- Changes the coordinates or the state of the point of a trial. -/
def Trial.mark (t : Trial) (f : Placement → Placement) : Trial :=
  { t with point := { t.point with placement := f t.point.placement } }

/-- Rewrites a list from a position on. -/
def rewriteFrom (n : ℕ) (f : List Hypothesis → List Hypothesis) (hs : List Hypothesis) :
    List Hypothesis :=
  hs.take n ++ f (hs.drop n)

namespace Work

variable {α β : Type}

def fail (e : TransformError) : Work α := throw (.failed e)

/-- One operation on the pass, unless the fault breaks in before it. -/
def operate (f : Transformation → α × Transformation) : Work α := do
  let site ← get
  if site.fuse = some 0 then throw .fault
  else
    set { site with work := (f site.work).2, fuse := site.fuse.map Nat.pred }
    return (f site.work).1

def look (f : Transformation → α) : Work α := operate fun t => (f t, t)

def change (f : Transformation → Transformation) : Work Unit := operate fun t => ((), f t)

/-- The pass that work leaves, even if it ends early. -/
def left : EStateM.Result Halt Site α → Transformation
  | .ok _ site => site.work
  | .error _ site => site.work

section Place

variable (position : ℕ) (s : Step)

/-- The point as it stands in the protocol. -/
def point : Work Step := look fun t => (t.protocol.steps[position]?).getD s

/-- Changes the coordinates or the state of the point. -/
def mark (f : Placement → Placement) : Work Unit :=
  change fun t => { t with
    protocol := t.protocol.modify position fun u => { u with placement := f u.placement } }

def nextFree : Work Variable :=
  operate fun t => (t.protocol.nextFree.1, { t with protocol := t.protocol.nextFree.2 })

def nextDependent : Work Variable :=
  operate fun t => (t.protocol.nextDependent.1, { t with protocol := t.protocol.nextDependent.2 })

def first (freeCoordinates : ℕ) : Work Variable :=
  if freeCoordinates = 0 then nextDependent else nextFree

/-- The second coordinate, which may be aligned if it is free. -/
def second (freeCoordinates : ℕ) : Work Variable :=
  if freeCoordinates ≤ 1 then nextDependent
  else do
    match ← look fun t => t.protocol.alignedY t.align position with
    | some y => return y
    | none => nextFree

/-- Gives the point fresh coordinates, one after the other. -/
def assign (freeCoordinates : ℕ) : Work Unit := do
  let x ← first freeCoordinates
  mark position fun p => { p with x := some x }
  let y ← second position freeCoordinates
  mark position fun p => { p with y := some y }
  mark position fun p => { p with state := .unchanged }

def keep (h : Hypothesis) : Work Unit := change fun t => { t with system := t.system ++ [h] }

/-- Records a factor that renaming needs nonzero. -/
def divide (h : Hypothesis) : Work Unit :=
  if h.polynomial.isConstant then pure ()
  else change fun t => { t with factors := t.factors ++ [h] }

/-- Renames variables in the hypotheses from a position on, and drops those that vanish. -/
def renameSystem (start : ℕ) (f : Variable → Variable) : Work Unit :=
  let renamed (hs : List Hypothesis) : List Hypothesis :=
    (hs.map (Hypothesis.rename f)).filter fun h => !h.polynomial.isZero
  change fun t => { t with system := rewriteFrom start renamed t.system }

def renameFactors (start : ℕ) (f : Variable → Variable) : Work Unit :=
  change fun t => { t with factors := rewriteFrom start (List.map (Hypothesis.rename f)) t.factors }

/-- Renames a coordinate of the point, and in all that was added from some positions on. -/
def rename (start factorStart : ℕ) (axis : Axis) (own target : Variable) (factor : Hypothesis) :
    Work Unit := do
  mark position fun p => match axis with
    | .x => { p with x := some target }
    | .y => { p with y := some target }
  mark position fun p => { p with state := .renamed }
  divide factor
  let f (v : Variable) := if v = own then target else v
  renameSystem start f
  renameFactors factorStart f

/-- Takes a condition: it vanishes, renames a coordinate, or is kept. -/
def meet (start factorStart : ℕ) (c : Condition) : Work Unit := do
  let u ← point position s
  match ← look fun t => t.protocol.polynomialOf u c with
  | .error e => fail e
  | .ok q =>
    if q.isZero then pure ()
    else match Trial.renaming? { point := u } q with
      | some (axis, own, target) =>
        rename position start factorStart axis own target ⟨q.coefficient own 1, u.label⟩
      | none => keep ⟨q, u.label⟩

def meetAll (start factorStart : ℕ) : List Condition → Work Unit
  | [] => pure ()
  | c :: cs => do
    meet position s start factorStart c
    meetAll start factorStart cs

/-- A point with conditions of its own counts as modified unless a coordinate was renamed. -/
def conclude (added : List Polynomial) : Work Unit := do
  let u ← point position s
  if added.isEmpty || u.placement.state ≠ .unchanged then pure ()
  else mark position fun p => { p with state := .modified }

/-- What was added from a position on. -/
def settle (start : ℕ) : Work (List Polynomial) := do
  let added ← look fun t => (t.system.drop start).map Hypothesis.polynomial
  conclude position s added
  return added

/-- Places the point by an alternative. -/
def place (alternative : Alternative) : Work (List Polynomial) := do
  match ← look fun t => t.protocol.unplaced? s alternative with
  | some g => fail (.unplaced s.label g)
  | none =>
    assign position s.kind.spec.freeCoordinates
    let start ← look fun t => t.system.length
    let factorStart ← look fun t => t.factors.length
    meetAll position s start factorStart alternative
    settle position s start

end Place

end Work

/-! ### Objects other than the point -/

namespace Protocol

variable {p : Protocol} {position : ℕ} {s u : Step} {l : Label}

theorem getElem?_modify (hs : p.steps[position]? = some s) (f : Step → Step) :
    (p.modify position f).steps[position]? = some (f s) := by
  unfold modify
  rw [List.getElem?_modify_eq, hs]
  rfl

theorem get?_modify (hs : p.steps[position]? = some s) (f : Step → Step) (hl : l ≠ s.label)
    (hl' : l ≠ (f s).label) : (p.modify position f).get? l = p.get? l := by
  obtain ⟨hposition, rfl⟩ := List.getElem?_eq_some_iff.1 hs
  have hmiss {v : Step} (hv : l ≠ v.label) : (v.label == l) = false := beq_false_of_ne hv.symm
  unfold get? modify
  conv_rhs => rw [← List.take_append_drop position p.steps, List.drop_eq_getElem_cons hposition]
  rw [List.modify_eq_take_cons_drop hposition]
  simp only [List.reverse_append, List.reverse_cons, List.find?_append, List.find?_cons, hmiss hl,
    hmiss hl', List.find?_nil]

/-- A point sees the others where they are, however its own place changes. -/
theorem coordinatesFor_modify (hs : p.steps[position]? = some s) (hu : u.label = s.label) (v : Step)
    (hv : v.label = s.label) :
    (p.modify position fun _ => u).coordinatesFor v = p.coordinatesFor v := by
  funext l
  unfold coordinatesFor
  split
  next => rfl
  next hl => rw [get?_modify hs _ (hv ▸ hl) (hu ▸ hv ▸ hl)]

theorem polynomialOf_modify (hs : p.steps[position]? = some s) (hu : u.label = s.label)
    (c : Condition) :
    (p.modify position fun _ => u).polynomialOf u c = p.polynomialOf u c := by
  unfold polynomialOf
  rw [coordinatesFor_modify hs hu u hu]

theorem unplaced?_modify (hs : p.steps[position]? = some s) (hu : u.label = s.label)
    (alternative : Alternative) :
    (p.modify position fun _ => u).unplaced? s alternative = p.unplaced? s alternative := by
  unfold unplaced?
  rw [coordinatesFor_modify hs hu s rfl]

theorem modify_eq_self {α : Type} {f : α → α} {i : ℕ} {xs : List α}
    (h : ∀ a, xs[i]? = some a → f a = a) : xs.modify i f = xs := by
  refine List.ext_getElem? fun j => ?_
  rw [List.getElem?_modify]
  by_cases hij : i = j
  · subst hij
    cases ha : xs[i]? with
    | none => rfl
    | some a => simp [h a ha]
  · simp [hij]

theorem zipIdx_modify {α : Type} (f : α → α) (i : ℕ) (xs : List α) :
    (xs.modify i f).zipIdx = xs.zipIdx.map fun e => if e.2 = i then (f e.1, e.2) else e := by
  refine List.ext_getElem? fun j => ?_
  rw [List.getElem?_map, List.getElem?_zipIdx, List.getElem?_zipIdx, List.getElem?_modify]
  by_cases hij : i = j
  · subst hij
    cases xs[i]? <;> simp
  · cases xs[j]? <;> simp [hij, Ne.symm hij]

/-- A point is aligned with another one, wherever it is itself. -/
theorem alignedY_modify (hs : p.steps[position]? = some s) (hu : u.kind = s.kind) (align : Bool) :
    (p.modify position fun _ => u).alignedY align position = p.alignedY align position := by
  let place (e : Step × ℕ) : Step × ℕ := if e.2 = position then (u, e.2) else e
  have hplace (e : Step × ℕ) : (place e).2 = e.2 := by
    unfold place
    split <;> rfl
  have hfilter : (p.steps.modify position fun _ => u).zipIdx.filter (fun e => e.1.kind == .freePoint) =
      (p.steps.zipIdx.filter fun e => e.1.kind == .freePoint).map place := by
    rw [zipIdx_modify, List.filter_map]
    refine congr_arg (List.map place) (List.filter_congr fun e he => ?_)
    have hat := List.mem_zipIdx_iff_getElem?.1 he
    rw [Function.comp_apply]
    split
    next heq =>
      rw [heq, hs] at hat
      rw [hu, Option.some.inj hat]
    next => rfl
  have hascending : (p.steps.zipIdx.filter fun e => e.1.kind == .freePoint).Pairwise
      fun e f => e.2 < f.2 := by
    refine List.Pairwise.filter _ (List.pairwise_map.1 ?_)
    rw [List.zipIdx_map_snd]
    exact List.pairwise_lt_range'
  unfold alignedY modify
  dsimp only
  rw [hfilter]
  generalize p.steps.zipIdx.filter (fun e => e.1.kind == .freePoint) = free at hascending ⊢
  match free with
  | [] => rfl
  | [_] => rfl
  | first :: second :: rest =>
      have hlt := (List.pairwise_cons.1 hascending).1 second List.mem_cons_self
      simp only [List.map_cons, hplace]
      split
      next halign =>
        rw [Bool.and_eq_true, beq_iff_eq] at halign
        -- The second free point is the one that moves, so the first one stays.
        have hne : first.2 ≠ position := by omega
        rw [show place first = first from if_neg hne]
      next => rfl

end Protocol

/-! ### What operations do -/

namespace Work

variable {α β : Type}

section Run

variable {t : Transformation}

@[simp] theorem run_look (f : Transformation → α) (t : Transformation) :
    (look f).run { work := t } = .ok (f t) { work := t } := rfl

@[simp] theorem run_change (f : Transformation → Transformation) (t : Transformation) :
    (change f).run { work := t } = .ok () { work := f t } := rfl

end Run

section Commit

variable {t : Transformation} {position : ℕ} {s : Step} {trial : Trial} {p : Protocol}

theorem run_mark (f : Placement → Placement) :
    (mark position f).run { work := t.commit position trial p } =
      .ok () { work := t.commit position (trial.mark f) p } := by
  unfold mark
  rw [run_change]
  unfold Transformation.commit Protocol.modify Trial.mark
  dsimp only
  rw [List.modify_modify_eq]
  rfl

theorem run_nextFree : nextFree.run { work := t.commit position trial p } =
    .ok p.nextFree.1 { work := t.commit position trial p.nextFree.2 } := rfl

theorem run_nextDependent : nextDependent.run { work := t.commit position trial p } =
    .ok p.nextDependent.1 { work := t.commit position trial p.nextDependent.2 } := rfl

theorem run_point (hs : p.steps[position]? = some s) :
    (point position s).run { work := t.commit position trial p } =
      .ok trial.point { work := t.commit position trial p } := by
  unfold point
  rw [run_look]
  unfold Transformation.commit
  rw [Protocol.getElem?_modify hs, Option.getD_some]

theorem run_second (t : Transformation) (trial : Trial) (p : Protocol)
    (hs : p.steps[position]? = some s) (hcore : trial.point.core = s.core) (n : ℕ) :
    (second position (n + 2)).run { work := t.commit position trial p } =
      match p.alignedY t.align position with
      | some y => .ok y { work := t.commit position trial p }
      | none => .ok p.nextFree.1 { work := t.commit position trial p.nextFree.2 } := by
  have haligned : (t.commit position trial p).protocol.alignedY t.align position =
      p.alignedY t.align position :=
    Protocol.alignedY_modify hs (congr_arg (fun c => c.2.1.kind) hcore) t.align
  unfold second
  rw [if_neg (by omega), EStateM.run_bind, run_look]
  dsimp only
  rw [show (t.commit position trial p).align = t.align from rfl, haligned]
  cases p.alignedY t.align position <;> rfl

theorem run_assign (hs : p.steps[position]? = some s) (hcore : trial.point.core = s.core) (n : ℕ) :
    (assign position n).run { work := t.commit position trial p } =
      let fresh := p.freshCoordinates t.align position n
      let placed := trial.mark fun _ => ⟨some fresh.1.1, some fresh.1.2, .unchanged⟩
      .ok () { work := t.commit position placed fresh.2 } := by
  match n with
  | 0 => simp [assign, first, second, run_mark, run_nextDependent, Protocol.freshCoordinates, Trial.mark]
  | 1 =>
      simp [assign, first, second, run_mark, run_nextFree, run_nextDependent,
        Protocol.freshCoordinates, Trial.mark]
  | n + 2 =>
      have hsecond (f : Placement → Placement) :=
        run_second t (trial.mark f) p.nextFree.2 hs hcore n
      have haligned : p.nextFree.2.alignedY t.align position = p.alignedY t.align position := rfl
      cases hy : p.alignedY t.align position <;>
        simp [assign, first, run_mark, run_nextFree, hsecond, haligned, hy,
          Protocol.freshCoordinates] <;> rfl

theorem run_keep (q : Polynomial) {l : Label} (hl : trial.point.label = l) :
    (keep ⟨q, l⟩).run { work := t.commit position trial p } =
      .ok () { work := t.commit position { trial with hypotheses := trial.hypotheses ++ [q] } p } := by
  simp [keep, Transformation.commit, hl]

theorem run_divide (a : Polynomial) {l : Label} (hl : trial.point.label = l) :
    (divide ⟨a, l⟩).run { work := t.commit position trial p } =
      let factors := trial.factors ++ if a.isConstant then [] else [a]
      .ok () { work := t.commit position { trial with factors } p } := by
  unfold divide
  cases a.isConstant <;> simp [Transformation.commit, hl]

theorem rewriteFrom_append (f : List Hypothesis → List Hypothesis) (hs ks : List Hypothesis) :
    rewriteFrom hs.length f (hs ++ ks) = hs ++ f ks := by
  simp [rewriteFrom]

/-- What is renamed from the end of the old system on is what the trial has gathered. -/
theorem run_renameSystem (f : Variable → Variable) :
    (renameSystem t.system.length f).run { work := t.commit position trial p } =
      let renamed := (trial.hypotheses.map (Polynomial.rename f)).filter fun h => !h.isZero
      .ok () { work := t.commit position { trial with hypotheses := renamed } p } := by
  unfold renameSystem
  rw [run_change]
  unfold Transformation.commit
  dsimp only
  rw [rewriteFrom_append, List.map_map, List.filter_map, List.filter_map, List.map_map]
  rfl

theorem run_renameFactors (f : Variable → Variable) :
    (renameFactors t.factors.length f).run { work := t.commit position trial p } =
      let renamed := trial.factors.map (Polynomial.rename f)
      .ok () { work := t.commit position { trial with factors := renamed } p } := by
  unfold renameFactors
  rw [run_change]
  unfold Transformation.commit
  dsimp only
  rw [rewriteFrom_append, List.map_map, List.map_map]
  rfl

theorem run_rename (axis : Axis) (own target : Variable) (a : Polynomial) :
    (rename position t.system.length t.factors.length axis own target ⟨a, trial.point.label⟩).run
        { work := t.commit position trial p } =
      .ok () { work := t.commit position (trial.rename axis own target a) p } := by
  unfold rename Trial.rename
  cases axis <;> simp [run_mark, run_divide, run_renameSystem, run_renameFactors, Trial.mark]

/-- A condition is taken as a trial takes it. -/
theorem run_meet (hs : p.steps[position]? = some s) (hcore : trial.point.core = s.core) (c : Condition) :
    (meet position s t.system.length t.factors.length c).run { work := t.commit position trial p } =
      match p.polynomialOf trial.point c with
      | .error e => .error (.failed e) { work := t.commit position trial p }
      | .ok q => .ok () { work := t.commit position (trial.absorb q) p } := by
  have hpolynomial : (t.commit position trial p).protocol.polynomialOf trial.point c =
      p.polynomialOf trial.point c :=
    Protocol.polynomialOf_modify hs (congr_arg Prod.fst hcore) c
  unfold meet
  rw [EStateM.run_bind, run_point hs]
  dsimp only
  rw [EStateM.run_bind, run_look]
  dsimp only
  rw [hpolynomial]
  cases p.polynomialOf trial.point c with
  | error e => rfl
  | ok q =>
      dsimp only
      unfold Trial.absorb
      split
      next => rfl
      next =>
        have hrenaming : Trial.renaming? { point := trial.point } q = trial.renaming? q := rfl
        rw [hrenaming]
        cases trial.renaming? q with
        | none => exact run_keep q rfl
        | some r => exact run_rename r.1 r.2.1 r.2.2 _

theorem run_meetAll (hs : p.steps[position]? = some s) (hcore : trial.point.core = s.core)
    (cs : List Condition) :
    (meetAll position s t.system.length t.factors.length cs).run { work := t.commit position trial p } =
      match Trial.meet p trial cs with
      | (trial', none) => .ok () { work := t.commit position trial' p }
      | (trial', some e) => .error (.failed e) { work := t.commit position trial' p } := by
  induction cs generalizing trial with
  | nil => rfl
  | cons c cs ih =>
      unfold meetAll Trial.meet
      rw [EStateM.run_bind, run_meet hs hcore]
      cases p.polynomialOf trial.point c with
      | error e => rfl
      | ok q => exact ih ((trial.core_absorb q).trans hcore)

theorem run_conclude (hs : p.steps[position]? = some s) :
    (conclude position s trial.hypotheses).run { work := t.commit position trial p } =
      .ok () { work := t.commit position trial.settle p } := by
  unfold conclude Trial.settle
  rw [EStateM.run_bind, run_point hs]
  dsimp only
  split
  next => rfl
  next => exact run_mark _

theorem run_settle (hs : p.steps[position]? = some s) :
    (settle position s t.system.length).run { work := t.commit position trial p } =
      .ok trial.hypotheses { work := t.commit position trial.settle p } := by
  have hadded : ((t.commit position trial p).system.drop t.system.length).map Hypothesis.polynomial =
      trial.hypotheses := by
    simp [Transformation.commit, Function.comp_def]
  unfold settle
  rw [EStateM.run_bind, run_look]
  dsimp only
  rw [hadded, EStateM.run_bind, run_conclude hs]
  rfl

section Place

variable {a : Alternative} (placement : Placement)

theorem run_look_unplaced? (hs : t.protocol.steps[position]? = some s) :
    (look fun t => t.protocol.unplaced? s a).run
        { work := t.commit position { point := { s with placement } } t.protocol } =
      .ok (t.protocol.unplaced? s a)
        { work := t.commit position { point := { s with placement } } t.protocol } := by
  rw [run_look]
  exact congr_arg₂ EStateM.Result.ok
    (Protocol.unplaced?_modify (u := { s with placement }) hs rfl a) rfl

/-- A point that needs an object without coordinates is not touched. -/
theorem run_place_of_unplaced (hs : t.protocol.steps[position]? = some s) {g : Label}
    (hg : t.protocol.unplaced? s a = some g) :
    (place position s a).run
        { work := t.commit position { point := { s with placement } } t.protocol } =
      .error (.failed (.unplaced s.label g))
        { work := t.commit position { point := { s with placement } } t.protocol } := by
  unfold place
  rw [EStateM.run_bind, run_look_unplaced? placement hs, hg]
  rfl

/-- Else a point is placed in place as it is at once, wherever it was before. -/
theorem run_place (hs : t.protocol.steps[position]? = some s)
    (hg : t.protocol.unplaced? s a = none) :
    (place position s a).run
        { work := t.commit position { point := { s with placement } } t.protocol } =
      match t.placeBy position s a with
      | (.ok added, t') => .ok added { work := t' }
      | (.error e, t') => .error (.failed e) { work := t' } := by
  unfold place Transformation.placeBy Trial.run
  rw [EStateM.run_bind, run_look_unplaced? placement hs, hg]
  dsimp only
  rcases hfresh : t.protocol.freshCoordinates t.align position s.kind.spec.freeCoordinates with
    ⟨⟨x, y⟩, p⟩
  have hsteps : p.steps[position]? = some s := by
    rw [(Protocol.freshCoordinates_eq hfresh).1, hs]
  let placed : Trial := { point := { s with placement := ⟨some x, some y, .unchanged⟩ } }
  have hstart : (t.commit position placed p).system.length = t.system.length :=
    congr_arg List.length (List.append_nil _)
  have hfactorStart : (t.commit position placed p).factors.length = t.factors.length :=
    congr_arg List.length (List.append_nil _)
  rw [EStateM.run_bind, run_assign hs rfl, hfresh]
  change (do
    let start ← look fun t => t.system.length
    let factorStart ← look fun t => t.factors.length
    meetAll position s start factorStart a
    settle position s start).run { work := t.commit position placed p } = _
  rw [EStateM.run_bind, run_look]
  dsimp only
  rw [EStateM.run_bind, run_look]
  dsimp only
  rw [hstart, hfactorStart, EStateM.run_bind, run_meetAll hsteps rfl]
  rcases Trial.meet p placed a with ⟨trial, _ | e⟩
  · dsimp only
    rw [run_settle hsteps, Trial.hypotheses_settle]
  · rfl

end Place

end Commit

end Work
end Planimetry
