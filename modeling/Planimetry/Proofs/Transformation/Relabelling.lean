import Planimetry.Proofs.Figure.Relabelling
import Planimetry.Transformation.Basic

/-! The pass under other names: points get the same coordinates, and the conditions the same polynomials. -/

namespace Planimetry

/-! ### Renaming -/

def Condition.relabel (f : Label → Label) (c : Condition) : Condition :=
  { c with roles := c.roles.map fun r => (r.1, f r.2) }

def SetError.relabel (f : Label → Label) : SetError → SetError
  | .absent l => .absent (f l)
  | .notASet l => .notASet (f l)

/-- Renames the objects of an error by one map, and the step at which it comes up by another. -/
def TransformError.relabel (f g : Label → Label) : TransformError → TransformError
  | .statement l => .statement (g l)
  | .noGenerators l => .noGenerators (g l)
  | .unplaced l generator => .unplaced (g l) (f generator)
  | .missingRoles l missing => .missingRoles (g l) missing
  | .set e => .set (e.relabel f)

def Hypothesis.relabel (f : Label → Label) (h : Hypothesis) : Hypothesis :=
  { h with source := f h.source }

def Trial.relabel (f : Label → Label) (t : Trial) : Trial := { t with point := t.point.relabel f }

def Transformation.relabel (f g : Label → Label) (t : Transformation) : Transformation :=
  { t with
    protocol := t.protocol.relabel f g
    system := t.system.map (Hypothesis.relabel f)
    factors := t.factors.map (Hypothesis.relabel f) }

/-! ### Conditions -/

theorem pairs_map {α β : Type} (f : α → β) (xs : List α) :
    pairs (xs.map f) = (pairs xs).map (Prod.map f f) := by
  induction xs with
  | nil => rfl
  | cons x xs ih => simp [pairs, ih, Function.comp_def]

theorem triples_map {α β : Type} (f : α → β) (xs : List α) :
    triples (xs.map f) = (triples xs).map (Prod.map f (Prod.map f f)) := by
  induction xs with
  | nil => rfl
  | cons x xs ih => simp [triples, ih, pairs_map, Function.comp_def]

theorem Condition.generators_relabel (f : Label → Label) (c : Condition) :
    (c.relabel f).generators = c.generators.map f := by
  simp [Condition.generators, Condition.relabel, Function.comp_def]

theorem Relation.condition_relabel (f : Label → Label) (r : Relation) :
    (r.relabel f).condition = r.condition.relabel f := by
  cases r <;> rfl

namespace Protocol

variable {f : Label → Label} (hf : f.Injective) (g : Label → Label) (p : Protocol)

section Alternatives

include hf

theorem membership_relabel (s : Step) (locus : Locus) (point : Label) (before : Int) :
    (p.relabel f g).membership (s.relabel f) (locus.relabel f) (f point) before =
      (p.membership s locus point before).map (Condition.relabel f) := by
  have hindex : (s.relabel f).index = s.index := rfl
  unfold membership
  rw [knownMembers_relabel hf, hindex]
  cases locus with
  | parallel q line | perpendicular q line =>
      simp only [Locus.relabel, get?_relabel hf]
      cases p.get? line with
      | none => rfl
      | some base =>
          simp [knownMembers_relabel hf, pairs_map, List.flatMap_map, List.map_flatMap,
            Function.comp_def, Condition.relabel]
  | _ => simp [Locus.relabel, Condition.relabel, pairs_map, triples_map, Function.comp_def]

theorem conditionsOn_relabel (set point : Label) (before : Int) :
    (p.relabel f g).conditionsOn (f set) (f point) before =
      ((p.conditionsOn set point before).map (List.map (Condition.relabel f))).mapError
        (SetError.relabel f) := by
  unfold conditionsOn
  rw [get?_relabel hf]
  cases p.get? set with
  | none => rfl
  | some s =>
      have hconstruction : (s.relabel f).construction = s.construction.relabel f := rfl
      simp only [Option.map_some, hconstruction]
      cases s.construction with
      | set locus => exact congr_arg Except.ok (membership_relabel hf g p s locus point before)
      | _ => rfl

theorem pointAlternatives_relabel (own : Label) (before : Int) (rule : PointRule) :
    (p.relabel f g).pointAlternatives (f own) before (rule.relabel f) =
      ((p.pointAlternatives own before rule).map (List.map (List.map (Condition.relabel f)))).mapError
        (SetError.relabel f) := by
  cases rule with
  | onLine l | onCircle l =>
      simp only [PointRule.relabel, pointAlternatives, conditionsOn_relabel hf]
      cases p.conditionsOn l own before with
      | error e => rfl
      | ok cs => simp [Except.map, Except.mapError, bind, Except.bind, pure, Except.pure,
          Function.comp_def]
  | intersection l m =>
      simp only [PointRule.relabel, pointAlternatives, conditionsOn_relabel hf]
      cases p.conditionsOn l own before with
      | error e => rfl
      | ok cs =>
          cases p.conditionsOn m own before with
          | error e => rfl
          | ok ds => simp [Except.map, Except.mapError, bind, Except.bind, pure, Except.pure,
              List.flatMap_map, List.map_flatMap, Function.comp_def]
  | _ => rfl

/-- There are the same ways to meet the conditions of a step. -/
theorem alternatives_relabel (s : Step) :
    (p.relabel f g).alternatives (s.relabel f) =
      ((p.alternatives s).map (List.map (List.map (Condition.relabel f)))).mapError
        (SetError.relabel f) := by
  have hconstruction : (s.relabel f).construction = s.construction.relabel f := rfl
  unfold alternatives
  rw [hconstruction]
  cases s.construction with
  | point rule => exact pointAlternatives_relabel hf g p s.label s.index rule
  | set locus => rfl
  | statement relation =>
      exact congr_arg (fun c => Except.ok [[c]]) (relation.condition_relabel f)

end Alternatives

/-! ### Polynomials -/

section Polynomials

variable {s : Step} {c : Condition}

include hf

/-- An object has the same coordinates, if it and the step have the same label where they had one. -/
theorem coordinatesFor_relabel {k : Label → Label} {l : Label} (h : f l = k s.label ↔ l = s.label) :
    (p.relabel f g).coordinatesFor { s.relabel f with label := k s.label } (f l) =
      p.coordinatesFor s l := by
  unfold coordinatesFor
  simp only [h]
  split
  next => exact s.coordinates?_relabel f
  next =>
    rw [get?_relabel hf, Option.bind_map]
    exact Option.bind_congr fun t _ => t.coordinates?_relabel f

theorem polynomialOf_relabel {k : Label → Label}
    (h : ∀ l ∈ c.generators, f l = k s.label ↔ l = s.label) :
    (p.relabel f g).polynomialOf { s.relabel f with label := k s.label } (c.relabel f) =
      (p.polynomialOf s c).mapError (TransformError.relabel f k) := by
  have hfind : (c.relabel f).generators.find? (fun l =>
      ((p.relabel f g).coordinatesFor { s.relabel f with label := k s.label } l).isNone) =
        (c.generators.find? fun l => (p.coordinatesFor s l).isNone).map f := by
    rw [c.generators_relabel, List.find?_map]
    refine congr_arg _ (List.find?_congr fun l hl => ?_)
    rw [Function.comp_apply, coordinatesFor_relabel hf g p (h l hl)]
  have hroles : (fun r => ((c.relabel f).roles.lookup r).bind
      ((p.relabel f g).coordinatesFor { s.relabel f with label := k s.label })) =
        fun r => (c.roles.lookup r).bind (p.coordinatesFor s) := by
    funext r
    unfold Condition.relabel
    rw [lookup_map_snd, Option.bind_map]
    refine Option.bind_congr fun l hl => ?_
    obtain ⟨before, after, hsplit, -⟩ := List.lookup_eq_some_iff.1 hl
    exact coordinatesFor_relabel hf g p (h l (by simp [Condition.generators, hsplit]))
  unfold polynomialOf
  rw [hfind, hroles]
  cases c.generators.find? fun l => (p.coordinatesFor s l).isNone with
  | some l => rfl
  | none =>
      have htemplate : (c.relabel f).template = c.template := rfl
      rw [htemplate]
      cases Template.instantiate (fun r => (c.roles.lookup r).bind (p.coordinatesFor s)) c.template with
      | error e => rfl
      | ok q => rfl

theorem unplaced?_relabel {k : Label → Label} {cs : List Condition}
    (h : ∀ c ∈ cs, ∀ l ∈ c.generators, f l = k s.label ↔ l = s.label) :
    (p.relabel f g).unplaced? { s.relabel f with label := k s.label } (cs.map (Condition.relabel f)) =
      (p.unplaced? s cs).map f := by
  have hgenerators : (cs.map (Condition.relabel f)).flatMap Condition.generators =
      (cs.flatMap Condition.generators).map f := by
    simp [List.flatMap_map, List.map_flatMap, Condition.generators_relabel]
  unfold unplaced?
  rw [hgenerators, List.find?_map]
  refine congr_arg _ (List.find?_congr fun l hl => ?_)
  obtain ⟨c, hc, hl⟩ := List.mem_flatMap.1 hl
  rw [Function.comp_apply, coordinatesFor_relabel hf g p (h c hc l hl)]
  simp only [ne_eq, h c hc l hl]

omit hf in
theorem alignedY_relabel (f : Label → Label) (align : Bool) (position : ℕ) :
    (p.relabel f g).alignedY align position = p.alignedY align position := by
  have hfree : ((p.relabel f g).steps.zipIdx.filter fun s => s.1.kind == .freePoint) =
      (p.steps.zipIdx.filter fun s => s.1.kind == .freePoint).map (Prod.map (Step.relabel f) id) := by
    unfold relabel
    rw [List.zipIdx_map, List.filter_map]
    simp [Function.comp_def]
  unfold alignedY
  rw [hfree]
  generalize (p.steps.zipIdx.filter fun s => s.1.kind == .freePoint) = free
  rcases free with _ | ⟨first, _ | ⟨second, rest⟩⟩ <;> rfl

omit hf in
theorem freshCoordinates_relabel (f : Label → Label) (align : Bool) (position freeCoordinates : ℕ) :
    (p.relabel f g).freshCoordinates align position freeCoordinates =
      ((p.freshCoordinates align position freeCoordinates).1,
        (p.freshCoordinates align position freeCoordinates).2.relabel f g) := by
  unfold freshCoordinates
  split
  next => rfl
  next => rfl
  next =>
    rw [alignedY_relabel]
    cases p.alignedY align position <;> rfl

end Polynomials

end Protocol

namespace Trial

variable {f : Label → Label} (hf : f.Injective) (g : Label → Label) (p : Protocol)

theorem absorb_relabel (t : Trial) (q : Polynomial) :
    (t.relabel f).absorb q = (t.absorb q).relabel f := by
  have hrenaming : (t.relabel f).renaming? q = t.renaming? q := rfl
  unfold absorb
  rw [hrenaming]
  split
  next => rfl
  next =>
    split
    next axis own target _ => cases axis <;> rfl
    next => rfl

include hf

theorem meet_relabel (t : Trial) (cs : List Condition) :
    meet (p.relabel f g) (t.relabel f) (cs.map (Condition.relabel f)) =
      ((meet p t cs).1.relabel f, (meet p t cs).2.map (TransformError.relabel f f)) := by
  induction cs generalizing t with
  | nil => rfl
  | cons c cs ih =>
      have hpolynomial := Protocol.polynomialOf_relabel (s := t.point) (c := c) (k := f) hf g p
        fun l _ => hf.eq_iff
      have hpoint : (t.relabel f).point = { t.point.relabel f with label := f t.point.label } := rfl
      rw [List.map_cons]
      unfold meet
      rw [hpoint, hpolynomial]
      cases p.polynomialOf t.point c with
      | error e => rfl
      | ok q => exact (congr_arg (fun t => meet (p.relabel f g) t _) (absorb_relabel t q)).trans (ih _)

/-- A renamed point is placed as the point is. -/
theorem run_relabel (align : Bool) (position : ℕ) (s : Step) (alternative : Alternative) :
    run (p.relabel f g) align position (s.relabel f) (alternative.map (Condition.relabel f)) =
      ((run p align position s alternative).1.relabel f,
        (run p align position s alternative).2.1.relabel f g,
        (run p align position s alternative).2.2.map (TransformError.relabel f f)) := by
  unfold run
  rw [Step.kind_relabel, Protocol.freshCoordinates_relabel]
  generalize p.freshCoordinates align position s.kind.spec.freeCoordinates = fresh
  have hmeet : meet (fresh.2.relabel f g)
      { point := { s.relabel f with placement := ⟨some fresh.1.1, some fresh.1.2, .unchanged⟩ } }
      (alternative.map (Condition.relabel f)) = _ := meet_relabel hf g fresh.2
        { point := { s with placement := ⟨some fresh.1.1, some fresh.1.2, .unchanged⟩ } } alternative
  dsimp only at hmeet ⊢
  rw [hmeet]
  generalize meet fresh.2 _ alternative = result
  obtain ⟨t, _ | e⟩ := result
  · have hsettle : (t.relabel f).settle = t.settle.relabel f := by
      unfold settle
      split
      next h => exact (if_pos h).symm ▸ rfl
      next h => exact (if_neg h).symm ▸ rfl
    exact congr_arg (fun t => (t, fresh.2.relabel f g, none)) hsettle
  · rfl

end Trial

namespace Transformation

variable {f : Label → Label} (hf : f.Injective) (g : Label → Label) (t : Transformation)

theorem commit_relabel (position : ℕ) (trial : Trial) (p : Protocol) :
    (t.relabel f g).commit position (trial.relabel f) (p.relabel f g) =
      (t.commit position trial p).relabel f g := by
  have hmodify : (p.relabel f g).modify position (fun _ => trial.point.relabel f) =
      (p.modify position fun _ => trial.point).relabel f g :=
    Protocol.modify_relabel g p position fun _ _ => rfl
  unfold commit
  simp only [relabel, List.map_append, List.map_map]
  exact congr_arg (fun q => ({ t with
    protocol := q
    system := _
    factors := _ } : Transformation)) hmodify

include hf

theorem placeBy_relabel (position : ℕ) (s : Step) (alternative : Alternative) :
    (t.relabel f g).placeBy position (s.relabel f) (alternative.map (Condition.relabel f)) =
      ((t.placeBy position s alternative).1.mapError (TransformError.relabel f f),
        (t.placeBy position s alternative).2.relabel f g) := by
  have hunplaced : (t.relabel f g).protocol.unplaced? (s.relabel f)
      (alternative.map (Condition.relabel f)) = (t.protocol.unplaced? s alternative).map f :=
    Protocol.unplaced?_relabel (k := f) hf g t.protocol fun _ _ _ _ => hf.eq_iff
  have hrun : Trial.run (t.relabel f g).protocol (t.relabel f g).align position (s.relabel f)
      (alternative.map (Condition.relabel f)) = _ :=
    Trial.run_relabel hf g t.protocol t.align position s alternative
  unfold placeBy
  rw [hunplaced, hrun]
  cases t.protocol.unplaced? s alternative with
  | some l => rfl
  | none =>
      refine Prod.ext ?_ (commit_relabel g t position _ _)
      dsimp only [Option.map_none]
      cases (Trial.run t.protocol t.align position s alternative).2.2 <;> rfl

theorem defaultAlternative_relabel (p : Protocol) (s : Step) :
    defaultAlternative (p.relabel f g) (s.relabel f) =
      ((defaultAlternative p s).map (List.map (Condition.relabel f))).mapError
        (TransformError.relabel f f) := by
  unfold defaultAlternative
  rw [Protocol.alternatives_relabel hf, Step.kind_relabel]
  rcases p.alternatives s with e | _ | ⟨first, rest⟩
  · rfl
  · simp only [Except.map, Except.mapError, bind, Except.bind, List.map_nil]
    split <;> rfl
  · rfl

theorem transform_relabel (position : ℕ) (alternative : Option Alternative) :
    (t.relabel f g).transform position (alternative.map (List.map (Condition.relabel f))) =
      ((t.transform position alternative).1.mapError (TransformError.relabel f f),
        (t.transform position alternative).2.relabel f g) := by
  have hstep : (t.relabel f g).protocol.steps[position]? =
      (t.protocol.steps[position]?).map (Step.relabel f) := List.getElem?_map
  unfold transform
  rw [hstep]
  cases t.protocol.steps[position]? with
  | none => rfl
  | some s =>
      have hconstruction : (s.relabel f).construction = s.construction.relabel f := rfl
      simp only [Option.map_some, hconstruction]
      cases s.construction with
      | set locus => rfl
      | statement relation => rfl
      | point rule =>
          cases alternative with
          | some a => exact placeBy_relabel hf g t position s a
          | none =>
              have hdefault := defaultAlternative_relabel hf g t.protocol s
              have hprotocol : (t.relabel f g).protocol = t.protocol.relabel f g := rfl
              simp only [Construction.relabel, Option.map_none, hprotocol, hdefault]
              cases defaultAlternative t.protocol s with
              | error e => rfl
              | ok a => exact placeBy_relabel hf g t position s a

theorem renames_relabel (position : ℕ) (s : Step) (alternative : Alternative) :
    (t.relabel f g).renames position (s.relabel f) (alternative.map (Condition.relabel f)) =
      t.renames position s alternative := by
  have hunplaced : (t.relabel f g).protocol.unplaced? (s.relabel f)
      (alternative.map (Condition.relabel f)) = (t.protocol.unplaced? s alternative).map f :=
    Protocol.unplaced?_relabel (k := f) hf g t.protocol fun _ _ _ _ => hf.eq_iff
  have hrun : Trial.run (t.relabel f g).protocol (t.relabel f g).align position (s.relabel f)
      (alternative.map (Condition.relabel f)) = _ :=
    Trial.run_relabel hf g t.protocol t.align position s alternative
  unfold renames
  rw [hunplaced, hrun]
  cases t.protocol.unplaced? s alternative with
  | some l => rfl
  | none =>
      obtain ⟨trial, p, _ | e⟩ := Trial.run t.protocol t.align position s alternative <;> rfl

theorem choice_relabel (position : ℕ) (s : Step) :
    (t.relabel f g).choice position (s.relabel f) =
      ((t.choice position s).map (Option.map (List.map (Condition.relabel f)))).mapError
        (TransformError.relabel f f) := by
  have halternatives := Protocol.alternatives_relabel hf g t.protocol s
  have hprotocol : (t.relabel f g).protocol = t.protocol.relabel f g := rfl
  have hflag : (t.relabel f g).best = t.best := rfl
  unfold choice
  rw [Step.isPoint_relabel, hprotocol, halternatives, hflag]
  split
  next =>
    rcases t.protocol.alternatives s with e | ways
    · rfl
    · have hbest : (t.relabel f g).best? position (s.relabel f)
          (ways.map (List.map (Condition.relabel f))) = t.best? position s ways := by
        unfold best?
        rw [List.findIdx?_map]
        exact congr_arg (List.findIdx? · ways) (funext fun a => renames_relabel hf g t position s a)
      simp only [Except.map, Except.mapError, bind, Except.bind, List.length_map, hbest]
      split
      next => rfl
      next => simp only [List.getElem?_map, pure, Except.pure]
  next => rfl

theorem advance_relabel (position : ℕ) :
    (t.relabel f g).advance position =
      ((t.advance position).1.mapError (TransformError.relabel f f),
        (t.advance position).2.relabel f g) := by
  have hstep : (t.relabel f g).protocol.steps[position]? =
      (t.protocol.steps[position]?).map (Step.relabel f) := List.getElem?_map
  unfold advance
  rw [hstep]
  cases t.protocol.steps[position]? with
  | none => rfl
  | some s =>
      simp only [Option.map_some, Step.isPlaced_relabel, choice_relabel hf]
      split
      next => rfl
      next =>
        cases t.choice position s with
        | error e => rfl
        | ok a => exact transform_relabel hf g t position a

theorem advanceAll_relabel (positions : List ℕ) :
    (t.relabel f g).advanceAll positions =
      ((t.advanceAll positions).1.map (TransformError.relabel f f),
        (t.advanceAll positions).2.relabel f g) := by
  induction positions generalizing t with
  | nil => rfl
  | cons i is ih =>
      unfold advanceAll
      rw [advance_relabel hf]
      rcases t.advance i with ⟨e | qs, t'⟩
      · rfl
      · exact ih t'

/-- The pass does the same under other names. -/
theorem run_relabel :
    (t.relabel f g).run =
      (t.run.1.map (TransformError.relabel f f), t.run.2.relabel f g) := by
  have hsize : (t.relabel f g).protocol.size = t.protocol.size := t.protocol.size_relabel f g
  unfold run
  rw [hsize]
  exact advanceAll_relabel hf g t _

omit t in
/-- A statement has the same polynomials, if it has the label of an object where it had one. -/
theorem statementPolynomials_relabel (p : Protocol)
    (h : ∀ s ∈ p.statement, ∃ relation, s.construction = .statement relation ∧
      ∀ l ∈ relation.condition.generators, f l = g s.label ↔ l = s.label) :
    statementPolynomials (p.relabel f g) =
      (statementPolynomials p).mapError (TransformError.relabel f g) := by
  cases hs : p.statement with
  | none => simp [statementPolynomials, Protocol.relabel, hs, pure, Except.pure, Except.mapError]
  | some s =>
      obtain ⟨relation, hrelation, hlabels⟩ := h s hs
      have hways : p.alternatives s = .ok [[relation.condition]] :=
        Protocol.alternatives_of_statement hrelation
      have hways' : (p.relabel f g).alternatives { s.relabel f with label := g s.label } =
          .ok [[relation.condition.relabel f]] := by
        unfold Protocol.alternatives Step.relabel
        simp only [hrelation, Construction.relabel, Relation.condition_relabel]
      have hstatement : (p.relabel f g).statement = some { s.relabel f with label := g s.label } := by
        unfold Protocol.relabel
        rw [hs, Option.map_some]
      have hall : ∀ c ∈ [relation.condition], ∀ l ∈ c.generators, f l = g s.label ↔ l = s.label :=
        List.forall_mem_singleton.2 hlabels
      have hunplaced := Protocol.unplaced?_relabel hf g p hall
      rw [List.map_singleton] at hunplaced
      have hpolynomial := Protocol.polynomialOf_relabel hf g p hlabels
      unfold statementPolynomials
      simp only [hs, hstatement, hways, hways', Except.toOption, Option.getD_some, List.head?_cons,
        hunplaced, List.mapM_cons, List.mapM_nil, hpolynomial]
      cases p.unplaced? s [relation.condition] with
      | some l => rfl
      | none => cases p.polynomialOf s relation.condition <;> rfl

end Transformation

end Planimetry
