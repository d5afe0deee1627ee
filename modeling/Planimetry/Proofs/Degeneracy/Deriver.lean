import Planimetry.Proofs.Degeneracy.Reading
import Planimetry.Proofs.Figure.Rejection

/-! A deriver, which compares polynomials with configurations of copies of points in registries that it uses
over and over again: whatever earlier calls left there, it finds the reading that there is. -/

namespace Planimetry

/-- What explains polynomials by the points of a protocol: with the largest number of points, and for each
configuration a registry for copies of points, with the indices from which it starts afresh. -/
structure Deriver where
  protocol : Protocol
  maxPoints : Int
  freeIndex : Int
  dependentIndex : Int
  registries : Configuration → Registry

/-- Why a call ends early: a registry does not take a step, or a configuration cannot be compared. -/
inductive DeriverError where
  | edit (interruption : Interruption)
  | comparison (error : DegeneracyError)

/-- A deriver at work on a condition. -/
structure Inquiry where
  deriver : Deriver
  condition : Nondegeneracy

/-- A call that ends early keeps what it changed until then. -/
abbrev Explaining := EStateM DeriverError Inquiry

/-- The deriver with another registry for a configuration. -/
def Deriver.put (d : Deriver) (c : Configuration) (r : Registry) : Deriver :=
  { d with registries := Function.update d.registries c r }

namespace Explaining

def clear (c : Configuration) : Explaining Unit :=
  modify fun i => { i with deriver := i.deriver.put c (.fresh i.deriver.freeIndex i.deriver.dependentIndex) }

/-- Edits the registry for a configuration. -/
def edit (c : Configuration) (e : Edit Unit) (s : Step) : Explaining Unit := do
  let i ← get
  match e.run ⟨i.deriver.registries c, s⟩ with
  | .ok _ d => set { i with deriver := i.deriver.put c d.registry }
  | .error e d => do
    set { i with deriver := i.deriver.put c d.registry }
    throw (.edit e)

def seedAll (c : Configuration) : List Step → Explaining Unit
  | [] => pure ()
  | s :: points => do
    edit c Edit.addSeed s
    seedAll c points

/-- Whether the polynomial is proportional to that of a relation between copies of points. -/
def agrees (c : Configuration) (points : List Step) (relation : Relation) : Explaining Bool := do
  clear c
  seedAll c points
  let construction := Construction.statement relation
  edit c Edit.setStatement { label := "ndg:" ++ construction.kind.name, construction }
  let i ← get
  match Transformation.statementPolynomials (i.deriver.registries c).protocol with
  | .error e => throw (.comparison (.transform e))
  | .ok qs => return qs.any i.condition.polynomial.isProportional

/-- Tries some readings, and records the first one that agrees. -/
def tryReadings (c : Configuration) (points : List Step) :
    List (Except DegeneracyError Reading) → Explaining Bool
  | [] => pure false
  | .error e :: _ => throw (.comparison e)
  | .ok r :: rest => do
    if ← agrees c points r.relation then
      modify fun i => { i with condition := i.condition.explain r }
      return true
    else tryReadings c points rest

def tryAll : List (Configuration × List Step) → Explaining Bool
  | [] => pure false
  | (c, points) :: rest => do
    if ← tryReadings c points (c.readings (points.map Step.label)) then return true else tryAll rest

/-- Explains the condition, unless its polynomial involves too many points, and answers whether it did. -/
def explain : Explaining Bool := do
  let i ← get
  let points := i.deriver.protocol.candidates i.condition.polynomial
  if i.deriver.maxPoints < points.length then return false
  else tryAll (Configuration.all.flatMap fun c => (choose c.arity points).map fun chosen => (c, chosen))

end Explaining

/-! ### Comparing in place -/

namespace Protocol

variable {p : Protocol}

/-- A statement about points that stand earlier has no fault. -/
theorem fault?_statement {relation : Relation} {before : Int}
    (h : ∀ l ∈ relation.condition.generators, ∃ t, p.get? l = some t ∧ t.index < before ∧ t.isPoint = true) :
    p.fault? (.statement relation) before = none := by
  have hexpected : ∀ role ∈ (Construction.statement relation).kind.spec.roles,
      role.2 = .exactly .point := by
    cases relation <;> simp [Construction.kind, Kind.spec, Kind.points]
  have hroles : ∀ r ∈ (Construction.statement relation).kind.spec.roles.zip
      (Construction.statement relation).arguments, p.roleFault? before r.1.1 r.1.2 r.2 = none := by
    intro r hr
    obtain ⟨hrole, hargument⟩ := List.of_mem_zip hr
    obtain ⟨t, ht, hlt, hpoint⟩ := h r.2 (relation.generators_condition ▸ hargument)
    have hcategory : t.category = .point := beq_iff_eq.1 hpoint
    unfold roleFault?
    simp only [ht, hexpected _ hrole, hcategory]
    rw [if_neg (by omega)]
    rfl
  have hdistinct : distinctFault? (.statement relation) = none := by
    cases relation <;> rfl
  unfold fault?
  rw [List.findSome?_eq_none_iff.2 hroles, hdistinct]
  rfl

theorem index_lt_of_addSeeds (points : List Step) {q : Protocol} (hq : ∀ t ∈ q.steps, t.index < q.size) :
    ∀ t ∈ (points.foldl addSeed q).steps, t.index < (points.foldl addSeed q).size := by
  induction points generalizing q with
  | nil => exact hq
  | cons s points ih =>
      refine ih fun t ht => ?_
      have hsize : (q.addSeed s).size = q.size + 1 := List.length_append
      rcases List.mem_append.1 ht with ht | ht
      · have hlt := hq t ht
        omega
      · obtain rfl := List.mem_singleton.1 ht
        change (q.size : ℤ) < _
        omega

/-- Where copies stand does not depend on the indices from which their protocol starts. -/
theorem addSeeds_indices (points : List Step) (q : Protocol) (freeIndex dependentIndex : Int) :
    points.foldl addSeed { q with freeIndex, dependentIndex } =
      { points.foldl addSeed q with freeIndex, dependentIndex } := by
  induction points generalizing q with
  | nil => rfl
  | cons s points ih => exact ih (q.addSeed s)

end Protocol

namespace Configuration

variable {points : List Step} {relation : Relation} {freeIndex dependentIndex : Int}

/-- Relations between copies of placed points are taken as statements. -/
theorem setStatement_copies {s : Step} (hs : s.construction = .statement relation)
    (hplaced : ∀ s ∈ points, s.isPlaced = true)
    (hr : ∀ l ∈ relation.condition.generators, l ∈ points.map Step.label) :
    let q := points.foldl Protocol.addSeed (.fresh freeIndex dependentIndex)
    q.setStatement s = .ok { q with statement := some { s with index := q.size } } := by
  intro q
  have hfault : q.fault? (.statement relation) q.size = none := by
    refine Protocol.fault?_statement fun l hl => ?_
    obtain ⟨hfrom, hto, -⟩ := exists_copy (.fresh freeIndex dependentIndex) points
    obtain ⟨v, hv, rfl⟩ := List.mem_map.1 (hr l hl)
    obtain ⟨u, hu, hlabel⟩ := hto v hv
    obtain ⟨t, ht⟩ := Option.isSome_iff_exists.1 (hlabel ▸ Protocol.get?_isSome hu)
    obtain ⟨hmem, -⟩ := Protocol.mem_of_get? ht
    refine ⟨t, ht, Protocol.index_lt_of_addSeeds points (List.forall_mem_nil _) t hmem, ?_⟩
    rcases hfrom t hmem with hnil | ⟨w, hw, -, hcoordinates⟩
    · cases hnil
    · have hsome := hplaced w hw
      unfold Step.isPlaced at hsome
      rw [← hcoordinates] at hsome
      by_contra hpoint
      rw [Step.coordinates?, if_neg hpoint] at hsome
      cases hsome
  unfold Protocol.setStatement
  rw [if_pos (Transformation.category_statement hs), hs, hfault]

end Configuration

/-- The condition once a search has come to an end. -/
def Nondegeneracy.told (n : Nondegeneracy) (found : Option Reading) : Nondegeneracy :=
  found.elim n n.explain

namespace Deriver

variable (d : Deriver) (c : Configuration) (r r' : Registry)

@[simp] theorem registries_put : (d.put c r).registries c = r := Function.update_self ..

@[simp] theorem put_put : (d.put c r).put c r' = d.put c r' :=
  congr_arg (fun registries => { d with registries }) (Function.update_idem ..)

@[simp] theorem put_registries : d.put c (d.registries c) = d :=
  congr_arg (fun registries => { d with registries }) (Function.update_eq_self ..)

end Deriver

namespace Explaining

variable {d : Deriver} {n : Nondegeneracy} {c : Configuration} {points : List Step} {p : Protocol}

@[simp] theorem run_clear (d : Deriver) (n : Nondegeneracy) : (clear c).run ⟨d, n⟩ =
    .ok () ⟨d.put c (.fresh d.freeIndex d.dependentIndex), n⟩ := rfl

theorem run_edit (e : Edit Unit) (s : Step) (d : Deriver) (n : Nondegeneracy) :
    (edit c e s).run ⟨d, n⟩ = match e.run ⟨d.registries c, s⟩ with
      | .ok _ draft => .ok () ⟨d.put c draft.registry, n⟩
      | .error e draft => .error (.edit e) ⟨d.put c draft.registry, n⟩ := by
  unfold edit
  rw [EStateM.run_bind, EStateM.run_get]
  dsimp only
  cases e.run ⟨d.registries c, s⟩ <;> rfl

theorem run_seedAll (points : List Step) (d : Deriver) (n : Nondegeneracy) :
    ∃ r, (seedAll c points).run ⟨d, n⟩ = .ok () ⟨d.put c r, n⟩ ∧
      r.protocol = points.foldl Protocol.addSeed (d.registries c).protocol := by
  induction points generalizing d with
  | nil => exact ⟨d.registries c, by rw [d.put_registries]; rfl, rfl⟩
  | cons s points ih =>
      let seed : Step := { s.detached with index := (d.registries c).protocol.size }
      have hseed : Edit.addSeed.run ⟨d.registries c, s⟩ =
          .ok () ⟨(d.registries c).push seed, seed⟩ := by
        simp [Edit.addSeed, seed]
      obtain ⟨r, hr, hprotocol⟩ := ih (d.put c ((d.registries c).push seed))
      rw [d.put_put] at hr
      rw [d.registries_put] at hprotocol
      refine ⟨r, ?_, hprotocol⟩
      unfold seedAll
      rw [EStateM.run_bind, run_edit, hseed]
      exact hr

/-- The comparison of a polynomial with a reading does not depend on what is in the registry. -/
theorem run_agrees (p : Protocol) {r : Reading} (hplaced : ∀ s ∈ points, s.isPlaced = true)
    (hr : ∀ l ∈ r.relation.condition.generators, l ∈ points.map Step.label) (d : Deriver)
    (n : Nondegeneracy) :
    ∃ registry, (agrees c points r.relation).run ⟨d, n⟩ =
      match Configuration.polynomials p points r with
      | .error e => .error (.comparison (.transform e)) ⟨d.put c registry, n⟩
      | .ok qs => .ok (qs.any n.polynomial.isProportional) ⟨d.put c registry, n⟩ := by
  -- once it is cleared, the registry holds the copies and nothing else
  obtain ⟨⟨copies, places⟩, hcopies, hprotocol⟩ :=
    run_seedAll (c := c) points (d.put c (.fresh d.freeIndex d.dependentIndex)) n
  rw [d.put_put] at hcopies
  rw [d.registries_put] at hprotocol
  let s : Step := { label := "ndg:" ++ (Construction.statement r.relation).kind.name,
                    construction := .statement r.relation }
  let q := points.foldl Protocol.addSeed (.fresh d.freeIndex d.dependentIndex)
  obtain rfl : copies = q := hprotocol
  let stated : Protocol := { q with statement := some { s with index := q.size } }
  have hset : q.setStatement s = .ok stated := Configuration.setStatement_copies rfl hplaced hr
  have hstated : Transformation.statementPolynomials stated = Configuration.polynomials p points r := by
    have hauxiliary : Configuration.auxiliary p points =
        { q with freeIndex := p.freeIndex, dependentIndex := p.dependentIndex } :=
      Protocol.addSeeds_indices points (.fresh d.freeIndex d.dependentIndex) _ _
    unfold Configuration.polynomials
    rw [hauxiliary]
    rfl
  refine ⟨⟨stated, places⟩, ?_⟩
  unfold agrees
  rw [EStateM.run_bind, run_clear]
  dsimp only
  rw [EStateM.run_bind, hcopies]
  dsimp only
  rw [EStateM.run_bind, run_edit, d.registries_put, Edit.run_setStatement,
    hset]
  dsimp only
  rw [EStateM.run_bind, EStateM.run_get, d.put_put]
  dsimp only
  rw [d.registries_put, hstated]
  cases Configuration.polynomials p points r <;> rfl

/-- Readings are tried as they are one after the other. -/
theorem run_tryReadings (p : Protocol) {rs : List (Except DegeneracyError Reading)}
    (hplaced : ∀ s ∈ points, s.isPlaced = true)
    (hrs : ∀ r : Reading, .ok r ∈ rs →
      ∀ l ∈ r.relation.condition.generators, l ∈ points.map Step.label)
    (d : Deriver) (n : Nondegeneracy) :
    ∃ registries, (tryReadings c points rs).run ⟨d, n⟩ =
      match Configuration.firstMatch p n.polynomial points rs with
      | .error e => .error (.comparison e) ⟨{ d with registries }, n⟩
      | .ok found => .ok found.isSome ⟨{ d with registries }, n.told found⟩ := by
  induction rs generalizing d with
  | nil => exact ⟨d.registries, rfl⟩
  | cons r rs ih =>
      cases r with
      | error e => exact ⟨d.registries, rfl⟩
      | ok r =>
          obtain ⟨registry, hagrees⟩ := run_agrees (c := c) p hplaced (hrs r List.mem_cons_self) d n
          obtain ⟨registries, hlater⟩ := ih (fun r hr => hrs r (List.mem_cons_of_mem _ hr)) (d.put c registry)
          unfold tryReadings Configuration.firstMatch
          rw [EStateM.run_bind, hagrees]
          cases Configuration.polynomials p points r with
          | error e => exact ⟨_, rfl⟩
          | ok qs =>
              simp only [Except.mapError, bind, Except.bind]
              cases qs.any n.polynomial.isProportional with
              | true => exact ⟨_, rfl⟩
              | false => exact ⟨registries, hlater⟩

theorem run_tryAll (hp : (p.steps.map Step.label).Nodup) {trials : List (Configuration × List Step)}
    (htrials : ∀ t ∈ trials, t.2 ∈ choose t.1.arity (p.candidates n.polynomial)) (d : Deriver) :
    ∃ registries, (tryAll trials).run ⟨d, n⟩ =
      match p.firstReading n.polynomial trials with
      | .error e => .error (.comparison e) ⟨{ d with registries }, n⟩
      | .ok found => .ok found.isSome ⟨{ d with registries }, n.told found⟩ := by
  induction trials generalizing d with
  | nil => exact ⟨d.registries, rfl⟩
  | cons t trials ih =>
      obtain ⟨ht, htrials⟩ := List.forall_mem_cons.1 htrials
      obtain ⟨hlength, hsub⟩ := mem_choose ht
      have hnodup : (t.2.map Step.label).Nodup :=
        (Protocol.nodup_candidates hp n.polynomial).sublist (hsub.map _)
      have hreadings : ∀ r : Reading, .ok r ∈ t.1.readings (t.2.map Step.label) →
          ∀ l ∈ r.relation.condition.generators, l ∈ t.2.map Step.label := by
        intro r hr l hl
        obtain ⟨hrelation, hperm⟩ :=
          Configuration.relation?_of_mem_readings (by rwa [List.length_map]) hnodup hr
        exact hperm.subset (Configuration.generators_subset_of_relation? hrelation hl)
      obtain ⟨registries, htry⟩ := run_tryReadings (c := t.1) p
        (fun s hs => Protocol.isPlaced_of_mem_candidates (hsub.subset hs)) hreadings d n
      obtain ⟨registries', hlater⟩ := ih htrials { d with registries }
      unfold tryAll Protocol.firstReading Configuration.match?
      rw [EStateM.run_bind, htry]
      cases Configuration.firstMatch p n.polynomial t.2 (t.1.readings (t.2.map Step.label)) with
      | error e => exact ⟨registries, rfl⟩
      | ok found =>
          cases found with
          | some r => exact ⟨registries, rfl⟩
          | none => exact ⟨registries', hlater⟩

/-- The deriver finds the reading that there is, and changes nothing but its registries. -/
theorem run_explain (d : Deriver) (hd : (d.protocol.steps.map Step.label).Nodup) (n : Nondegeneracy) :
    ∃ registries, explain.run ⟨d, n⟩ =
      match d.protocol.reading? d.maxPoints n.polynomial with
      | .error e => .error (.comparison e) ⟨{ d with registries }, n⟩
      | .ok found => .ok found.isSome ⟨{ d with registries }, n.told found⟩ := by
  unfold explain Protocol.reading?
  rw [EStateM.run_bind, EStateM.run_get]
  dsimp only
  split
  next => exact ⟨d.registries, rfl⟩
  next => exact run_tryAll hd (Protocol.mem_choose_of_mem_trials d.protocol n.polynomial) d

end Explaining

namespace Deriver

/-- What a call to explain a condition comes to: an answer, which is yes if and only if there are few enough
points and a configuration of them describes the polynomial. -/
structure Answers (d : Deriver) (n : Nondegeneracy) (told : Bool) (after : Inquiry) : Prop where
  protocol : after.deriver.protocol = d.protocol
  deriver : ∃ registries, after.deriver = { d with registries }
  reading : ∃ found, d.protocol.reading? d.maxPoints n.polynomial = .ok found ∧ told = found.isSome ∧
    after.condition = n.told found
  told_iff : told = true ↔ (d.protocol.candidates n.polynomial).length ≤ d.maxPoints ∧
    ∃ c labels, d.protocol.Describes n.polynomial c labels
  explained : told = true → ∃ c r, d.protocol.Describes n.polynomial c r.points ∧
    after.condition = n.explain r ∧
    (n.explanations = [] → after.condition.explanations = [(r.points, r.text)])
  unexplained : told = false → after.condition = n

/-- A call to explain a condition finds a configuration of points, and records it, if and only if one describes
the polynomial, whatever earlier calls left in the registries. -/
theorem answers_explain {p : Protocol} (hp : Appended p) (hplain : p.IsPlain) {best align : Bool}
    {t : Transformation} (hrun : Transformation.run { protocol := p, best, align } = (none, t))
    (d : Deriver) (hd : d.protocol = t.protocol) (n : Nondegeneracy) :
    ∃ told after, Explaining.explain.run ⟨d, n⟩ = .ok told after ∧ d.Answers n told after := by
  obtain ⟨t', hrun', hbare, -⟩ := Transformation.exists_run hp best align
  obtain rfl : t' = t := congr_arg Prod.snd (hrun'.symm.trans hrun)
  have hlabels : (d.protocol.steps.map Step.label).Nodup := by
    rw [hd, Protocol.map_label_of_core (Protocol.map_core_of_bare hbare)]
    exact hp.ordered.labels
  have hplain' : d.protocol.IsPlain := by
    intro s hs
    obtain ⟨hmem, hpoint⟩ := List.mem_filter.1 (hd ▸ hs)
    obtain ⟨u, hu, heq⟩ := Protocol.exists_bare_eq hbare.symm hmem
    have hcore := Step.core_of_bare heq
    have hlabel : u.label = s.label := congr_arg Prod.fst hcore
    have hconstruction : u.construction = s.construction := congr_arg (fun c => c.2.1) hcore
    have hpoint' : u.isPoint = true := by
      unfold Step.isPoint Step.category at hpoint ⊢
      rwa [hconstruction]
    exact hlabel ▸ hplain u (List.mem_filter.2 ⟨hu, hpoint'⟩)
  obtain ⟨found, hfound, htold, hdescribes⟩ :=
    d.protocol.exists_reading? hlabels hplain' d.maxPoints n.polynomial
  obtain ⟨registries, hexplain⟩ := Explaining.run_explain d hlabels n
  rw [hfound] at hexplain
  refine ⟨found.isSome, ⟨{ d with registries }, n.told found⟩, hexplain,
    { protocol := rfl
      deriver := ⟨registries, rfl⟩
      reading := ⟨found, hfound, rfl, rfl⟩
      told_iff := htold
      explained := ?_
      unexplained := ?_ }⟩
  · intro h
    obtain ⟨r, rfl⟩ := Option.isSome_iff_exists.1 h
    obtain ⟨c, hc⟩ := hdescribes r rfl
    refine ⟨c, r, hc, rfl, fun hnone => ?_⟩
    change Listing.put (· == ·) r.points r.text n.explanations = _
    rw [hnone]
    rfl
  · intro h
    cases found with
    | none => rfl
    | some r => cases h

/-- A triangle. -/
def triangle : Protocol :=
  .figure [("A", .point .free), ("B", .point .free), ("C", .point .free)]

/-- A multiple of twice the area of the triangle. -/
def triangleArea : Polynomial :=
  let v (i : Int) : Polynomial := .ofVariable (.free i)
  ((v 1 - v 5) * (v 4 - v 6) - (v 2 - v 6) * (v 3 - v 5)).scale (-2)

/-- A deriver whose registries are in use. -/
def triangleDeriver : Deriver where
  protocol := (Transformation.run { protocol := triangle, best := true, align := false }).2.protocol
  maxPoints := 4
  freeIndex := 1
  dependentIndex := 1
  registries := fun _ => { protocol := triangle, places := [("A", 7)] }

/-- Among several configurations that have three points, the one that the area vanishes for is found. -/
theorem answers_explain_triangle : Appended triangle ∧ triangle.IsPlain ∧
    ∃ after, Explaining.explain.run ⟨triangleDeriver, ⟨triangleArea, []⟩⟩ = .ok true after ∧
      triangleDeriver.Answers ⟨triangleArea, []⟩ true after := by
  have happended : Appended triangle := appended_figure _
  have hplain : triangle.IsPlain := by
    unfold Protocol.IsPlain
    decide +kernel
  obtain ⟨t, hrun, -⟩ := Transformation.exists_run happended true false
  have hprotocol : triangleDeriver.protocol = t.protocol := by
    rw [triangleDeriver, hrun]
  obtain ⟨told, after, hexplain, hanswers⟩ :=
    answers_explain happended hplain hrun triangleDeriver hprotocol ⟨triangleArea, []⟩
  have hread : (triangleDeriver.protocol.reading? 4 triangleArea).toOption.map Option.isSome =
      some true := by
    decide +kernel
  obtain ⟨found, hfound, rfl, -⟩ := hanswers.reading
  have hsome : found.isSome = true := by
    change triangleDeriver.protocol.reading? 4 triangleArea = _ at hfound
    rw [hfound] at hread
    exact Option.some.inj hread
  rw [hsome] at hexplain hanswers
  exact ⟨happended, hplain, after, hexplain, hanswers⟩

end Deriver

end Planimetry
