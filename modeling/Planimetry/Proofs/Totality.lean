import Planimetry.Proofs.Area.Failure
import Planimetry.Proofs.Soundness

/-! Proofs by the area method come to a result, apart from two kinds of failure: a denominator is zero wherever
the definitions in use hold, or a point has the label under which polynomials are compared with a relation. -/

namespace Planimetry

theorem mem_choose {α : Type} {n : ℕ} {as xs : List α} (h : xs ∈ choose n as) :
    xs.length = n ∧ xs.Sublist as := by
  induction as generalizing n xs with
  | nil =>
      cases n with
      | zero =>
          obtain rfl := List.mem_singleton.1 h
          exact ⟨rfl, .slnil⟩
      | succ n => cases h
  | cons a as ih =>
      cases n with
      | zero =>
          obtain rfl := List.mem_singleton.1 h
          exact ⟨rfl, List.nil_sublist _⟩
      | succ n =>
          rcases List.mem_append.1 h with h | h
          · obtain ⟨ys, hys, rfl⟩ := List.mem_map.1 h
            obtain ⟨hlength, hsub⟩ := ih hys
            exact ⟨congr_arg Nat.succ hlength, hsub.cons_cons a⟩
          · obtain ⟨hlength, hsub⟩ := ih h
            exact ⟨hlength, hsub.cons a⟩

theorem Relation.generators_condition (r : Relation) :
    r.condition.generators = (Construction.statement r).arguments := by
  cases r <;> rfl

/-- Each role of the condition for a relation is played by one of its points. -/
theorem Relation.exists_lookup (r : Relation) {role : Label} (h : role ∈ r.condition.template.roles) :
    ∃ l ∈ r.condition.generators, r.condition.roles.lookup role = some l := by
  obtain ⟨e, he, rfl⟩ := List.mem_map.1 (Area.mem_roles_condition r role h)
  obtain ⟨l, hl⟩ := Option.isSome_iff_exists.1
    (List.lookup_isSome_iff.2 ⟨e, he, beq_self_eq_true e.1⟩)
  obtain ⟨before, after, hsplit, -⟩ := List.lookup_eq_some_iff.1 hl
  exact ⟨l, by simp [Condition.generators, hsplit], hl⟩

/-- The polynomials of a statement fail at a point without coordinates only. -/
theorem Transformation.statementPolynomials_eq_error {p : Protocol} {s : Step} {relation : Relation}
    {e : TransformError} (hs : p.statement = some s) (hrelation : s.construction = .statement relation)
    (h : statementPolynomials p = .error e) :
    ∃ l ∈ relation.condition.generators, e = .unplaced s.label l ∧ p.coordinatesFor s l = none := by
  unfold statementPolynomials at h
  simp only [hs, Protocol.alternatives_of_statement hrelation, Except.toOption, Option.getD_some, List.head?_cons] at h
  split at h
  next g hg =>
    cases h
    have hnone := List.find?_some hg
    rw [Bool.and_eq_true, Option.isNone_iff_eq_none] at hnone
    refine ⟨g, ?_, rfl, hnone.2⟩
    simpa using List.mem_of_find?_eq_some hg
  next =>
    rw [List.mapM_cons, List.mapM_nil] at h
    obtain hq | ⟨q, -, h⟩ := bind_eq_error h
    · unfold Protocol.polynomialOf at hq
      split at hq
      next g hg =>
        cases hq
        have hnone := List.find?_some hg
        exact ⟨g, List.mem_of_find?_eq_some hg, rfl, Option.isNone_iff_eq_none.1 hnone⟩
      next hall =>
        have hsome : ∀ r ∈ relation.condition.template.roles,
            ((relation.condition.roles.lookup r).bind (p.coordinatesFor s)).isSome = true := by
          intro r hr
          obtain ⟨l, hl, hlookup⟩ := relation.exists_lookup hr
          rw [hlookup, Option.bind_some]
          simpa [Option.isSome_iff_ne_none] using List.find?_eq_none.1 hall l hl
        rw [Template.instantiate_of_isSome hsome] at hq
        cases hq
    · cases h

namespace Configuration

variable {c : Configuration} {labels : List Label} {p q : Protocol} {points : List Step}

theorem vertexReadings_eq {a b d : Label} (h : [a, b, d].Nodup)
    (reading : Label → Label → Label → Reading) :
    vertexReadings [a, b, d] reading =
      [.ok (reading a b d), .ok (reading b a d), .ok (reading d a b)] := by
  simp only [List.nodup_cons, List.mem_cons, List.not_mem_nil, or_false, not_or] at h
  obtain ⟨⟨hab, had⟩, hbd, -⟩ := h
  simp [vertexReadings, hab, had, hbd, Ne.symm hab, Ne.symm had, Ne.symm hbd]

/-- Different points, as many as the configuration has, can be read as such, and the relation is one of
these points. -/
theorem exists_reading (hlength : labels.length = c.arity) (hnodup : labels.Nodup) :
    ∀ r ∈ c.readings labels, ∃ reading, r = .ok reading ∧
      ∀ l ∈ (Construction.statement reading.relation).arguments, l ∈ labels := by
  cases c with
  | identicalPoints =>
      obtain ⟨a, b, rfl⟩ := List.length_eq_two.1 hlength
      simp [readings, Construction.arguments]
  | collinearPoints =>
      obtain ⟨a, b, d, rfl⟩ := List.length_eq_three.1 hlength
      simp [readings, Construction.arguments]
  | perpendicularRays =>
      obtain ⟨a, b, d, rfl⟩ := List.length_eq_three.1 hlength
      simp [readings, vertexReadings_eq hnodup, perpendicularReading, Construction.arguments]
  | equalSegments =>
      obtain ⟨a, b, d, rfl⟩ := List.length_eq_three.1 hlength
      simp [readings, vertexReadings_eq hnodup, Construction.arguments]
  | parallelLines =>
      obtain ⟨a, b, d, e, rfl⟩ := List.length_eq_four.1 hlength
      simp [readings, pairReadings, Construction.arguments]
  | perpendicularLines =>
      obtain ⟨a, b, d, e, rfl⟩ := List.length_eq_four.1 hlength
      simp [readings, pairReadings, perpendicularReading, Construction.arguments]
  | concyclicPoints =>
      obtain ⟨a, b, d, e, rfl⟩ := List.length_eq_four.1 hlength
      simp [readings, Construction.arguments]

/-- The protocol for some points holds copies of these. -/
theorem exists_copy (q : Protocol) (points : List Step) :
    (∀ t ∈ (points.foldl Protocol.addSeed q).steps, t ∈ q.steps ∨
      ∃ s ∈ points, t.label = s.label ∧ t.coordinates? = s.coordinates?) ∧
    (∀ s ∈ points, ∃ t ∈ (points.foldl Protocol.addSeed q).steps, t.label = s.label) ∧
    q.steps ⊆ (points.foldl Protocol.addSeed q).steps := by
  induction points generalizing q with
  | nil => exact ⟨fun t ht => .inl ht, List.forall_mem_nil _, List.Subset.refl _⟩
  | cons s points ih =>
      obtain ⟨hfrom, hto, hkept⟩ := ih (q.addSeed s)
      have hsub : q.steps ⊆ (q.addSeed s).steps := List.subset_append_left _ _
      refine ⟨fun t ht => ?_, List.forall_mem_cons.2 ⟨?_, hto⟩, List.Subset.trans hsub hkept⟩
      · rcases hfrom t ht with ht | ⟨u, hu, hcopy⟩
        · rcases List.mem_append.1 ht with ht | ht
          · exact .inl ht
          · obtain rfl := List.mem_singleton.1 ht
            exact .inr ⟨s, List.mem_cons_self, rfl, rfl⟩
        · exact .inr ⟨u, List.mem_cons_of_mem _ hu, hcopy⟩
      · exact ⟨_, hkept (List.mem_append_right _ List.mem_cons_self), rfl⟩

/-- Placed points have coordinates in the protocol for them. -/
theorem isSome_coordinates_auxiliary (hpoints : ∀ s ∈ points, s.isPlaced = true) {l : Label}
    (hl : l ∈ points.map Step.label) :
    (((auxiliary p points).get? l).bind Step.coordinates?).isSome = true := by
  obtain ⟨hfrom, hto, -⟩ := exists_copy
    { freeIndex := p.freeIndex, dependentIndex := p.dependentIndex } points
  obtain ⟨s, hs, rfl⟩ := List.mem_map.1 hl
  obtain ⟨t, ht, hlabel⟩ := hto s hs
  obtain ⟨u, hu⟩ := Option.isSome_iff_exists.1 (hlabel ▸ Protocol.get?_isSome ht)
  rcases hfrom u (Protocol.mem_of_get? hu).1 with hu' | ⟨v, hv, -, hcoordinates⟩
  · cases hu'
  · change (((points.foldl Protocol.addSeed _).get? s.label).bind Step.coordinates?).isSome = true
    rw [hu, Option.bind_some, hcoordinates]
    exact hpoints v hv

/-- A point is labelled as the statement is with which polynomials are compared. -/
def IsMislabelled (labels : List Label) (e : TransformError) : Prop :=
  ∃ r : Relation, "ndg:" ++ (Construction.statement r).kind.name ∈ labels ∧
    e = .unplaced ("ndg:" ++ (Construction.statement r).kind.name)
      ("ndg:" ++ (Construction.statement r).kind.name)

/-- A relation of placed points has a polynomial, unless one of them is labelled as the statement is. -/
theorem isMislabelled_of_polynomials {r : Reading} {e : TransformError}
    (hpoints : ∀ s ∈ points, s.isPlaced = true)
    (hr : ∀ l ∈ (Construction.statement r.relation).arguments, l ∈ points.map Step.label)
    (h : polynomials p points r = .error e) : IsMislabelled (points.map Step.label) e := by
  unfold polynomials at h
  dsimp only at h
  obtain ⟨l, hl, rfl, hnone⟩ := Transformation.statementPolynomials_eq_error rfl rfl h
  have hmem := hr l (r.relation.generators_condition ▸ hl)
  have hown : l = "ndg:" ++ (Construction.statement r.relation).kind.name := by
    by_contra hne
    unfold Protocol.coordinatesFor at hnone
    rw [if_neg hne] at hnone
    exact Option.isSome_iff_ne_none.1 (isSome_coordinates_auxiliary (p := p) hpoints hmem) hnone
  exact ⟨r.relation, hown ▸ hmem, by rw [hown]⟩

theorem isMislabelled_of_firstMatch {f : Polynomial} {rs : List (Except DegeneracyError Reading)}
    {e : DegeneracyError} (hpoints : ∀ s ∈ points, s.isPlaced = true)
    (hrs : ∀ r ∈ rs, ∃ reading, r = .ok reading ∧
      ∀ l ∈ (Construction.statement reading.relation).arguments, l ∈ points.map Step.label)
    (h : firstMatch p f points rs = .error e) :
    ∃ e', e = .transform e' ∧ IsMislabelled (points.map Step.label) e' := by
  induction rs with
  | nil => cases h
  | cons r rs ih =>
      obtain ⟨⟨reading, rfl, hreading⟩, hrest⟩ := List.forall_mem_cons.1 hrs
      unfold firstMatch at h
      cases hq : polynomials p points reading with
      | error e' =>
          rw [hq] at h
          cases h
          exact ⟨e', rfl, isMislabelled_of_polynomials hpoints hreading hq⟩
      | ok qs =>
          simp only [hq, Except.mapError, bind, Except.bind] at h
          split at h
          next => cases h
          next => exact ih hrest h

end Configuration

namespace Protocol

variable {p : Protocol} {f : Polynomial} {maxPoints : Int} {done : List Nondegeneracy}
  {events events' : List Event} {qs : List Polynomial} {e : DegeneracyError}

/-- Some point of the protocol is labelled as the statement is with which polynomials are compared. -/
def IsMislabelled (p : Protocol) (e : DegeneracyError) : Prop :=
  ∃ e', e = .transform e' ∧ Configuration.IsMislabelled (p.steps.map Step.label) e'

theorem isMislabelled_of_firstReading (hp : (p.steps.map Step.label).Nodup)
    {trials : List (Configuration × List Step)}
    (htrials : ∀ t ∈ trials, t.2.length = t.1.arity ∧ t.2.Sublist p.steps ∧
      ∀ s ∈ t.2, s.isPlaced = true)
    (h : p.firstReading f trials = .error e) : p.IsMislabelled e := by
  induction trials with
  | nil => cases h
  | cons t trials ih =>
      obtain ⟨⟨hlength, hsub, hplaced⟩, htrials⟩ := List.forall_mem_cons.1 htrials
      unfold firstReading at h
      obtain hmatch | ⟨found, -, h⟩ := bind_eq_error h
      · obtain ⟨e', rfl, r, hmem, rfl⟩ := Configuration.isMislabelled_of_firstMatch hplaced
          (Configuration.exists_reading (by rwa [List.length_map]) (hp.sublist (hsub.map _))) hmatch
        exact ⟨_, rfl, r, (hsub.map _).subset hmem, rfl⟩
      · split at h
        next => cases h
        next => exact ih htrials h

theorem candidates_sublist (p : Protocol) (f : Polynomial) : (p.candidates f).Sublist p.steps :=
  List.filter_sublist.trans List.filter_sublist

theorem isPlaced_of_mem_candidates {s : Step} (h : s ∈ p.candidates f) : s.isPlaced = true := by
  have hcoordinates := (List.mem_filter.1 h).2
  unfold Step.isPlaced
  cases hxy : s.coordinates? with
  | none =>
      rw [hxy] at hcoordinates
      cases hcoordinates
  | some xy => rfl

/-- As many points are tried for a configuration as it has. -/
theorem mem_choose_of_mem_trials (p : Protocol) (f : Polynomial) :
    ∀ t ∈ Configuration.all.flatMap fun c =>
      (choose c.arity (p.candidates f)).map fun chosen => (c, chosen),
      t.2 ∈ choose t.1.arity (p.candidates f) := by
  intro t ht
  obtain ⟨c, -, ht⟩ := List.mem_flatMap.1 ht
  obtain ⟨chosen, hchosen, rfl⟩ := List.mem_map.1 ht
  exact hchosen

theorem isMislabelled_of_reading? (hp : (p.steps.map Step.label).Nodup)
    (h : p.reading? maxPoints f = .error e) : p.IsMislabelled e := by
  unfold reading? at h
  dsimp only at h
  split at h
  next => cases h
  next =>
    refine isMislabelled_of_firstReading hp (fun t ht => ?_) h
    obtain ⟨hlength, hsub⟩ := mem_choose (mem_choose_of_mem_trials p f t ht)
    exact ⟨hlength, hsub.trans (candidates_sublist p f),
      fun s hs => isPlaced_of_mem_candidates (hsub.subset hs)⟩

/-- Polynomials are told with their readings unless a point has the label of a statement. -/
theorem isMislabelled_of_explainOnto (hp : (p.steps.map Step.label).Nodup)
    (h : p.explainOnto maxPoints done events qs = (.error e, events')) : p.IsMislabelled e := by
  induction qs generalizing done events with
  | nil => cases h
  | cons q qs ih =>
      unfold explainOnto at h
      split at h
      next => exact ih h
      next =>
        split at h
        next e' he =>
          cases h
          exact isMislabelled_of_reading? hp he
        next => exact ih h
        next => exact ih h

theorem map_label_of_core {q : Protocol} (h : q.steps.map Step.core = p.steps.map Step.core) :
    q.steps.map Step.label = p.steps.map Step.label := by
  have hlabels := congr_arg (List.map Prod.fst) h
  rwa [List.map_map, List.map_map] at hlabels

section Area

open Area

variable {settings : Settings} {f : Finished}

/-- The outcome of a proof by the area method, before a verdict is drawn from it. -/
def areaOutcome (p : Protocol) (settings : Settings) : Except Area.Error Proof :=
  (((Prover.ofProtocol p settings).prove none).run
    { protocol := p, events := (Prover.ofProtocol p settings).context.events }).1

/-- What a proof by the area method comes to: a result, which is inconclusive where the elimination fails; or
a denominator is zero wherever the definitions in use hold; or a point has the label of a statement with which
polynomials are compared. A result need not be inconclusive where a denominator is zero: one whose polynomial
in the coordinates is zero is passed over with the constants, and the verdict can be `holds` without conditions,
as for the common point of a line and its parallel. -/
theorem outcome_prove_area (hp : Appended p) (settings : Settings) :
    (∃ f, (p.prove "area" settings none).outcome = .ok f ∧
      ∀ e, p.areaOutcome settings = .error e → f.result.verdict = .inconclusive) ∨
    (∃ n, (p.prove "area" settings none).outcome = .error (.area (.zeroDenominator n)) ∧
      ∀ place ratio,
        ¬(Context.ofProtocol p).HoldAt (p.areaProgress settings).used place ratio) ∨
    ∃ r : Relation, ∃ l ∈ p.steps.map Step.label,
      l = "ndg:" ++ (Construction.statement r).kind.name ∧
      (p.prove "area" settings none).outcome = .error (.degeneracy (.transform (.unplaced l l))) := by
  obtain ⟨pass, hpass⟩ := exists_isPass hp settings
  have hends := Prover.ends_prove (m := Prover.ofProtocol p settings) hp hpass
    (Context.isRegular_ofProtocol hp.accepted) (isDefined_denominators p)
    (s := { protocol := p, events := (Prover.ofProtocol p settings).context.events }) rfl rfl rfl
  have harea : (p.prove "area" settings none).outcome = (p.proveArea settings none).outcome := rfl
  rw [harea]
  unfold proveArea areaOutcome areaProgress
  dsimp only [Attempt.after]
  unfold Prover.Fares Ends at hends
  generalize ((Prover.ofProtocol p settings).prove none).run
    { protocol := p, events := (Prover.ofProtocol p settings).context.events } = result at hends ⊢
  obtain ⟨e | proof, s⟩ := result
  · rcases hends with hopen | ⟨⟨n, rfl⟩, hnowhere⟩
    · refine .inl ?_
      dsimp only
      rw [if_pos hopen]
      exact ⟨_, rfl, fun _ _ => rfl⟩
    · exact .inr (.inl ⟨n, rfl, hnowhere⟩)
  · have hcore : s.protocol.steps.map Step.core = p.steps.map Step.core := by
      rcases hends.stands with ⟨hprotocol, -⟩ | hfresh
      · rw [hprotocol]
      · rw [hfresh.steps, hpass.core]
    have hlabels := map_label_of_core hcore
    dsimp only
    split
    next =>
      unfold concludeHolds
      split
      next e events hexplain =>
        obtain ⟨e', rfl, r, hmem, rfl⟩ :=
          isMislabelled_of_explainOnto (hlabels ▸ hp.ordered.labels) hexplain
        exact .inr (.inr ⟨r, _, hlabels ▸ hmem, rfl, rfl⟩)
      next => exact .inl ⟨_, rfl, nofun⟩
    next => exact .inl ⟨_, rfl, nofun⟩

/-- The point in which a line meets the same line again. -/
def doubledFigure : Protocol :=
  figure [("A", .point .free), ("B", .point .free), ("C", .point .free),
    ("l", .set (.lineThrough "A" "B")), ("m", .set (.lineThrough "A" "B")),
    ("P", .point (.intersection "l" "m")), ("s", .statement (.collinear "A" "C" "P"))]

theorem outcome_doubledFigure : (doubledFigure.prove "area" {} none).outcome =
    .error (.area (.zeroDenominator .zero)) := by
  unfold prove proveArea
  dsimp only
  rw [Prover.run_prove rfl rfl (by decide)]
  rfl

/-- The definition of the point in which a line meets itself holds nowhere. -/
theorem outcome_prove_area_doubledFigure : Appended doubledFigure ∧
    ∃ n, (doubledFigure.prove "area" {} none).outcome = .error (.area (.zeroDenominator n)) ∧
      ∀ place ratio,
        ¬(Context.ofProtocol doubledFigure).HoldAt (doubledFigure.areaProgress {}).used place ratio := by
  have hfigure : Appended doubledFigure := appended_figure _
  refine ⟨hfigure, ?_⟩
  rcases outcome_prove_area hfigure {} with ⟨f, hf, -⟩ | hzero | ⟨r, l, -, -, herror⟩
  · cases outcome_doubledFigure.symm.trans hf
  · exact hzero
  · cases outcome_doubledFigure.symm.trans herror

/-- A proof about the point in which a line meets itself comes to no result, but divides by zero. -/
theorem not_isOk_doubledFigure : Appended doubledFigure ∧ doubledFigure.statement.isSome = true ∧
    (doubledFigure.prove "area" {} none).outcome.isOk = false := by
  refine ⟨appended_figure _, by decide +kernel, ?_⟩
  rw [outcome_doubledFigure]
  rfl

end Area

end Protocol

end Planimetry
