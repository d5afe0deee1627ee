import Planimetry.Proofs.Degeneracy.Symmetry

/-! A polynomial has a reading if and only if it is, up to a factor, the polynomial of one of the
configurations of some of its points in some order. -/

namespace Planimetry

/-! ### Some of several points -/

theorem mem_choose_of_sublist {α : Type} {xs as : List α} (h : xs.Sublist as) :
    xs ∈ choose xs.length as := by
  induction h with
  | slnil => exact List.mem_singleton_self _
  | @cons xs as a _ ih =>
      cases xs with
      | nil => exact List.mem_singleton_self _
      | cons x xs => exact List.mem_append_right _ ih
  | cons_cons a _ ih => exact List.mem_append_left _ (List.mem_map_of_mem ih)

/-- Different ones of different things are chosen, in some order. -/
theorem exists_mem_choose {α : Type} {f : α → Label} {as : List α} {labels : List Label}
    (has : (as.map f).Nodup) (hlabels : labels.Nodup) (hsub : labels ⊆ as.map f) :
    ∃ xs ∈ choose labels.length as, labels.Perm (xs.map f) := by
  have hperm : labels.Perm ((as.filter fun a => f a ∈ labels).map f) := by
    refine (List.perm_ext_iff_of_nodup hlabels (has.sublist (List.filter_sublist.map f))).2 fun l => ?_
    constructor
    · intro hl
      obtain ⟨a, ha, rfl⟩ := List.mem_map.1 (hsub hl)
      exact List.mem_map_of_mem (List.mem_filter.2 ⟨ha, decide_eq_true hl⟩)
    · intro hl
      obtain ⟨a, ha, rfl⟩ := List.mem_map.1 hl
      exact of_decide_eq_true (List.mem_filter.1 ha).2
  refine ⟨_, ?_, hperm⟩
  rw [hperm.length_eq, List.length_map]
  exact mem_choose_of_sublist List.filter_sublist

/-! ### Polynomials of readings -/

namespace Protocol

variable {p : Protocol} {s : Step}

theorem coordinates?_of_mem (hp : (p.steps.map Step.label).Nodup) (hs : s ∈ p.steps) :
    p.coordinates? s.label = s.coordinates? := by
  obtain ⟨t, ht⟩ := Option.isSome_iff_exists.1 (get?_isSome hs)
  obtain ⟨hmem, hlabel⟩ := mem_of_get? ht
  rw [coordinates?, ht, Option.bind_some, List.inj_on_of_nodup_map hp hmem hs hlabel]

/-- No point is labelled as the statements are with which polynomials are compared. -/
def IsPlain (p : Protocol) : Prop := ∀ s ∈ p.points, ¬"ndg:".toList <+: s.label.toList

end Protocol

namespace Configuration

variable {p : Protocol} {points : List Step} {r : Reading}

/-- The relation of a reading has the same polynomial between copies of the points as between the points. -/
theorem exists_polynomials (hp : (p.steps.map Step.label).Nodup) (hsub : points ⊆ p.steps)
    (hplaced : ∀ s ∈ points, s.isPlaced = true)
    (hplain : ∀ s ∈ points, ¬"ndg:".toList <+: s.label.toList)
    (hr : ∀ l ∈ r.relation.condition.generators, l ∈ points.map Step.label) :
    ∃ g, polynomials p points r = .ok [g] ∧ r.relation.condition.polynomialAt p.coordinates? = .ok g := by
  cases h : polynomials p points r with
  | error e =>
      obtain ⟨relation, hmem, -⟩ := isMislabelled_of_polynomials hplaced
        (fun l hl => hr l (r.relation.generators_condition ▸ hl)) h
      obtain ⟨s, hs, hlabel⟩ := List.mem_map.1 hmem
      refine absurd ?_ (hplain s hs)
      rw [hlabel, String.toList_append]
      exact List.prefix_append _ _
  | ok qs =>
      have hstatement := h
      unfold polynomials at hstatement
      obtain ⟨g, rfl, hg⟩ := Transformation.statementPolynomials_eq_ok rfl rfl hstatement
      refine ⟨g, rfl, Template.instantiate_mono r.relation.isPure_condition (fun role uv huv => ?_)
        (Protocol.polynomialOf_eq_ok hg)⟩
      obtain ⟨l, hl, huv⟩ := Option.bind_eq_some_iff.1 huv
      rw [hl, Option.bind_some]
      unfold Protocol.coordinatesFor at huv
      split at huv
      next =>
        -- a role that the statement itself plays has no coordinates
        rw [Transformation.coordinates?_of_statement rfl] at huv
        cases huv
      next =>
        obtain ⟨t, ht, hcopy⟩ := Option.bind_eq_some_iff.1 huv
        obtain ⟨hmem, rfl⟩ := Protocol.mem_of_get? ht
        rcases (exists_copy _ points).1 t hmem with ht | ⟨s, hs, hlabel, hcoordinates⟩
        · cases ht
        · rw [hlabel, Protocol.coordinates?_of_mem hp (hsub hs), ← hcoordinates, hcopy]

variable {f : Polynomial} {rs : List (Except DegeneracyError Reading)}

/-- What a search finds, if it finds something, has a property, and nothing has it if it finds nothing. -/
def Finds (P : Reading → Prop) : Option Reading → Prop
  | some r => P r
  | none => ∀ r, ¬P r

theorem Finds.of_forall_iff {P Q : Reading → Prop} {found : Option Reading} (h : Finds P found)
    (hiff : ∀ r, Q r ↔ P r) : Finds Q found := by
  cases found with
  | some r => exact (hiff r).2 h
  | none => exact fun r hr => h r ((hiff r).1 hr)

/-- The polynomial is that of the relation of a reading, up to a factor other than zero. -/
def Fits (p : Protocol) (f : Polynomial) (r : Reading) : Prop :=
  ∃ g, r.relation.condition.polynomialAt p.coordinates? = .ok g ∧ g.IsMultiple f

/-- The first of some readings that fits a polynomial is found. -/
theorem finds_firstMatch (hrs : ∀ r ∈ rs, ∃ reading g, r = .ok reading ∧
      polynomials p points reading = .ok [g] ∧
      reading.relation.condition.polynomialAt p.coordinates? = .ok g) :
    ∃ found, firstMatch p f points rs = .ok found ∧ Finds (fun r => .ok r ∈ rs ∧ Fits p f r) found := by
  induction rs with
  | nil => exact ⟨none, rfl, fun r hr => nomatch hr.1⟩
  | cons r rs ih =>
      obtain ⟨⟨reading, g, rfl, hpolynomials, hg⟩, hrest⟩ := List.forall_mem_cons.1 hrs
      have hfits : Fits p f reading ↔ f.isProportional g = true := by
        rw [Polynomial.isProportional_iff_isMultiple]
        constructor
        · rintro ⟨g', hg', hmultiple⟩
          obtain rfl := Except.ok.inj (hg.symm.trans hg')
          exact hmultiple.symm
        · exact fun hmultiple => ⟨g, hg, hmultiple.symm⟩
      unfold firstMatch
      simp only [hpolynomials, Except.mapError, bind, Except.bind, List.any_cons, List.any_nil,
        Bool.or_false]
      by_cases hproportional : f.isProportional g = true
      · rw [if_pos hproportional]
        exact ⟨some reading, rfl, List.mem_cons_self, hfits.2 hproportional⟩
      · rw [if_neg hproportional]
        obtain ⟨found, hfound, hfinds⟩ := ih hrest
        refine ⟨found, hfound, hfinds.of_forall_iff fun r => and_congr_left fun hfit => ?_⟩
        rw [List.mem_cons, or_iff_right]
        intro hr
        obtain rfl := Except.ok.inj hr
        exact hproportional (hfits.1 hfit)

end Configuration

/-! ### The search for a reading -/

namespace Protocol

variable {p : Protocol} {f : Polynomial} {c : Configuration} {labels : List Label} {points : List Step}

/-- The polynomial is, up to a factor other than zero, that of a configuration of different points of it, in
the order in which they play their roles. -/
structure Describes (p : Protocol) (f : Polynomial) (c : Configuration) (labels : List Label) : Prop where
  nodup : labels.Nodup
  candidates : labels ⊆ (p.candidates f).map Step.label
  multiple : ∃ relation g, c.relation? labels = some relation ∧
    relation.condition.polynomialAt p.coordinates? = .ok g ∧ g.IsMultiple f

variable (hp : (p.steps.map Step.label).Nodup) (hplain : p.IsPlain)
include hp

theorem nodup_candidates (f : Polynomial) : ((p.candidates f).map Step.label).Nodup :=
  hp.sublist ((candidates_sublist p f).map _)

theorem isSome_coordinates?_of_candidate {l : Label} (hl : l ∈ (p.candidates f).map Step.label) :
    (p.coordinates? l).isSome = true := by
  obtain ⟨s, hs, rfl⟩ := List.mem_map.1 hl
  rw [coordinates?_of_mem hp ((candidates_sublist p f).subset hs)]
  exact isPlaced_of_mem_candidates hs

include hplain

theorem finds_match? (hpoints : points ∈ choose c.arity (p.candidates f)) :
    ∃ found, c.match? p f points = .ok found ∧ Configuration.Finds
      (fun r => .ok r ∈ c.readings (points.map Step.label) ∧ Configuration.Fits p f r) found := by
  obtain ⟨hlength, hsub⟩ := mem_choose hpoints
  refine Configuration.finds_firstMatch fun r hr => ?_
  obtain ⟨reading, rfl, harguments⟩ := Configuration.exists_reading (by rwa [List.length_map])
    ((nodup_candidates hp f).sublist (hsub.map _)) r hr
  obtain ⟨g, hpolynomials, hg⟩ := Configuration.exists_polynomials (r := reading) hp
    (hsub.trans (candidates_sublist p f)).subset
    (fun s hs => isPlaced_of_mem_candidates (hsub.subset hs))
    (fun s hs => hplain s ((hsub.trans List.filter_sublist).subset hs))
    (fun l hl => harguments l (reading.relation.generators_condition ▸ hl))
  exact ⟨reading, g, rfl, hpolynomials, hg⟩

theorem finds_firstReading {trials : List (Configuration × List Step)}
    (htrials : ∀ t ∈ trials, t.2 ∈ choose t.1.arity (p.candidates f)) :
    ∃ found, p.firstReading f trials = .ok found ∧ Configuration.Finds
      (fun r => ∃ t ∈ trials, .ok r ∈ t.1.readings (t.2.map Step.label) ∧ Configuration.Fits p f r)
      found := by
  induction trials with
  | nil => exact ⟨none, rfl, fun r ⟨t, ht, _⟩ => nomatch ht⟩
  | cons t trials ih =>
      obtain ⟨ht, htrials⟩ := List.forall_mem_cons.1 htrials
      obtain ⟨found, hfound, hfinds⟩ := finds_match? hp hplain ht
      unfold firstReading
      simp only [hfound, bind, Except.bind]
      cases found with
      | some r => exact ⟨some r, rfl, t, List.mem_cons_self, hfinds⟩
      | none =>
          obtain ⟨found, hfound, hlater⟩ := ih htrials
          exact ⟨found, hfound, hlater.of_forall_iff fun r =>
            (List.exists_mem_cons_iff ..).trans (or_iff_right (hfinds r))⟩

omit hplain in
/-- What is read off some points describes the polynomial that it fits. -/
theorem Describes.of_reading {r : Reading} (hpoints : points ∈ choose c.arity (p.candidates f))
    (hr : .ok r ∈ c.readings (points.map Step.label)) (hfits : Configuration.Fits p f r) :
    p.Describes f c r.points := by
  obtain ⟨hlength, hsub⟩ := mem_choose hpoints
  have hnodup : (points.map Step.label).Nodup := (nodup_candidates hp f).sublist (hsub.map _)
  obtain ⟨hrelation, hperm⟩ :=
    Configuration.relation?_of_mem_readings (by rwa [List.length_map]) hnodup hr
  obtain ⟨g, hg, hmultiple⟩ := hfits
  exact ⟨hperm.nodup_iff.2 hnodup, List.Subset.trans hperm.subset (hsub.map _).subset,
    _, g, hrelation, hg, hmultiple⟩

omit hplain in
/-- What describes the polynomial in one order can be read off the points in the order of the protocol. -/
theorem Describes.exists_reading (h : p.Describes f c labels) :
    ∃ points ∈ choose c.arity (p.candidates f), ∃ r,
      .ok r ∈ c.readings (points.map Step.label) ∧ Configuration.Fits p f r := by
  obtain ⟨relation, g, hrelation, hg, hmultiple⟩ := h.multiple
  -- the same points in the order of the protocol, in which they are tried
  obtain ⟨points, hpoints, hperm⟩ := exists_mem_choose (nodup_candidates hp f) h.nodup h.candidates
  rw [Configuration.length_of_relation? hrelation] at hpoints
  have hnodup : (points.map Step.label).Nodup := hperm.nodup_iff.1 h.nodup
  obtain ⟨r, hr, halike⟩ := Configuration.exists_reading_of_perm
    (Relation.variablesAt p.coordinates?) hrelation hnodup hperm
  obtain ⟨hread, hreadPerm⟩ := Configuration.relation?_of_mem_readings
    (by rw [← hperm.length_eq, Configuration.length_of_relation? hrelation]) hnodup hr
  obtain ⟨g', hg', hform'⟩ := Relation.exists_polynomialAt (r := r.relation) fun l hl =>
    isSome_coordinates?_of_candidate hp (h.candidates (hperm.symm.subset (hreadPerm.subset
      (Configuration.generators_subset_of_relation? hread hl))))
  obtain ⟨g'', hg'', hform⟩ := Relation.exists_polynomialAt (r := relation) fun l hl =>
    isSome_coordinates?_of_candidate hp
      (h.candidates (Configuration.generators_subset_of_relation? hrelation hl))
  obtain rfl := Except.ok.inj (hg.symm.trans hg'')
  exact ⟨points, hpoints, r, hr, g', hg', Relation.isMultiple_of_alike hform hform' halike.symm hmultiple⟩

/-- The search comes to an end: with a reading of the polynomial if it has few enough points and a
configuration of them describes it, and without one otherwise. -/
theorem exists_reading? (maxPoints : Int) (f : Polynomial) :
    ∃ found, p.reading? maxPoints f = .ok found ∧
      (found.isSome = true ↔
        (p.candidates f).length ≤ maxPoints ∧ ∃ c labels, p.Describes f c labels) ∧
      ∀ r, found = some r → ∃ c, p.Describes f c r.points := by
  unfold reading?
  dsimp only
  split
  next hmany => exact ⟨none, rfl, iff_of_false nofun fun h => by omega, nofun⟩
  next hfew =>
    obtain ⟨found, hfound, hfinds⟩ := finds_firstReading hp hplain (mem_choose_of_mem_trials p f)
    refine ⟨found, hfound, ?_⟩
    cases found with
    | some r =>
        obtain ⟨t, ht, hr, hfits⟩ := hfinds
        have hdescribes := Describes.of_reading hp (mem_choose_of_mem_trials p f t ht) hr hfits
        refine ⟨iff_of_true rfl ⟨by omega, t.1, r.points, hdescribes⟩, ?_⟩
        rintro r' ⟨⟩
        exact ⟨t.1, hdescribes⟩
    | none =>
        refine ⟨iff_of_false nofun ?_, nofun⟩
        rintro ⟨-, c, labels, hdescribes⟩
        obtain ⟨points, hpoints, r, hr, hfits⟩ := hdescribes.exists_reading hp
        refine hfinds r ⟨(c, points), List.mem_flatMap.2 ⟨c, ?_, List.mem_map_of_mem hpoints⟩, hr, hfits⟩
        cases c <;> decide

end Protocol

end Planimetry
