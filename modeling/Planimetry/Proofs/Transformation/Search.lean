import Planimetry.Proofs.Transformation.InPlace

/-! The search for an alternative that renames a coordinate: each trial is made in place and then rolled back,
by cutting back what it added. That leaves no trace, because nothing older is ever touched, and the search
finds what placing the point by one alternative after the other would show. -/

namespace Planimetry

/-! ### Rolling back -/

/-- What a trial must leave as it was: the place of the point, the indices of the next variables, and how many
hypotheses and factors there are. -/
structure Snapshot where
  placement : Placement
  freeIndex : Int
  dependentIndex : Int
  system : ℕ
  factors : ℕ

namespace Transformation

def snapshot (t : Transformation) (position : ℕ) (s : Step) : Snapshot where
  placement := ((t.protocol.steps[position]?).getD s).placement
  freeIndex := t.protocol.freeIndex
  dependentIndex := t.protocol.dependentIndex
  system := t.system.length
  factors := t.factors.length

/-- Puts back what was kept, and cuts off what was added. -/
def restore (t : Transformation) (position : ℕ) (kept : Snapshot) : Transformation :=
  { t.truncate kept.system with
    protocol :=
      { t.protocol.modify position fun u => { u with placement := kept.placement } with
        freeIndex := kept.freeIndex
        dependentIndex := kept.dependentIndex }
    factors := t.factors.take kept.factors }

end Transformation

namespace Work

variable {α : Type} (position : ℕ) (s : Step)

/-- Rolls the pass back once some work on it is done, even if it ends early. -/
def speculate (m : Work α) : Work α := do
  let kept ← look fun t => t.snapshot position s
  try m
  finally modify fun site => { site with work := site.work.restore position kept }

/-- Whether work can be done; a fault is not held up. -/
def succeeds (m : Work α) : Work Bool :=
  tryCatch (do
    let _ ← m
    return true) fun
    | .failed _ => return false
    | .fault => throw .fault

/-- Places a point without coordinates, and tells whether that renames one. -/
def examine (a : Alternative) : Work Bool := do
  mark position fun p => { p with x := none }
  mark position fun p => { p with y := none }
  if ← succeeds (place position s a) then
    let u ← point position s
    return u.placement.state = .renamed
  else return false

/-- The first alternative, counted from a number on, that renames a coordinate of the point. -/
def search (i : ℕ) : List Alternative → Work (Option ℕ)
  | [] => return none
  | a :: as => do
    if ← speculate position s (examine position s a) then return some i
    else search (i + 1) as

end Work

/-! ### What a trial touches -/

/-- A pass after some work on the point at a position: only the place of that point and the indices of the
next variables may differ, and hypotheses and factors may have been added. -/
structure Transformation.Grows (t : Transformation) (position : ℕ) (t' : Transformation) : Prop where
  steps : ∃ f : Placement → Placement, t'.protocol.steps =
    t.protocol.steps.modify position fun u => { u with placement := f u.placement }
  statement : t'.protocol.statement = t.protocol.statement
  system : t.system <+: t'.system
  factors : t.factors <+: t'.factors
  best : t'.best = t.best
  align : t'.align = t.align

namespace Transformation

variable {t t' : Transformation} {position : ℕ} {s : Step}

theorem Grows.refl (t : Transformation) (position : ℕ) : t.Grows position t :=
  { steps := ⟨id, (List.modify_id position t.protocol.steps).symm⟩
    statement := rfl
    system := List.prefix_rfl
    factors := List.prefix_rfl
    best := rfl
    align := rfl }

theorem Grows.mark (h : t.Grows position t') (f : Placement → Placement) :
    t.Grows position { t' with
      protocol := t'.protocol.modify position fun u => { u with placement := f u.placement } } := by
  obtain ⟨g, hg⟩ := h.steps
  refine { h with steps := ⟨f ∘ g, ?_⟩ }
  unfold Protocol.modify
  rw [hg, List.modify_modify_eq]
  rfl

theorem prefix_rewriteFrom {hs ks : List Hypothesis} {n : ℕ} (h : hs <+: ks) (hn : hs.length ≤ n)
    (f : List Hypothesis → List Hypothesis) : hs <+: rewriteFrom n f ks :=
  ((List.prefix_take_iff.2 ⟨h, hn⟩)).trans (List.prefix_append _ _)

end Transformation

namespace Work

variable {α β : Type} {I : Transformation → Prop} {m : Work α} {post : α → Prop} {post' : β → Prop}

/-- Work keeps a property of the pass, even if it ends early, and else its result has another one. -/
def Keeps (I : Transformation → Prop) (m : Work α) (post : α → Prop) : Prop :=
  ∀ site, I site.work → match m.run site with
    | .ok a site' => post a ∧ I site'.work
    | .error _ site' => I site'.work

theorem Keeps.bind {f : α → Work β} (hm : Keeps I m post) (hf : ∀ a, post a → Keeps I (f a) post') :
    Keeps I (m >>= f) post' := by
  intro site hsite
  have h := hm site hsite
  rw [EStateM.run_bind]
  cases hrun : m.run site with
  | ok a site' =>
      rw [hrun] at h
      exact hf a h.1 site' h.2
  | error e site' =>
      rw [hrun] at h
      exact h

theorem Keeps.left (hm : Keeps I m post) (site : Site) (hsite : I site.work) :
    I (left (m.run site)) := by
  have h := hm site hsite
  cases hrun : m.run site with
  | ok a site' =>
      rw [hrun] at h
      exact h.2
  | error e site' =>
      rw [hrun] at h
      exact h

theorem keeps_pure {a : α} (h : post a) : Keeps I (pure a) post := fun _ hsite => ⟨h, hsite⟩

theorem keeps_fail (e : TransformError) : Keeps I (fail e : Work α) post := fun _ hsite => hsite

theorem keeps_operate {f : Transformation → α × Transformation}
    (h : ∀ t, I t → post (f t).1 ∧ I (f t).2) : Keeps I (operate f) post := by
  intro site hsite
  unfold operate
  rw [EStateM.run_bind, EStateM.run_get]
  dsimp only
  split
  next a site' hrun =>
    split at hrun
    · cases hrun
    · cases hrun
      exact h _ hsite
  next e site' hrun =>
    split at hrun
    · cases hrun
      exact hsite
    · cases hrun

theorem keeps_look {f : Transformation → α} (post : α → Prop) (h : ∀ t, I t → post (f t)) :
    Keeps I (look f) post :=
  keeps_operate fun t ht => ⟨h t ht, ht⟩

theorem keeps_read (f : Transformation → α) : Keeps I (look f) fun _ => True :=
  keeps_look _ fun _ _ => trivial

theorem keeps_change {f : Transformation → Transformation} (h : ∀ t, I t → I (f t)) :
    Keeps I (change f) fun _ => True :=
  keeps_operate fun t ht => ⟨trivial, h t ht⟩

section Grows

variable {t : Transformation} {position : ℕ} {s : Step} {start factorStart : ℕ}

theorem keeps_mark (f : Placement → Placement) :
    Keeps (t.Grows position) (mark position f) fun _ => True :=
  keeps_change fun _ ht => ht.mark f

theorem keeps_nextFree : Keeps (t.Grows position) nextFree fun _ => True :=
  keeps_operate fun _ ht => ⟨trivial, { ht with }⟩

theorem keeps_nextDependent : Keeps (t.Grows position) nextDependent fun _ => True :=
  keeps_operate fun _ ht => ⟨trivial, { ht with }⟩

theorem keeps_point : Keeps (t.Grows position) (point position s) fun _ => True :=
  keeps_read _

theorem keeps_first (n : ℕ) : Keeps (t.Grows position) (first n) fun _ => True := by
  unfold first
  split
  · exact keeps_nextDependent
  · exact keeps_nextFree

theorem keeps_second (n : ℕ) : Keeps (t.Grows position) (second position n) fun _ => True := by
  unfold second
  split
  · exact keeps_nextDependent
  · refine (keeps_read _).bind fun y _ => ?_
    cases y with
    | some y => exact keeps_pure trivial
    | none => exact keeps_nextFree

theorem keeps_assign (n : ℕ) : Keeps (t.Grows position) (assign position n) fun _ => True := by
  unfold assign
  refine (keeps_first n).bind fun x _ => ?_
  refine (keeps_mark _).bind fun _ _ => ?_
  refine (keeps_second n).bind fun y _ => ?_
  exact (keeps_mark _).bind fun _ _ => keeps_mark _

theorem keeps_keep (h : Hypothesis) : Keeps (t.Grows position) (keep h) fun _ => True :=
  keeps_change fun _ ht => { ht with system := ht.system.trans (List.prefix_append _ _) }

theorem keeps_divide (h : Hypothesis) : Keeps (t.Grows position) (divide h) fun _ => True := by
  unfold divide
  split
  · exact keeps_pure trivial
  · exact keeps_change fun _ ht => { ht with factors := ht.factors.trans (List.prefix_append _ _) }

theorem keeps_renameSystem (hstart : t.system.length ≤ start) (f : Variable → Variable) :
    Keeps (t.Grows position) (renameSystem start f) fun _ => True := by
  unfold renameSystem
  refine keeps_change fun t' ht => { ht with system := ?_ }
  dsimp only
  exact Transformation.prefix_rewriteFrom ht.system hstart _

theorem keeps_renameFactors (hstart : t.factors.length ≤ start) (f : Variable → Variable) :
    Keeps (t.Grows position) (renameFactors start f) fun _ => True :=
  keeps_change fun _ ht => { ht with factors := Transformation.prefix_rewriteFrom ht.factors hstart _ }

variable (hstart : t.system.length ≤ start) (hfactorStart : t.factors.length ≤ factorStart)

include hstart hfactorStart

theorem keeps_rename (axis : Axis) (own target : Variable) (factor : Hypothesis) :
    Keeps (t.Grows position) (rename position start factorStart axis own target factor)
      fun _ => True := by
  unfold rename
  -- Both lists are rewritten from a position where the older entries have ended.
  refine (keeps_mark _).bind fun _ _ => ?_
  refine (keeps_mark _).bind fun _ _ => ?_
  refine (keeps_divide factor).bind fun _ _ => ?_
  exact (keeps_renameSystem hstart _).bind fun _ _ => keeps_renameFactors hfactorStart _

theorem keeps_meet (c : Condition) :
    Keeps (t.Grows position) (meet position s start factorStart c) fun _ => True := by
  unfold meet
  refine keeps_point.bind fun u _ => ?_
  refine (keeps_read _).bind fun q _ => ?_
  cases q with
  | error e => exact keeps_fail e
  | ok q =>
      dsimp only
      split
      next => exact keeps_pure trivial
      next =>
        split
        next axis own target _ => exact keeps_rename hstart hfactorStart axis own target _
        next => exact keeps_keep _

theorem keeps_meetAll (cs : List Condition) :
    Keeps (t.Grows position) (meetAll position s start factorStart cs) fun _ => True := by
  induction cs with
  | nil => exact keeps_pure trivial
  | cons c cs ih => exact (keeps_meet hstart hfactorStart c).bind fun _ _ => ih

omit hstart hfactorStart

theorem keeps_conclude (added : List Polynomial) :
    Keeps (t.Grows position) (conclude position s added) fun _ => True := by
  unfold conclude
  refine keeps_point.bind fun u _ => ?_
  split
  · exact keeps_pure trivial
  · exact keeps_mark _

theorem keeps_settle (start : ℕ) :
    Keeps (t.Grows position) (settle position s start) fun _ => True := by
  unfold settle
  refine (keeps_read _).bind fun added _ => ?_
  exact (keeps_conclude added).bind fun _ _ => keeps_pure trivial

/-- Wherever placing a point ends, the pass has only grown. -/
theorem keeps_place (a : Alternative) :
    Keeps (t.Grows position) (place position s a) fun _ => True := by
  unfold place
  refine (keeps_read _).bind fun g _ => ?_
  cases g with
  | some g => exact keeps_fail _
  | none =>
      -- The positions are read once the point is assigned, when the lists have their older entries at least.
      refine (keeps_assign _).bind fun _ _ => ?_
      refine (keeps_look (t.system.length ≤ ·) fun _ ht => ht.system.length_le).bind
        fun start hstart => ?_
      refine (keeps_look (t.factors.length ≤ ·) fun _ ht => ht.factors.length_le).bind
        fun factorStart hfactorStart => ?_
      exact (keeps_meetAll hstart hfactorStart a).bind fun _ _ => keeps_settle start

end Grows

end Work

/-! ### What the search finds -/

/-- A trial changes the indices of a protocol only. -/
theorem Trial.steps_run {p p' : Protocol} {align : Bool} {position : ℕ} {s : Step} {a : Alternative}
    {trial : Trial} {error? : Option TransformError}
    (h : Trial.run p align position s a = (trial, p', error?)) : p'.steps = p.steps := by
  unfold Trial.run at h
  rcases hfresh : p.freshCoordinates align position s.kind.spec.freeCoordinates with ⟨⟨x, y⟩, q⟩
  rw [hfresh] at h
  dsimp only at h
  have hp' : q = p' := by
    split at h <;> exact congr_arg (fun r => r.2.1) h
  rw [← hp', (Protocol.freshCoordinates_eq hfresh).1]

namespace Transformation

variable {t t' : Transformation} {position : ℕ} {s : Step} {a : Alternative} {qs : List Polynomial}

theorem modify_placement (steps : List Step) (f : Placement → Placement) :
    (steps.modify position fun u => { u with placement := f u.placement }).modify position
      (fun u => { u with placement := ((steps[position]?).getD s).placement }) = steps := by
  rw [List.modify_modify_eq]
  refine Protocol.modify_eq_self fun u hu => ?_
  rw [hu]
  rfl

/-- A pass that has only grown is rolled back to where it was. -/
theorem restore_of_grows (h : t.Grows position t') (s : Step) :
    t'.restore position (t.snapshot position s) = t := by
  obtain ⟨⟨f, hsteps⟩, hstatement, hsystem, hfactors, hbest, halign⟩ := h
  obtain ⟨⟨steps, statement, i, j⟩, system, factors, best, align⟩ := t'
  dsimp only at hsteps hstatement hsystem hfactors hbest halign
  subst hsteps hstatement hbest halign
  unfold restore snapshot truncate Listing.front Protocol.modify
  dsimp only
  rw [modify_placement, if_pos (Int.natCast_nonneg _), Int.toNat_natCast,
    ← List.prefix_iff_eq_take.1 hsystem, ← List.prefix_iff_eq_take.1 hfactors]

theorem getElem?_placeBy (hs : t.protocol.steps[position]? = some s)
    (h : t.placeBy position s a = (.ok qs, t')) : ∃ u, t'.protocol.steps[position]? = some u ∧
      t.renames position s a = decide (u.placement.state = .renamed) := by
  unfold placeBy at h
  unfold renames
  split at h
  next => cases h
  next =>
    rcases hrun : Trial.run t.protocol t.align position s a with ⟨trial, p, _ | e⟩
    · rw [hrun] at h
      cases h
      refine ⟨trial.point, Protocol.getElem?_modify (s := s) ?_ _, rfl⟩
      rw [Trial.steps_run hrun, hs]
    · rw [hrun] at h
      cases h

theorem renames_of_placeBy_eq_error {e : TransformError}
    (h : t.placeBy position s a = (.error e, t')) : t.renames position s a = false := by
  unfold placeBy at h
  unfold renames
  split at h
  next => rfl
  next =>
    rcases hrun : Trial.run t.protocol t.align position s a with ⟨trial, p, _ | e⟩
    · rw [hrun] at h
      cases h
    · rfl

/-- Placing the point at a position by an alternative succeeds, and renames a coordinate. -/
def RenamesBy (t : Transformation) (position : ℕ) (a : Alternative) : Prop :=
  ∃ qs t' u, t.transform position (some a) = (.ok qs, t') ∧ t'.protocol.steps[position]? = some u ∧
    u.placement.state = .renamed

theorem transform_eq_placeBy (hs : t.protocol.steps[position]? = some s) (hpoint : s.isPoint = true)
    (a : Alternative) : t.transform position (some a) = t.placeBy position s a := by
  obtain ⟨rule, hrule⟩ := isPoint_iff.1 hpoint
  unfold transform
  simp only [hs, hrule]

theorem renames_iff (hs : t.protocol.steps[position]? = some s) (hpoint : s.isPoint = true) :
    t.renames position s a = true ↔ t.RenamesBy position a := by
  unfold RenamesBy
  rw [transform_eq_placeBy hs hpoint]
  rcases hplace : t.placeBy position s a with ⟨e | qs, t'⟩
  · rw [renames_of_placeBy_eq_error hplace]
    exact iff_of_false nofun fun ⟨_, _, _, h, _⟩ => by cases h
  · obtain ⟨u, hu, hrenames⟩ := getElem?_placeBy hs hplace
    rw [hrenames, decide_eq_true_iff]
    constructor
    · exact fun h => ⟨qs, t', u, rfl, hu, h⟩
    · rintro ⟨_, _, v, h, hv, hstate⟩
      cases h
      cases hu.symm.trans hv
      exact hstate

theorem best?_eq_some (hs : t.protocol.steps[position]? = some s) (hpoint : s.isPoint = true)
    {alternatives : List Alternative} {i : ℕ} : t.best? position s alternatives = some i ↔
      (∃ a, alternatives[i]? = some a ∧ t.RenamesBy position a) ∧
        ∀ j < i, ∀ b, alternatives[j]? = some b → ¬t.RenamesBy position b := by
  unfold best?
  rw [List.findIdx?_eq_some_iff_getElem]
  constructor
  · rintro ⟨hi, hfound, hbefore⟩
    refine ⟨⟨_, List.getElem?_eq_getElem hi, (renames_iff hs hpoint).1 hfound⟩, ?_⟩
    intro j hj b hb hrenames
    obtain ⟨hlt, rfl⟩ := List.getElem?_eq_some_iff.1 hb
    exact hbefore j hj ((renames_iff hs hpoint).2 hrenames)
  · rintro ⟨⟨a, ha, hrenames⟩, hbefore⟩
    obtain ⟨hi, rfl⟩ := List.getElem?_eq_some_iff.1 ha
    refine ⟨hi, (renames_iff hs hpoint).2 hrenames, fun j hj hfound => ?_⟩
    exact hbefore j hj _ (List.getElem?_eq_getElem _) ((renames_iff hs hpoint).1 hfound)

theorem best?_eq_none (hs : t.protocol.steps[position]? = some s) (hpoint : s.isPoint = true)
    {alternatives : List Alternative} : t.best? position s alternatives = none ↔
      ∀ a ∈ alternatives, ¬t.RenamesBy position a := by
  unfold best?
  rw [List.findIdx?_eq_none_iff]
  refine forall₂_congr fun a _ => ?_
  rw [← renames_iff hs hpoint, Bool.not_eq_true]

theorem commit_self (hs : t.protocol.steps[position]? = some s) :
    t.commit position { point := s } t.protocol = t := by
  have hsteps : t.protocol.steps.modify position (fun _ => s) = t.protocol.steps :=
    Protocol.modify_eq_self fun u hu => Option.some.inj (hs.symm.trans hu)
  unfold commit Protocol.modify
  rw [hsteps]
  simp

end Transformation

namespace Work

variable {α : Type} {t t' : Transformation} {position : ℕ} {s : Step} {m : Work α}

theorem run_finally (m : Work α) (f : Site → Site) (site : Site) :
    (tryFinally m (modify f : Work Unit)).run site = match m.run site with
      | .ok b site' => .ok b (f site')
      | .error e site' => .error e (f site') := by
  unfold EStateM.run
  cases h : m site <;>
    simp [tryFinally, tryFinally', h, Functor.map, EStateM.map, modify, modifyGet,
      MonadStateOf.modifyGet, EStateM.modifyGet]

theorem run_succeeds (m : Work α) (site : Site) : (succeeds m).run site = match m.run site with
    | .ok _ site' => .ok true site'
    | .error (.failed _) site' => .ok false site'
    | .error .fault site' => .error .fault site' := by
  unfold succeeds
  rw [EStateM.run_tryCatch, EStateM.run_bind]
  rcases m.run site with _ | ⟨_ | _⟩ <;> rfl

theorem Keeps.succeeds {I : Transformation → Prop} {post : α → Prop} (hm : Keeps I m post) :
    Keeps I (succeeds m) fun _ => True := by
  intro site hsite
  have h := hm site hsite
  rw [run_succeeds]
  rcases hrun : m.run site with ⟨b, site'⟩ | ⟨_ | _, site'⟩
  · rw [hrun] at h
    exact ⟨trivial, h.2⟩
  · rw [hrun] at h
    exact ⟨trivial, h⟩
  · rw [hrun] at h
    exact h

/-- Speculation leaves no trace, wherever the work on the point ends. -/
theorem Keeps.speculate {post : α → Prop} (hm : Keeps (t.Grows position) m post) (s : Step) :
    Keeps (· = t) (speculate position s m) post := by
  refine (keeps_look (· = t.snapshot position s) ?_).bind ?_
  · rintro _ rfl
    rfl
  · rintro _ rfl site rfl
    have h := hm site (.refl _ _)
    rw [run_finally]
    cases hrun : m.run site with
    | ok b site' =>
        rw [hrun] at h
        exact ⟨h.1, Transformation.restore_of_grows h.2 s⟩
    | error e site' =>
        rw [hrun] at h
        exact Transformation.restore_of_grows h s

theorem keeps_examine (a : Alternative) :
    Keeps (t.Grows position) (examine position s a) fun _ => True := by
  unfold examine
  refine (keeps_mark _).bind fun _ _ => ?_
  refine (keeps_mark _).bind fun _ _ => ?_
  refine (keeps_place a).succeeds.bind fun b _ => ?_
  cases b with
  | false => exact keeps_pure trivial
  | true => exact keeps_point.bind fun _ _ => keeps_pure trivial

/-- The whole search leaves no trace, even if a fault breaks it off. -/
theorem keeps_search (position : ℕ) (s : Step) (i : ℕ) (alternatives : List Alternative) :
    Keeps (· = t) (search position s i alternatives) fun _ => True := by
  induction alternatives generalizing i with
  | nil => exact keeps_pure trivial
  | cons a as ih =>
      unfold search
      refine ((keeps_examine a).speculate s).bind fun b _ => ?_
      cases b with
      | false => exact ih (i + 1)
      | true => exact keeps_pure trivial

theorem run_speculate {b : α} (hm : Keeps (t.Grows position) m fun _ => True)
    (h : m.run { work := t } = .ok b { work := t' }) :
    (speculate position s m).run { work := t } = .ok b { work := t } := by
  have hgrows := hm { work := t } (.refl _ _)
  rw [h] at hgrows
  unfold speculate
  rw [EStateM.run_bind, run_look]
  dsimp only
  rw [run_finally, h]
  dsimp only
  rw [Transformation.restore_of_grows hgrows.2 s]

/-- Examination tells whether placing the point by the alternative renames a coordinate. -/
theorem run_examine (hs : t.protocol.steps[position]? = some s) (a : Alternative) :
    ∃ t', (examine position s a).run { work := t } =
      .ok (t.renames position s a) { work := t' } := by
  have hmark : (mark position fun p => { p with x := none }).run
      { work := t.commit position { point := s } t.protocol } = _ := run_mark _
  rw [Transformation.commit_self hs] at hmark
  let cleared : Step := { s with placement := { s.placement with x := none, y := none } }
  have hexamine : (examine position s a).run { work := t } =
      (do
        if ← succeeds (place position s a) then
          let u ← point position s
          return decide (u.placement.state = .renamed)
        else return false : Work Bool).run
          { work := t.commit position { point := cleared } t.protocol } := by
    unfold examine
    rw [EStateM.run_bind, hmark]
    dsimp only
    rw [EStateM.run_bind, run_mark]
    rfl
  rw [hexamine, EStateM.run_bind, run_succeeds]
  cases hg : t.protocol.unplaced? s a with
  | some g =>
      have hrenames : t.renames position s a = false := by
        unfold Transformation.renames
        rw [hg]
      rw [run_place_of_unplaced _ hs hg, hrenames]
      exact ⟨_, rfl⟩
  | none =>
      rw [run_place _ hs hg]
      rcases hplace : t.placeBy position s a with ⟨e | qs, t'⟩
      · rw [Transformation.renames_of_placeBy_eq_error hplace]
        exact ⟨t', rfl⟩
      · obtain ⟨u, hu, hrenames⟩ := Transformation.getElem?_placeBy hs hplace
        have hpoint : (point position s).run { work := t' } = .ok u { work := t' } := by
          unfold point
          rw [run_look, hu, Option.getD_some]
        refine ⟨t', ?_⟩
        dsimp only
        rw [if_pos rfl, EStateM.run_bind, hpoint, hrenames]
        rfl

theorem run_search (hs : t.protocol.steps[position]? = some s) (i : ℕ)
    (alternatives : List Alternative) : (search position s i alternatives).run { work := t } =
      .ok ((t.best? position s alternatives).map (· + i)) { work := t } := by
  unfold Transformation.best?
  induction alternatives generalizing i with
  | nil => rfl
  | cons a as ih =>
      obtain ⟨t', hexamine⟩ := run_examine hs a
      unfold search
      rw [EStateM.run_bind, run_speculate (keeps_examine a) hexamine, List.findIdx?_cons]
      dsimp only
      split
      next => simp
      next =>
        rw [ih, Option.map_map]
        simp [Function.comp_def, Nat.add_comm, Nat.add_left_comm]

/-- In place, the point is placed as the pass places it. -/
theorem run_place_eq_transform (hs : t.protocol.steps[position]? = some s) (hpoint : s.isPoint = true)
    (a : Alternative) : (place position s a).run { work := t } =
      match t.transform position (some a) with
      | (.ok added, t') => .ok added { work := t' }
      | (.error e, t') => .error (.failed e) { work := t' } := by
  have hself := Transformation.commit_self hs
  rw [Transformation.transform_eq_placeBy hs hpoint]
  cases hg : t.protocol.unplaced? s a with
  | some g =>
      have hplace := run_place_of_unplaced s.placement hs hg
      have hfail : t.placeBy position s a = (.error (.unplaced s.label g), t) := by
        unfold Transformation.placeBy
        rw [hg]
      rw [hfail]
      rwa [hself] at hplace
  | none =>
      have hplace := run_place s.placement hs hg
      rwa [hself] at hplace

end Work

namespace Transformation

variable {t : Transformation} {position : ℕ} {s : Step}

/-- What the search in place does on a pass. However it ends, by itself or by a fault, the pass is as it was.
By itself it finds the first of the alternatives by which placing the point succeeds and renames a coordinate,
if there is one; and placing the point in place by an alternative does just what the pass does. -/
structure IsQueried (t : Transformation) (position : ℕ) (s : Step) (alternatives : List Alternative) :
    Prop where
  restored : ∀ fuse, Work.left ((Work.search position s 0 alternatives).run ⟨t, fuse⟩) = t
  found : (Work.search position s 0 alternatives).run ⟨t, none⟩ =
    .ok (t.best? position s alternatives) ⟨t, none⟩
  first : ∀ i, t.best? position s alternatives = some i ↔
    (∃ a, alternatives[i]? = some a ∧ t.RenamesBy position a) ∧
      ∀ j < i, ∀ b, alternatives[j]? = some b → ¬t.RenamesBy position b
  absent : t.best? position s alternatives = none ↔ ∀ a ∈ alternatives, ¬t.RenamesBy position a
  placed : ∀ a, (Work.place position s a).run ⟨t, none⟩ =
    match t.transform position (some a) with
    | (.ok added, t') => .ok added ⟨t', none⟩
    | (.error e, t') => .error (.failed e) ⟨t', none⟩

/-- The search for an alternative is a pure query, with the right answer. -/
theorem isQueried (hs : t.protocol.steps[position]? = some s) (hpoint : s.isPoint = true)
    (alternatives : List Alternative) : t.IsQueried position s alternatives :=
  { restored := fun fuse => (Work.keeps_search position s 0 alternatives).left ⟨t, fuse⟩ rfl
    found := (Work.run_search hs 0 alternatives).trans (by simp)
    first := fun _ => best?_eq_some hs hpoint
    absent := best?_eq_none hs hpoint
    placed := Work.run_place_eq_transform hs hpoint }

/-- Two points on a line, and a point that has no place yet. -/
def lineFigure : Protocol :=
  .figure [("A", .point .free), ("B", .point .free), ("l", .set (.lineThrough "A" "B")),
    ("D", .point (.onLine "l")), ("E", .point (.onLine "l")), ("F", .point .free)]

def linePass : Transformation := (advanceAll { protocol := lineFigure } [0, 1, 2, 3]).2

def linePoint : Step := (linePass.protocol.steps[4]?).getD { label := "E", construction := .point .free }

/-- Alternatives that fail half-way, fail at once, succeed, and rename a coordinate. -/
def lineAlternatives : List Alternative :=
  let onLine (b : Label) : Condition :=
    ⟨.collinear Template.own "A" "B", [(Template.own, "E"), ("A", "A"), ("B", b)]⟩
  let unbound : Condition := ⟨.collinear Template.own "A" "B", [(Template.own, "E"), ("A", "A")]⟩
  let shifted : Condition :=
    ⟨Template.shift.2, [(Template.own, "E"), ("P", "D"), ("A", "B"), ("B", "B")]⟩
  [[onLine "B", unbound], [onLine "F"], [onLine "B"], [onLine "B", shifted]]

theorem isQueried_lineAlternatives : linePass.protocol.steps[4]? = some linePoint ∧
    linePoint.isPoint = true ∧ linePass.best? 4 linePoint lineAlternatives = some 3 ∧
      linePass.IsQueried 4 linePoint lineAlternatives := by
  have hs : linePass.protocol.steps[4]? = some linePoint := by decide +kernel
  have hpoint : linePoint.isPoint = true := by decide +kernel
  exact ⟨hs, hpoint, by decide +kernel, isQueried hs hpoint lineAlternatives⟩

end Transformation
end Planimetry
