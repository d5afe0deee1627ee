import Planimetry.Figure.Entries
import Planimetry.Proofs.Figure.Line

/-! Histories of a protocol: whatever calls are made, the steps stay in order, lines and circles list
their points in the order of construction, and no step loses its validity later. -/

namespace Planimetry

/-- A call that changes a protocol. The steps are fresh ones, made from a label, a kind and a payload. -/
inductive Change where
  | append (e : Entry)
  | state (e : Entry)
  | clear (freeIndex dependentIndex : Int)
  deriving DecidableEq, Repr

namespace Step

variable {s : Step} {l : Label}

/-- The step after a point was constructed on some lines and circles. -/
def receive (point : Label) (sets : List Label) (s : Step) : Step :=
  if s.label ∈ sets ∧ point ∉ s.members then { s with members := s.members ++ [point] } else s

theorem extends_receive (point : Label) (sets : List Label) (s : Step) :
    s.Extends (s.receive point sets) := by
  unfold receive
  split
  · exact ⟨rfl, List.sublist_append_left _ _⟩
  · exact .refl s

theorem receive_nil (point : Label) (s : Step) : s.receive point [] = s :=
  if_neg fun h => nomatch h.1

theorem receive_receive (point set : Label) (sets : List Label) (s : Step) :
    (s.receive point [set]).receive point sets = s.receive point (set :: sets) := by
  unfold receive
  by_cases hset : s.label = set <;> by_cases hsets : s.label ∈ sets <;>
    by_cases hpoint : point ∈ s.members <;> simp [hset, hsets, hpoint]

theorem Extends.founders {t : Step} (h : s.Extends t) : t.founders = s.founders := by
  unfold Step.founders Step.kind Step.argument
  rw [h.construction]

theorem Extends.sets {t : Step} (h : s.Extends t) : t.sets = s.sets := by
  unfold Step.sets Step.kind Step.argument
  rw [h.construction]

/-- A made step is in the state in which a protocol takes it. -/
theorem make_eq_ok {kind : String} {payload : List (Label × Label)} (h : make l kind payload = .ok s) :
    ∃ construction, s = { label := l, construction } := by
  unfold make at h
  split at h
  next => cases h
  next k _ =>
    split at h
    · split at h
      · exact ⟨_, (Except.ok.inj h).symm⟩
      · cases h
    · cases h

end Step

namespace Protocol

variable {p q : Protocol} {s t : Step} {l : Label}

/-- An empty protocol with the indices of its next variables. -/
def fresh (freeIndex dependentIndex : Int) : Protocol := { freeIndex, dependentIndex }

/-- Makes an entry the statement under its own label, or tells why it is rejected. -/
def stateEntry (p : Protocol) (e : Entry) : Except Rejection Protocol := do
  let s ← Step.make e.label e.request.kind e.request.payload
  (p.setStatement s).mapError (rejection s)

/-- The protocol after a call; a call that fails leaves it as it was. -/
def after (p : Protocol) : Change → Protocol
  | .append e => (p.take e).toOption.getD p
  | .state e => (p.stateEntry e).toOption.getD p
  | .clear freeIndex dependentIndex => fresh freeIndex dependentIndex

/-- The labels of the points constructed on a line or circle, in the order of construction. -/
def constructedOn (p : Protocol) (set : Label) : List Label :=
  (p.steps.filter fun t => set ∈ t.sets).map Step.label

/-- What every protocol keeps: the index of a step is its position; a label finds exactly the step that
bears it; roles are played by earlier objects of an accepted category; lines and circles list the points
on which they are built and then those constructed on them, each once; and nothing fails its check. -/
structure IsSound (p : Protocol) : Prop where
  index : ∀ (i : ℕ) (s : Step), p.steps[i]? = some s → s.index = i
  labels : (p.steps.map Step.label).Nodup
  get : ∀ (l : Label) (s : Step), p.get? l = some s ↔ s ∈ p.steps ∧ s.label = l
  roles : ∀ s ∈ p.steps ++ p.statement.toList, ∀ r ∈ s.kind.spec.roles.zip s.construction.arguments,
    ∃ t ∈ p.steps, t.label = r.2 ∧ t.index < s.index ∧ r.1.2.accepts t.category = true
  members : ∀ s ∈ p.steps, s.members = s.founders ++ p.constructedOn s.label
  points : ∀ s ∈ p.steps, ∀ l ∈ s.members, ∃ t ∈ p.steps, t.label = l ∧ t.isPoint = true
  nodup : ∀ s ∈ p.steps, s.members.Nodup
  failures : p.failures = []

/-! ### Changes append -/

theorem append_of_setStatement (h : p.setStatement s = .ok q) : p.append s = .ok q := by
  unfold append
  rw [if_pos]
  · exact h
  · unfold setStatement at h
    split at h
    next hstatement => exact hstatement
    next => cases h

/-- What is done with a made step is done with a fresh one. -/
theorem exists_of_make_eq_ok {e : Entry} {f : Step → Except Reason Protocol}
    (h : (do
      let s ← Step.make e.label e.request.kind e.request.payload
      (f s).mapError (rejection s)) = .ok q) :
    ∃ construction, f { label := e.label, construction } = .ok q := by
  obtain ⟨s, hmake, h⟩ := bind_eq_ok h
  obtain ⟨construction, rfl⟩ := Step.make_eq_ok hmake
  exact ⟨construction, mapError_eq_ok h⟩

theorem appended_after (hp : Appended p) (c : Change) : Appended (p.after c) := by
  cases c with
  | append e =>
      change Appended ((p.take e).toOption.getD p)
      cases h : p.take e with
      | error r => exact hp
      | ok q =>
          obtain ⟨construction, h⟩ := exists_of_make_eq_ok h
          exact hp.append h
  | state e =>
      change Appended ((p.stateEntry e).toOption.getD p)
      cases h : p.stateEntry e with
      | error r => exact hp
      | ok q =>
          obtain ⟨construction, h⟩ := exists_of_make_eq_ok h
          exact hp.append (append_of_setStatement h)
  | clear freeIndex dependentIndex => exact .empty freeIndex dependentIndex

theorem appended_foldl_after (hp : Appended p) (calls : List Change) :
    Appended (calls.foldl after p) := by
  induction calls generalizing p with
  | nil => exact hp
  | cons c calls ih => exact ih (appended_after hp c)

/-! ### Members -/

theorem Ordered.steps_modify (hp : p.Ordered) {i : ℕ} (hi : p.position? l = some i)
    (f : Step → Step) : (p.modify i f).steps = p.steps.map fun s => if s.label = l then f s else s := by
  obtain ⟨s, hs, hlabel⟩ := position?_eq_some hi
  refine List.ext_getElem? fun j => ?_
  unfold modify
  rw [List.getElem?_modify, List.getElem?_map]
  cases ht : p.steps[j]? with
  | none => rfl
  | some t =>
      have hiff : i = j ↔ t.label = l := by
        constructor
        · rintro rfl
          rw [hs] at ht
          rw [← Option.some.inj ht]
          exact hlabel
        · intro h
          have heq := hp.eq_of_label (List.mem_of_getElem? hs) (List.mem_of_getElem? ht)
            (hlabel.trans h.symm)
          have hsi := hp.index i s hs
          have htj := hp.index j t ht
          rw [heq] at hsi
          omega
      by_cases h : t.label = l
      · simp [h, hiff.2 h]
      · simp [h, mt hiff.1 h]

theorem ne_of_position?_eq_none (h : p.position? l = none) (hs : s ∈ p.steps) : s.label ≠ l := by
  obtain ⟨i, hi⟩ := List.mem_iff_getElem?.1 hs
  unfold position? at h
  rw [Option.map_eq_none_iff, List.find?_eq_none] at h
  simpa using h (s, i) (List.mem_reverse.2 (List.mem_zipIdx_iff_getElem?.2 hi))

theorem Ordered.steps_join_singleton (hp : p.Ordered) (set : Label) :
    (p.join l [set]).steps = p.steps.map (Step.receive l [set]) := by
  unfold join
  rw [List.foldl_cons, List.foldl_nil]
  cases hset : p.position? set with
  | none =>
      refine (List.map_id p.steps).symm.trans (List.map_congr_left fun s hs => ?_)
      exact (if_neg fun h => ne_of_position?_eq_none hset hs (List.mem_singleton.1 h.1)).symm
  | some i =>
      refine (hp.steps_modify hset _).trans (List.map_congr_left fun s _ => ?_)
      unfold Step.receive
      by_cases hlabel : s.label = set <;> by_cases hl : l ∈ s.members <;> simp [hlabel, hl]

/-- A point joins each line and circle on which it was constructed, once. -/
theorem Ordered.steps_join (hp : p.Ordered) (sets : List Label) :
    (p.join l sets).steps = p.steps.map (Step.receive l sets) := by
  induction sets generalizing p with
  | nil =>
      refine (List.map_id p.steps).symm.trans (List.map_congr_left fun s _ => ?_)
      exact (Step.receive_nil l s).symm
  | cons set sets ih =>
      have hone := hp.steps_join_singleton (l := l) set
      have hordered : (p.join l [set]).Ordered :=
        hp.of_core (map_join Step.core (fun _ _ => rfl) [set])
      change ((p.join l [set]).join l sets).steps = _
      rw [ih hordered, hone, List.map_map]
      exact List.map_congr_left fun s _ => Step.receive_receive l set sets s

/-- The steps after a fresh step was taken. -/
theorem Ordered.steps_take (hp : p.Ordered) (hlabel : p.contains s.label = false)
    (hfault : p.fault? s.construction p.size = none) :
    (join { p with steps := p.steps ++ [p.taken s] } s.label s.sets).steps =
      (p.steps ++ [p.taken s]).map (Step.receive s.label s.sets) :=
  (hp.take hlabel hfault).steps_join s.sets

theorem constructedOn_of_map {f : Step → Step} (h : q.steps = p.steps.map f)
    (hf : ∀ s : Step, s.Extends (f s)) (set : Label) : q.constructedOn set = p.constructedOn set := by
  unfold constructedOn
  rw [h, List.filter_map, List.map_map]
  have hlabel : Step.label ∘ f = Step.label := funext fun s => (hf s).label
  have hsets : (fun t : Step => decide (set ∈ t.sets)) ∘ f = fun t => decide (set ∈ t.sets) :=
    funext fun s => congr_arg (fun l => decide (set ∈ l)) (hf s).sets
  rw [hlabel, hsets]

/-- A label that no step bears plays no role. -/
theorem Ordered.not_mem_arguments (hp : p.Ordered) (hl : p.contains l = false) (hs : s ∈ p.steps) :
    l ∉ s.construction.arguments := by
  intro hargument
  obtain ⟨t, ht, hlabel, -⟩ := hp.arguments s hs l hargument
  have hsome := get?_isSome ht
  rw [hlabel] at hsome
  exact absurd hsome (Bool.eq_false_iff.1 hl)

/-- Each line and circle lists the points on which it is built, and then those constructed on it. -/
def IsListed (p : Protocol) : Prop :=
  ∀ s ∈ p.steps, s.members = s.founders ++ p.constructedOn s.label

theorem constructedOn_take (hp : p.Ordered) (hlabel : p.contains s.label = false)
    (hfault : p.fault? s.construction p.size = none) (set : Label) :
    (join { p with steps := p.steps ++ [p.taken s] } s.label s.sets).constructedOn set =
      p.constructedOn set ++ if set ∈ s.sets then [s.label] else [] := by
  rw [constructedOn_of_map (p := { p with steps := p.steps ++ [p.taken s] })
    (hp.steps_take hlabel hfault) (Step.extends_receive _ _)]
  unfold constructedOn
  rw [List.filter_append, List.map_append]
  congr 1
  have htaken : (p.taken s).sets = s.sets := rfl
  rw [List.filter_singleton, htaken]
  by_cases hset : set ∈ s.sets <;> simp [hset, taken]

/-- No point is constructed yet on a line or circle that is just taken. -/
theorem Ordered.constructedOn_eq_nil (hp : p.Ordered) (hl : p.contains l = false) :
    p.constructedOn l = [] := by
  unfold constructedOn
  rw [List.map_eq_nil_iff, List.filter_eq_nil_iff]
  intro t ht hset
  exact hp.not_mem_arguments hl ht (mem_arguments_of_mem_sets (of_decide_eq_true hset))

theorem IsListed.take (hp : p.IsListed) (hordered : p.Ordered)
    (hpoints : ∀ t ∈ p.steps, s.label ∉ t.members) (hlabel : p.contains s.label = false)
    (hfault : p.fault? s.construction p.size = none) :
    (join { p with steps := p.steps ++ [p.taken s] } s.label s.sets).IsListed := by
  intro t ht
  rw [hordered.steps_take hlabel hfault] at ht
  obtain ⟨u, hu, rfl⟩ := List.mem_map.1 ht
  have hextends := Step.extends_receive s.label s.sets u
  rw [hextends.founders, hextends.label, constructedOn_take hordered hlabel hfault]
  unfold Step.receive
  rcases List.mem_append.1 hu with hu | hu
  · by_cases hset : u.label ∈ s.sets
    · rw [if_pos ⟨hset, hpoints u hu⟩, if_pos hset, ← List.append_assoc, hp u hu]
    · rw [if_neg fun h => hset h.1, if_neg hset, List.append_nil, hp u hu]
  · rw [List.mem_singleton.1 hu]
    have hself : s.label ∉ s.sets := fun hset => by
      obtain ⟨v, hv, hvl, -⟩ :=
        exists_earlier_of_fault?_eq_none hfault (mem_arguments_of_mem_sets hset)
      have hsome := get?_isSome hv
      rw [hvl] at hsome
      exact absurd hsome (Bool.eq_false_iff.1 hlabel)
    rw [if_neg fun h => hself h.1]
    change s.founders = s.founders ++ (p.constructedOn s.label ++ if s.label ∈ s.sets then _ else _)
    rw [if_neg hself, hordered.constructedOn_eq_nil hlabel, List.append_nil, List.append_nil]

/-! ### Checks -/

theorem length_knownMembers_le (h : p.Extends q) (hq : q.Ordered) (hst : s.Extends t)
    {before before' : Int} (hle : before ≤ before') :
    (p.knownMembers s before).length ≤ (q.knownMembers t before').length := by
  refine (h.knownMembers hq hst before).length_le.trans (List.Sublist.length_le ?_)
  refine List.monotone_filter_right t.members fun l hl => ?_
  cases hm : q.get? l with
  | none => simp [hm] at hl
  | some m =>
      simp only [hm, Bool.and_eq_true, decide_eq_true_eq] at hl ⊢
      exact ⟨hl.1, hl.2.trans_le hle⟩

theorem Extends.kindFault?_eq_none (h : p.Extends q) (hq : q.Ordered) (hsize : p.size ≤ q.size)
    {c : Construction}
    (hroles : ∀ r ∈ c.kind.spec.roles.zip c.arguments, ∃ t, p.get? r.2 = some t)
    (hc : p.kindFault? c = none) : q.kindFault? c = none := by
  have hdirected {point line : Label} (hline : c = .set (.parallel point line) ∨
      c = .set (.perpendicular point line)) : q.kindFault? c = none := by
    obtain ⟨base, hbase⟩ := hroles (("line", .exactly .line), line) (by
      rcases hline with rfl | rfl <;> exact List.mem_cons_of_mem _ List.mem_cons_self)
    obtain ⟨base', hbase', hextends⟩ := h.get? hq hbase
    have htwo := Protocol.kindFault?_eq_none hc hline hbase
    have hle : 2 ≤ (q.knownMembers base' q.size).length :=
      htwo.trans (length_knownMembers_le h hq hextends (by exact_mod_cast hsize))
    rcases hline with rfl | rfl <;> simp [kindFault?, hbase', Nat.not_lt.2 hle]
  cases c with
  | point rule => cases rule <;> rfl
  | statement relation => cases relation <;> rfl
  | set locus =>
      cases locus with
      | parallel point line => exact hdirected (.inl rfl)
      | perpendicular point line => exact hdirected (.inr rfl)
      | angleRayToSixty a vertex a1 o1 b1 a2 o2 b2 angle =>
          obtain ⟨t, ht⟩ := hroles (("angle", .exactly .point), angle) (by
            simp [Construction.kind, Kind.spec, Kind.points, Construction.arguments])
          obtain ⟨t', ht', hextends⟩ := h.get? hq ht
          unfold kindFault? at hc ⊢
          simp only [ht, ht'] at hc ⊢
          unfold Step.kind at hc ⊢
          rw [hextends.construction]
          exact hc
      | _ => rfl

/-- A construction without fault stays so, whatever is taken after it. -/
theorem Extends.fault?_eq_none (h : p.Extends q) (hq : q.Ordered) (hsize : p.size ≤ q.size)
    {c : Construction} {before : Int} (hc : p.fault? c before = none) :
    q.fault? c before = none := by
  obtain ⟨hroles, hdistinct, hkind⟩ := Protocol.fault?_eq_none hc
  have hkind' := h.kindFault?_eq_none hq hsize (fun r hr => (hroles r hr).imp fun t ht => ht.1) hkind
  unfold fault?
  simp only [Option.orElse_eq_orElse, Option.orElse_eq_or, Option.or_eq_none_iff,
    List.findSome?_eq_none_iff]
  refine ⟨fun r hr => ?_, hdistinct, hkind'⟩
  obtain ⟨t, ht, hlt, haccepts⟩ := hroles r hr
  obtain ⟨t', ht', hextends⟩ := h.get? hq ht
  unfold roleFault? Step.category
  unfold Step.category at haccepts
  simp only [ht', hextends.index, hextends.construction]
  rw [if_neg (by omega), if_pos haccepts]

/-- Nothing is lost when a fresh step is taken. -/
theorem Ordered.extends_take (hp : p.Ordered) (hlabel : p.contains s.label = false)
    (hfault : p.fault? s.construction p.size = none) :
    p.Extends (join { p with steps := p.steps ++ [p.taken s] } s.label s.sets) := by
  intro t ht
  refine ⟨t.receive s.label s.sets, ?_, Step.extends_receive s.label s.sets t⟩
  rw [hp.steps_take hlabel hfault]
  exact List.mem_map_of_mem (List.mem_append_left _ ht)

/-- Each step, and the statement, passed its check at its index, and still does. -/
def IsFaultless (p : Protocol) : Prop :=
  ∀ s ∈ p.steps ++ p.statement.toList, 0 ≤ s.index ∧ p.fault? s.construction s.index = none

theorem IsFaultless.take (hp : p.IsFaultless) (hordered : p.Ordered)
    (hlabel : p.contains s.label = false) (hfault : p.fault? s.construction p.size = none) :
    (join { p with steps := p.steps ++ [p.taken s] } s.label s.sets).IsFaultless := by
  have hsteps := hordered.steps_take hlabel hfault
  have hextends := hordered.extends_take hlabel hfault
  have hq : (join { p with steps := p.steps ++ [p.taken s] } s.label s.sets).Ordered :=
    (hordered.take hlabel hfault).of_core (map_join Step.core (fun _ _ => rfl) _)
  have hsize : p.size ≤ (join { p with steps := p.steps ++ [p.taken s] } s.label s.sets).size := by
    unfold size
    rw [hsteps, List.length_map, List.length_append]
    omega
  have hkeep {t : Step} (ht : 0 ≤ t.index ∧ p.fault? t.construction t.index = none) :=
    And.imp_right (hextends.fault?_eq_none hq hsize) ht
  intro t ht
  rw [statement_join] at ht
  rcases List.mem_append.1 ht with ht | ht
  · rw [hsteps] at ht
    obtain ⟨u, hu, rfl⟩ := List.mem_map.1 ht
    have hreceive := Step.extends_receive s.label s.sets u
    rw [hreceive.index, hreceive.construction]
    rcases List.mem_append.1 hu with hu | hu
    · exact hkeep (hp u (List.mem_append_left _ hu))
    · rw [List.mem_singleton.1 hu]
      exact ⟨Int.natCast_nonneg _, hextends.fault?_eq_none hq hsize hfault⟩
  · exact hkeep (hp t (List.mem_append_right _ ht))

end Protocol

namespace Appended

variable {p : Protocol}

theorem isListed (hp : Appended p) : p.IsListed := by
  induction hp with
  | empty => exact fun _ h => nomatch h
  | @append p _ label construction hp h ih =>
      rcases Protocol.append_eq_ok h with ⟨-, -, rfl⟩ | ⟨-, hlabel, hfault, rfl⟩
      · exact ih
      · refine ih.take (s := { label, construction }) hp.ordered (fun t ht hmem => ?_) hlabel hfault
        obtain ⟨u, hu, hul, -⟩ := hp.furnished.members t ht _ hmem
        have hsome := Protocol.get?_isSome hu
        rw [hul] at hsome
        exact absurd hsome (Bool.eq_false_iff.1 hlabel)

theorem isFaultless (hp : Appended p) : p.IsFaultless := by
  induction hp with
  | empty => exact fun _ h => nomatch h
  | @append p _ label construction hp h ih =>
      rcases Protocol.append_eq_ok h with ⟨-, hfault, rfl⟩ | ⟨-, hlabel, hfault, rfl⟩
      · intro s hs
        rcases List.mem_append.1 hs with hs | hs
        · exact ih s (List.mem_append_left _ hs)
        · rw [List.mem_singleton.1 hs]
          exact ⟨Int.natCast_nonneg _, hfault⟩
      · exact ih.take (s := { label, construction }) hp.ordered hlabel hfault

/-- A statement is about points of the protocol. -/
theorem exists_point_of_statement (hp : Appended p) {s : Step} (hs : p.statement = some s) {l : Label}
    (hl : l ∈ s.construction.arguments) : ∃ t ∈ p.steps, t.label = l ∧ t.isPoint = true := by
  obtain ⟨relation, hrelation⟩ := hp.construction_of_statement hs
  obtain ⟨-, hfault⟩ := hp.isFaultless s (List.mem_append_right _ (Option.mem_toList.2 hs))
  obtain ⟨role, hrole, t, ht, hlabel, -, haccepts⟩ := Protocol.exists_role_of_fault?_eq_none hfault hl
  have hpoint : role.2 = .exactly .point := by
    rw [hrelation] at hrole
    have hroles : (Construction.statement relation).kind.spec.roles =
        Kind.points (Construction.statement relation).kind.roleNames := by
      cases relation <;> rfl
    rw [hroles] at hrole
    obtain ⟨r, -, rfl⟩ := List.mem_map.1 hrole
    rfl
  exact ⟨t, ht, hlabel, Step.isPoint_of_accepts (hpoint ▸ haccepts)⟩

theorem failures_eq_nil (hp : Appended p) : p.failures = [] := by
  unfold Protocol.failures
  rw [List.filterMap_eq_nil_iff]
  intro s hs
  obtain ⟨hindex, hfault⟩ := hp.isFaultless s hs
  unfold Protocol.validate
  rw [if_pos hindex, hfault]
  rfl

/-- The points on which a line or circle is built are different. -/
theorem nodup_founders (hp : Appended p) {s : Step} (hs : s ∈ p.steps) : s.founders.Nodup := by
  have hdistinct := hp.accepted.distinct s hs
  unfold Step.founders Step.kind Step.argument
  cases hc : s.construction with
  | point rule => cases rule <;> exact List.nodup_nil
  | statement relation => cases relation <;> exact List.nodup_nil
  | set locus =>
      rw [hc] at hdistinct
      cases locus <;>
        simp_all [Protocol.distinctFault?, Construction.kind, Kind.spec, Kind.points]

/-- A point is listed once on each line and circle: it founds it, or it comes later. -/
theorem nodup_members (hp : Appended p) {s : Step} (hs : s ∈ p.steps) : s.members.Nodup := by
  rw [hp.isListed s hs, List.nodup_append]
  refine ⟨hp.nodup_founders hs, ?_, ?_⟩
  · exact (List.filter_sublist.map Step.label).nodup hp.ordered.labels
  · rintro _ hfounder _ hpoint rfl
    obtain ⟨t, ht, hlabel⟩ := List.mem_map.1 hpoint
    obtain ⟨ht, hset⟩ := List.mem_filter.1 ht
    have hlater := hp.ordered.index_lt_of_mem_sets hs ht (of_decide_eq_true hset)
    obtain ⟨role, hrole, hargument⟩ := List.mem_map.1 hfounder
    obtain ⟨u, hu, hul, hlt, -⟩ :=
      hp.accepted.roles s hs _ (s.construction.mem_zip_of_mem_members role hrole)
    have heq := hp.ordered.eq_of_label hu ht (hul.trans (hargument.trans hlabel.symm))
    rw [heq] at hlt
    omega

end Appended

/-- Whatever calls are made on a new protocol, successful or not, it stays sound. -/
theorem Protocol.isSound_foldl_after (freeIndex dependentIndex : Int) (calls : List Change) :
    (calls.foldl Protocol.after (.fresh freeIndex dependentIndex)).IsSound := by
  have hp := Protocol.appended_foldl_after (.empty freeIndex dependentIndex) calls
  refine
    { index := hp.ordered.index
      labels := hp.ordered.labels
      get := fun l s => ⟨Protocol.mem_of_get?, ?_⟩
      roles := fun s hs r hr => ?_
      members := hp.isListed
      points := hp.furnished.members
      nodup := fun s hs => hp.nodup_members hs
      failures := hp.failures_eq_nil }
  · rintro ⟨hs, rfl⟩
    exact hp.ordered.get?_eq hs
  · obtain ⟨-, hfault⟩ := hp.isFaultless s hs
    obtain ⟨t, ht, hlt, haccepts⟩ := (Protocol.fault?_eq_none hfault).1 r hr
    obtain ⟨hmem, hlabel⟩ := Protocol.mem_of_get? ht
    exact ⟨t, hmem, hlabel, hlt, haccepts⟩

end Planimetry
