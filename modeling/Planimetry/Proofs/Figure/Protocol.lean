import Mathlib
import Planimetry.Figure.Protocol
import Planimetry.Proofs.Except

/-! Protocols that grow by appending fresh steps: labels are unique, and each step is built on earlier
ones. -/

namespace Planimetry

/-- Protocols that come from an empty one by appending steps that no protocol has taken before. -/
inductive Appended : Protocol → Prop
  | empty (free dependent : Int) :
    Appended { freeIndex := free, dependentIndex := dependent }
  | append {p p' : Protocol} {label : Label} {construction : Construction} (hp : Appended p)
    (h : p.append { label, construction } = .ok p') : Appended p'

/-- Appends a construction under a label. -/
def Protocol.construct (p : Protocol) (e : Label × Construction) : Except Reason Protocol :=
  p.append { label := e.1, construction := e.2 }

/-- The protocol of some constructions under their labels, if each fits; else the empty one. -/
def Protocol.figure (entries : List (Label × Construction)) : Protocol :=
  (entries.foldlM Protocol.construct {}).toOption.getD {}

theorem appended_foldlM {entries : List (Label × Construction)} {p p' : Protocol} (hp : Appended p)
    (h : entries.foldlM Protocol.construct p = .ok p') :
    Appended p' := by
  induction entries generalizing p with
  | nil =>
      cases h
      exact hp
  | cons e entries ih =>
      rw [List.foldlM_cons] at h
      obtain ⟨q, he, h⟩ := bind_eq_ok h
      exact ih (hp.append he) h

theorem appended_figure (entries : List (Label × Construction)) :
    Appended (Protocol.figure entries) := by
  unfold Protocol.figure
  cases h : entries.foldlM Protocol.construct {} with
  | error r => exact .empty 1 1
  | ok p => exact appended_foldlM (.empty 1 1) h

/-- What a step keeps while points get coordinates and lines get members. -/
def Step.core (s : Step) : Label × Construction × Int := (s.label, s.construction, s.index)

theorem Construction.length_arguments (c : Construction) :
    c.arguments.length = c.kind.spec.roles.length := by
  cases c with
  | point rule => cases rule <;> rfl
  | set locus => cases locus <;> rfl
  | statement relation => cases relation <;> rfl

namespace Protocol

/-- Labels are unique, the index of a step is its position, and each step refers to earlier ones. -/
structure Ordered (p : Protocol) : Prop where
  labels : (p.steps.map Step.label).Nodup
  index : ∀ (i : ℕ) (s : Step), p.steps[i]? = some s → s.index = i
  arguments : ∀ s ∈ p.steps, ∀ l ∈ s.construction.arguments,
    ∃ t ∈ p.steps, t.label = l ∧ t.index < s.index

/-- Each role is played by an earlier object of the right category, and roles that must differ are played
by different ones. -/
structure Accepted (p : Protocol) : Prop where
  roles : ∀ s ∈ p.steps, ∀ r ∈ s.kind.spec.roles.zip s.construction.arguments,
    ∃ t ∈ p.steps, t.label = r.2 ∧ t.index < s.index ∧ r.1.2.accepts t.category = true
  distinct : ∀ s ∈ p.steps, distinctFault? s.construction = none

variable {p q : Protocol} {s t : Step} {l : Label}

theorem exists_core_eq (h : q.steps.map Step.core = p.steps.map Step.core) (hs : s ∈ p.steps) :
    ∃ t ∈ q.steps, t.core = s.core := by
  have hcore : s.core ∈ q.steps.map Step.core := h ▸ List.mem_map_of_mem hs
  obtain ⟨t, ht, heq⟩ := List.mem_map.1 hcore
  exact ⟨t, ht, heq⟩

theorem map_core_get? (h : q.steps.map Step.core = p.steps.map Step.core) (l : Label) :
    (q.get? l).map Step.core = (p.get? l).map Step.core := by
  have hget (r : Protocol) : (r.get? l).map Step.core =
      (r.steps.map Step.core).reverse.find? fun c => c.1 == l := by
    unfold get?
    rw [← List.map_reverse, List.find?_map]
    rfl
  rw [hget, hget, h]

theorem contains_of_core (h : q.steps.map Step.core = p.steps.map Step.core) (l : Label) :
    q.contains l = p.contains l := by
  unfold contains
  rw [← Option.isSome_map, map_core_get? h, Option.isSome_map]

theorem size_of_core (h : q.steps.map Step.core = p.steps.map Step.core) : q.size = p.size := by
  have hlength := congr_arg List.length h
  rwa [List.length_map, List.length_map] at hlength

theorem mem_of_get? (h : p.get? l = some s) : s ∈ p.steps ∧ s.label = l := by
  unfold get? at h
  refine ⟨List.mem_reverse.1 (List.mem_of_find?_eq_some h), ?_⟩
  have hlabel := List.find?_some h
  simpa using hlabel

theorem get?_isSome (h : s ∈ p.steps) : (p.get? s.label).isSome := by
  unfold get?
  rw [List.find?_isSome]
  exact ⟨s, List.mem_reverse.2 h, beq_self_eq_true _⟩

theorem Ordered.eq_of_label (hp : p.Ordered) (hs : s ∈ p.steps) (ht : t ∈ p.steps)
    (h : s.label = t.label) : s = t :=
  List.inj_on_of_nodup_map hp.labels hs ht h

/-- A line runs through two different points. -/
theorem Accepted.ne_of_lineThrough {a b : Label} (hp : p.Accepted) (hs : s ∈ p.steps)
    (h : s.construction = .set (.lineThrough a b)) : a ≠ b := by
  have hdistinct := hp.distinct s hs
  simpa [h, distinctFault?, Construction.kind, Kind.spec, Construction.argument, Kind.roleNames,
    Kind.points, Construction.arguments, List.lookup] using hdistinct

theorem Ordered.get?_eq (hp : p.Ordered) (hs : s ∈ p.steps) : p.get? s.label = some s := by
  obtain ⟨t, ht⟩ := Option.isSome_iff_exists.1 (get?_isSome hs)
  obtain ⟨hmem, hlabel⟩ := mem_of_get? ht
  rw [ht, hp.eq_of_label hmem hs hlabel]

/-- Order depends on the cores of the steps only. -/
theorem Ordered.of_core (hp : p.Ordered) (h : q.steps.map Step.core = p.steps.map Step.core) :
    q.Ordered := by
  refine ⟨?_, fun i s hs => ?_, fun s hs l hl => ?_⟩
  · have hlabels : q.steps.map Step.label = p.steps.map Step.label := by
      have hfst := congr_arg (List.map Prod.fst) h
      rwa [List.map_map, List.map_map] at hfst
    rw [hlabels]
    exact hp.labels
  · have hi : (q.steps.map Step.core)[i]? = some s.core := by
      rw [List.getElem?_map, hs]
      rfl
    rw [h, List.getElem?_map] at hi
    obtain ⟨t, ht, heq⟩ := Option.map_eq_some_iff.1 hi
    have hindex : t.index = s.index := congr_arg (fun c => c.2.2) heq
    rw [← hindex]
    exact hp.index i t ht
  · obtain ⟨t, ht, heq⟩ := exists_core_eq h.symm hs
    have hconstruction : t.construction = s.construction := congr_arg (fun c => c.2.1) heq
    have hindex : t.index = s.index := congr_arg (fun c => c.2.2) heq
    obtain ⟨u, hu, hlabel, hlt⟩ := hp.arguments t ht l (hconstruction ▸ hl)
    obtain ⟨u', hu', heq'⟩ := exists_core_eq h hu
    have hlabel' : u'.label = u.label := congr_arg Prod.fst heq'
    have hindex' : u'.index = u.index := congr_arg (fun c => c.2.2) heq'
    exact ⟨u', hu', hlabel'.trans hlabel, by omega⟩

theorem Accepted.of_core (hp : p.Accepted) (h : q.steps.map Step.core = p.steps.map Step.core) :
    q.Accepted := by
  have hsame {s t : Step} (heq : t.core = s.core) :
      t.label = s.label ∧ t.construction = s.construction ∧ t.index = s.index :=
    ⟨congr_arg Prod.fst heq, congr_arg (fun c => c.2.1) heq, congr_arg (fun c => c.2.2) heq⟩
  refine ⟨fun s hs r hr => ?_, fun s hs => ?_⟩
  · obtain ⟨t, ht, heq⟩ := exists_core_eq h.symm hs
    obtain ⟨-, hconstruction, hindex⟩ := hsame heq
    unfold Step.kind at hr
    rw [← hconstruction] at hr
    obtain ⟨u, hu, hlabel, hlt, haccepts⟩ := hp.roles t ht r hr
    obtain ⟨u', hu', heq'⟩ := exists_core_eq h hu
    obtain ⟨hlabel', hconstruction', hindex'⟩ := hsame heq'
    refine ⟨u', hu', hlabel'.trans hlabel, by omega, ?_⟩
    unfold Step.category
    rw [hconstruction']
    exact haccepts
  · obtain ⟨t, ht, heq⟩ := exists_core_eq h.symm hs
    rw [← (hsame heq).2.1]
    exact hp.distinct t ht

theorem map_modify_of_eq {β : Type} (f : Step → β) (i : ℕ) {g : Step → Step}
    (h : ∀ s, p.steps[i]? = some s → f (g s) = f s) :
    (p.modify i g).steps.map f = p.steps.map f := by
  refine List.ext_getElem? fun j => ?_
  unfold modify
  rw [List.getElem?_map, List.getElem?_map, List.getElem?_modify]
  by_cases hij : i = j
  · subst hij
    cases hs : p.steps[i]? with
    | none => simp
    | some s => simp [h s hs]
  · simp [hij]

theorem map_join {β : Type} (f : Step → β) (h : ∀ s ms, f { s with members := ms } = f s)
    (sets : List Label) : (p.join l sets).steps.map f = p.steps.map f := by
  unfold join
  induction sets generalizing p with
  | nil => rfl
  | cons set sets ih =>
      rw [List.foldl_cons, ih]
      cases p.position? set with
      | none => rfl
      | some i =>
          refine map_modify_of_eq f i fun s _ => ?_
          split
          · rfl
          · exact h s _

theorem roleFault?_eq_none {before : Int} {role : Label} {expected : Expectation}
    (h : p.roleFault? before role expected l = none) :
    ∃ t, p.get? l = some t ∧ t.index < before ∧ expected.accepts t.category = true := by
  unfold roleFault? at h
  split at h
  next => cases h
  next t ht =>
    split at h
    · cases h
    · split at h
      next hlt haccepts => exact ⟨t, ht, by omega, haccepts⟩
      next => cases h

/-- A construction without fault plays each role by an earlier object of the right category. -/
theorem fault?_eq_none {c : Construction} {before : Int} (h : p.fault? c before = none) :
    (∀ r ∈ c.kind.spec.roles.zip c.arguments,
      ∃ t, p.get? r.2 = some t ∧ t.index < before ∧ r.1.2.accepts t.category = true) ∧
      distinctFault? c = none ∧ p.kindFault? c = none := by
  unfold fault? at h
  simp only [Option.orElse_eq_orElse, Option.orElse_eq_or, Option.or_eq_none_iff,
    List.findSome?_eq_none_iff] at h
  exact ⟨fun r hr => roleFault?_eq_none (h.1 r hr), h.2⟩

/-- What a construction without fault refers to stands earlier, and may play the role that it does. -/
theorem exists_role_of_fault?_eq_none {c : Construction} {before : Int}
    (h : p.fault? c before = none) (hl : l ∈ c.arguments) :
    ∃ role ∈ c.kind.spec.roles, ∃ t ∈ p.steps, t.label = l ∧ t.index < before ∧
      role.2.accepts t.category = true := by
  obtain ⟨i, hi, rfl⟩ := List.mem_iff_getElem.1 hl
  have hroles := c.length_arguments
  have hzip : i < (c.kind.spec.roles.zip c.arguments).length := by
    rw [List.length_zip]
    omega
  obtain ⟨t, ht, hlt, haccepts⟩ := (fault?_eq_none h).1 _ (List.getElem_mem hzip)
  rw [List.getElem_zip] at ht haccepts
  obtain ⟨hmem, hlabel⟩ := mem_of_get? ht
  exact ⟨_, List.getElem_mem _, t, hmem, hlabel, hlt, haccepts⟩

theorem exists_earlier_of_fault?_eq_none {c : Construction} {before : Int}
    (h : p.fault? c before = none) (hl : l ∈ c.arguments) :
    ∃ t ∈ p.steps, t.label = l ∧ t.index < before := by
  obtain ⟨-, -, t, ht, hlabel, hlt, -⟩ := exists_role_of_fault?_eq_none h hl
  exact ⟨t, ht, hlabel, hlt⟩

/-- The step as a protocol takes it. -/
def taken (p : Protocol) (s : Step) : Step :=
  { s with index := p.size, members := s.kind.spec.members.map s.argument }

/-- A step that is taken becomes the statement or the last step. -/
theorem append_eq_ok (h : p.append s = .ok q) :
    (s.category = .statement ∧ p.fault? s.construction p.size = none ∧
      q = { p with statement := some { s with index := p.size } }) ∨
    (s.category ≠ .statement ∧ p.contains s.label = false ∧
      p.fault? s.construction p.size = none ∧
      q = join { p with steps := p.steps ++ [p.taken s] } s.label
        (s.kind.spec.onSets.map s.argument)) := by
  unfold append at h
  split at h
  next hstatement =>
    unfold setStatement at h
    rw [if_pos hstatement] at h
    split at h
    next => cases h
    next hfault => exact .inl ⟨hstatement, hfault, (Except.ok.inj h).symm⟩
  next hstatement =>
    split at h
    next => cases h
    next hlabel =>
      split at h
      next => cases h
      next hfault =>
        exact .inr ⟨hstatement, Bool.eq_false_iff.2 hlabel, hfault, (Except.ok.inj h).symm⟩

theorem Ordered.take (hp : p.Ordered) (hlabel : p.contains s.label = false)
    (hfault : p.fault? s.construction p.size = none) :
    Ordered { p with steps := p.steps ++ [p.taken s] } where
  labels := by
    rw [List.map_append, List.nodup_append]
    refine ⟨hp.labels, List.nodup_singleton _, ?_⟩
    intro a ha b hb hab
    rw [List.map_singleton, List.mem_singleton] at hb
    obtain ⟨t, ht, rfl⟩ := List.mem_map.1 ha
    have hsome := get?_isSome ht
    rw [hab, hb] at hsome
    exact absurd hsome (Bool.eq_false_iff.1 hlabel)
  index := by
    intro i t ht
    rcases Nat.lt_or_ge i p.steps.length with hi | hi
    · rw [List.getElem?_append_left hi] at ht
      exact hp.index i t ht
    · rw [List.getElem?_append_right hi] at ht
      obtain ⟨hi', hlast⟩ := List.getElem?_eq_some_iff.1 ht
      rw [List.length_singleton] at hi'
      have heq : i = p.steps.length := by omega
      subst heq
      rw [← hlast]
      simp [taken, size]
  arguments := by
    intro t ht l hl
    rcases List.mem_append.1 ht with ht | ht
    · obtain ⟨u, hu, hul, hlt⟩ := hp.arguments t ht l hl
      exact ⟨u, List.mem_append_left _ hu, hul, hlt⟩
    · rw [List.mem_singleton.1 ht] at hl ⊢
      obtain ⟨u, hu, hul, hlt⟩ := exists_earlier_of_fault?_eq_none hfault hl
      exact ⟨u, List.mem_append_left _ hu, hul, hlt⟩

theorem Accepted.take (hp : p.Accepted) (hfault : p.fault? s.construction p.size = none) :
    Accepted { p with steps := p.steps ++ [p.taken s] } := by
  obtain ⟨hroles, hdistinct, -⟩ := fault?_eq_none hfault
  refine ⟨fun t ht r hr => ?_, fun t ht => ?_⟩
  · rcases List.mem_append.1 ht with ht | ht
    · obtain ⟨u, hu, hul, hlt, haccepts⟩ := hp.roles t ht r hr
      exact ⟨u, List.mem_append_left _ hu, hul, hlt, haccepts⟩
    · rw [List.mem_singleton.1 ht] at hr ⊢
      obtain ⟨u, hu, hlt, haccepts⟩ := hroles r hr
      obtain ⟨hmem, hlabel⟩ := mem_of_get? hu
      exact ⟨u, List.mem_append_left _ hmem, hlabel, hlt, haccepts⟩
  · rcases List.mem_append.1 ht with ht | ht
    · exact hp.distinct t ht
    · rw [List.mem_singleton.1 ht]
      exact hdistinct

end Protocol

theorem Protocol.statement_join (p : Protocol) (l : Label) (sets : List Label) :
    (p.join l sets).statement = p.statement := by
  unfold Protocol.join
  induction sets generalizing p with
  | nil => rfl
  | cons set sets ih =>
      rw [List.foldl_cons, ih]
      cases p.position? set <;> rfl

theorem Step.construction_of_category {s : Step} (h : s.category = .statement) :
    ∃ relation, s.construction = .statement relation := by
  unfold Step.category at h
  cases hc : s.construction with
  | point rule =>
      rw [hc] at h
      cases rule <;> cases h
  | set locus =>
      rw [hc] at h
      cases locus <;> cases h
  | statement relation => exact ⟨relation, rfl⟩

namespace Appended

variable {p : Protocol}

theorem ordered (hp : Appended p) : p.Ordered := by
  induction hp with
  | empty =>
      refine ⟨List.nodup_nil, fun i s h => ?_, fun s h => ?_⟩
      · simp at h
      · cases h
  | append hp h ih =>
      rcases Protocol.append_eq_ok h with ⟨-, -, rfl⟩ | ⟨-, hlabel, hfault, rfl⟩
      · exact ⟨ih.labels, ih.index, ih.arguments⟩
      · exact (ih.take hlabel hfault).of_core (Protocol.map_join Step.core (fun _ _ => rfl) _)

theorem accepted (hp : Appended p) : p.Accepted := by
  induction hp with
  | empty => exact ⟨fun _ h => (nomatch h), fun _ h => (nomatch h)⟩
  | append hp h ih =>
      rcases Protocol.append_eq_ok h with ⟨-, -, rfl⟩ | ⟨-, -, hfault, rfl⟩
      · exact ⟨ih.roles, ih.distinct⟩
      · exact (ih.take hfault).of_core (Protocol.map_join Step.core (fun _ _ => rfl) _)

/-- No point has coordinates yet. -/
theorem unplaced (hp : Appended p) : ∀ s ∈ p.steps, s.placement = {} := by
  induction hp with
  | empty => exact fun s h => nomatch h
  | append hp h ih =>
      rcases Protocol.append_eq_ok h with ⟨-, -, rfl⟩ | ⟨-, -, -, rfl⟩
      · exact ih
      · intro s hs
        have hmem := List.mem_map_of_mem (f := Step.placement) hs
        rw [Protocol.map_join Step.placement (fun _ _ => rfl), List.map_append,
          List.mem_append] at hmem
        rcases hmem with hmem | hmem
        · obtain ⟨t, ht, heq⟩ := List.mem_map.1 hmem
          rw [← heq]
          exact ih t ht
        · exact List.mem_singleton.1 hmem

theorem construction_of_statement (hp : Appended p) {s : Step} (hs : p.statement = some s) :
    ∃ relation, s.construction = .statement relation := by
  induction hp generalizing s with
  | empty => cases hs
  | @append p _ label construction hp h ih =>
      rcases Protocol.append_eq_ok h with ⟨hcategory, -, rfl⟩ | ⟨-, -, -, rfl⟩
      · cases hs
        exact Step.construction_of_category hcategory
      · rw [Protocol.statement_join] at hs
        exact ih hs

end Appended
end Planimetry
