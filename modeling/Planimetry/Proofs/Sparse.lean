import Mathlib.Algebra.BigOperators.Group.List.Basic
import Mathlib.Data.List.Sort
import Planimetry.Sparse

/-! Sparse functions as sums over their entries, and as functions of their keys. -/

namespace Planimetry.Sparse

variable {κ α M : Type} [Ord κ] [OfNat α (nat_lit 0)] [AddCommMonoid M]

/-- A reading of entries that is additive in the value. -/
structure IsAdditive [Add α] (f : κ → α → M) : Prop where
  zero (k : κ) : f k 0 = 0
  add (k : κ) (a b : α) : f k (a + b) = f k a + f k b

/-- The sum of what the entries contribute. -/
def total (f : κ → α → M) (p : Sparse κ α) : M := (p.entries.map fun t => f t.1 t.2).sum

@[simp] theorem total_zero (f : κ → α → M) : (0 : Sparse κ α).total f = 0 := rfl

theorem isZero_iff {p : Sparse κ α} : p.isZero = true ↔ p = 0 := by
  refine ⟨fun h => ext (List.isEmpty_iff.1 h), ?_⟩
  rintro rfl
  rfl

theorem total_filter (f : κ → α → M) (keep : κ → Bool) (p : Sparse κ α) :
    (p.filter keep).total f = p.total fun k a => if keep k then f k a else 0 := by
  obtain ⟨ts, _, _⟩ := p
  simp only [filter, total]
  induction ts with
  | nil => rfl
  | cons t ts ih =>
      have ih := ih (List.Pairwise.of_cons ‹_›) (List.forall_mem_cons.1 ‹_›).2
      cases h : keep t.1 <;> simp [h, ih]

section Merge

variable [Add α] [DecidableEq α]

theorem total_single {f : κ → α → M} (hf : IsAdditive f) (k : κ) (c : α) :
    (single k c).total f = f k c := by
  unfold single total
  split
  next h => rw [h, hf.zero]; rfl
  next => simp only [List.map_cons, List.map_nil, List.sum_cons, List.sum_nil, add_zero]

variable [Std.LawfulEqOrd κ]

theorem sum_map_merge {f : κ → α → M} (hf : IsAdditive f) (xs ys : List (κ × α)) :
    ((merge xs ys).map fun t => f t.1 t.2).sum =
      (xs.map fun t => f t.1 t.2).sum + (ys.map fun t => f t.1 t.2).sum := by
  fun_induction merge xs ys with
  | case1 ys => simp only [List.map_nil, List.sum_nil, zero_add]
  | case2 xs => simp only [List.map_nil, List.sum_nil, add_zero]
  | case3 k c xs l d ys hlt ih => simp only [List.map_cons, List.sum_cons, ih, add_assoc]
  | case4 k c xs l d ys hgt ih =>
      simp only [List.map_cons, List.sum_cons, ih]
      exact add_left_comm _ _ _
  | case5 k c xs l d ys heq hz ih =>
      have hkl : k = l := Std.LawfulEqOrd.eq_of_compare heq
      have hcd : f l c + f l d = 0 := by rw [← hf.add, hz, hf.zero]
      simp only [List.map_cons, List.sum_cons, ih, hkl]
      rw [add_add_add_comm, hcd, zero_add]
  | case6 k c xs l d ys heq hz ih =>
      have hkl : k = l := Std.LawfulEqOrd.eq_of_compare heq
      simp only [List.map_cons, List.sum_cons, ih, hkl, hf.add]
      exact add_add_add_comm _ _ _ _

variable [Std.TransOrd κ]

theorem total_add {f : κ → α → M} (hf : IsAdditive f) (p q : Sparse κ α) :
    (p + q).total f = p.total f + q.total f := by
  unfold total
  rw [entries_add, sum_map_merge hf]

/-- What the partial sums on a stack contribute. -/
def stackTotal (f : κ → α → M) (stack : List (Option (Sparse κ α))) : M :=
  (stack.map fun part => part.elim 0 (total f)).sum

theorem stackTotal_carry {f : κ → α → M} (hf : IsAdditive f) (p : Sparse κ α)
    (stack : List (Option (Sparse κ α))) :
    stackTotal f (carry p stack) = p.total f + stackTotal f stack := by
  unfold stackTotal
  fun_induction carry p stack with
  | case1 p => rfl
  | case2 p rest => simp only [List.map_cons, List.sum_cons, Option.elim, zero_add]
  | case3 p q rest ih =>
      simp only [List.map_cons, List.sum_cons, Option.elim, zero_add] at ih ⊢
      rw [ih, total_add hf, add_comm (q.total f), add_assoc]

theorem stackTotal_foldl_carry {f : κ → α → M} (hf : IsAdditive f) (ps : List (Sparse κ α))
    (stack : List (Option (Sparse κ α))) :
    stackTotal f (ps.foldl (fun stack p => carry p stack) stack) =
      (ps.map (total f)).sum + stackTotal f stack := by
  induction ps generalizing stack with
  | nil => simp only [List.foldl_nil, List.map_nil, List.sum_nil, zero_add]
  | cons p ps ih =>
      rw [List.foldl_cons, ih, stackTotal_carry hf, List.map_cons, List.sum_cons, add_left_comm,
        add_assoc]

theorem total_foldl_stack {f : κ → α → M} (hf : IsAdditive f)
    (stack : List (Option (Sparse κ α))) (p : Sparse κ α) :
    (stack.foldl (fun total part => match part with
      | some p => p + total
      | none => total) p).total f = stackTotal f stack + p.total f := by
  induction stack generalizing p with
  | nil => simp only [List.foldl_nil, stackTotal, List.map_nil, List.sum_nil, zero_add]
  | cons part stack ih =>
      rw [List.foldl_cons, ih]
      cases part with
      | none => simp only [stackTotal, List.map_cons, List.sum_cons, Option.elim, zero_add]
      | some q =>
          simp only [stackTotal, List.map_cons, List.sum_cons, Option.elim, total_add hf]
          rw [add_left_comm, add_assoc]

theorem total_sum {f : κ → α → M} (hf : IsAdditive f) (ps : List (Sparse κ α)) :
    (sum ps).total f = (ps.map (total f)).sum := by
  unfold sum
  refine (total_foldl_stack hf _ _).trans ?_
  rw [stackTotal_foldl_carry hf]
  simp only [stackTotal, List.map_nil, List.sum_nil, add_zero, total_zero]

theorem total_ofList {f : κ → α → M} (hf : IsAdditive f) (ts : List (κ × α)) :
    (ofList ts).total f = (ts.map fun t => f t.1 t.2).sum := by
  rw [ofList, total_sum hf, List.map_map]
  simp only [Function.comp_def, total_single hf]

end Merge

theorem nodup_keys [Std.ReflOrd κ] (p : Sparse κ α) : p.keys.Nodup := by
  refine List.pairwise_map.2 (p.ascending.imp fun hlt heq => ?_)
  rw [heq, Std.ReflOrd.compare_self] at hlt
  cases hlt

theorem nodup_entries [Std.ReflOrd κ] (p : Sparse κ α) : p.entries.Nodup :=
  .of_map Prod.fst p.nodup_keys

/-- The order of the entries is determined. -/
theorem eq_of_perm [Std.TransOrd κ] {p q : Sparse κ α} (h : p.entries.Perm q.entries) : p = q := by
  refine ext (h.eq_of_pairwise (fun s t _ _ hst hts => ?_) p.ascending q.ascending)
  have hgt := Std.OrientedCmp.gt_of_lt hst
  rw [hts] at hgt
  cases hgt

section Get

variable [Std.LawfulEqOrd κ]

theorem get_eq_of_mem {p : Sparse κ α} {k : κ} {a : α} (h : (k, a) ∈ p.entries) : p.get k = a := by
  obtain ⟨ts, hasc, _⟩ := p
  change (k, a) ∈ ts at h
  unfold get
  induction ts with
  | nil => cases h
  | cons t ts ih =>
      rw [List.pairwise_cons] at hasc
      rcases List.mem_cons.1 h with rfl | h
      · simp [List.find?, Std.ReflCmp.compare_self]
      · have hlt := hasc.1 _ h
        have hne : (compare t.1 k == .eq) = false := by rw [hlt]; rfl
        have hnonzero := (List.forall_mem_cons.1 ‹_›).2
        simpa only [List.find?, hne] using ih hasc.2 hnonzero h

theorem mem_of_get_ne_zero {p : Sparse κ α} {k : κ} (h : p.get k ≠ 0) :
    (k, p.get k) ∈ p.entries := by
  unfold get at h ⊢
  cases hfind : p.entries.find? fun t => compare t.1 k == .eq with
  | none => simp [hfind] at h
  | some t =>
      have hkey : t.1 = k := by
        have hcmp := List.find?_some hfind
        exact Std.LawfulEqOrd.eq_of_compare (beq_iff_eq.1 hcmp)
      have hmem := List.mem_of_find?_eq_some hfind
      rw [← hkey]
      exact hmem

theorem mem_entries {p : Sparse κ α} {k : κ} {a : α} :
    (k, a) ∈ p.entries ↔ p.get k = a ∧ a ≠ 0 := by
  refine ⟨fun h => ⟨get_eq_of_mem h, p.nonzero _ h⟩, ?_⟩
  rintro ⟨rfl, h⟩
  exact mem_of_get_ne_zero h

/-- A reading that sees one key only gives what it reads off the value there. -/
theorem total_eq_get {f : κ → α → M} {k : κ} (h0 : f k 0 = 0) (hf : ∀ l a, l ≠ k → f l a = 0)
    (p : Sparse κ α) : p.total f = f k (p.get k) := by
  obtain ⟨ts, hasc, hnz⟩ := p
  unfold total get
  induction ts with
  | nil => exact h0.symm
  | cons t ts ih =>
      have ih := ih hasc.of_cons (List.forall_mem_cons.1 hnz).2
      rw [List.pairwise_cons] at hasc
      simp only [List.map_cons, List.sum_cons, List.find?_cons] at ih ⊢
      by_cases h : t.1 = k
      · subst h
        have hrest : (ts.map fun s => f s.1 s.2).sum = 0 := by
          refine List.sum_eq_zero fun x hx => ?_
          obtain ⟨s, hs, rfl⟩ := List.mem_map.1 hx
          refine hf _ _ fun heq => absurd (hasc.1 s hs) ?_
          simp [heq, Std.ReflCmp.compare_self]
        simp only [hrest, add_zero, Std.ReflCmp.compare_self, beq_self_eq_true]
      · have hne : (compare t.1 k == .eq) = false :=
          beq_false_of_ne fun heq => h (Std.LawfulEqOrd.eq_of_compare heq)
        simp only [ih, hf _ _ h, zero_add, hne]

/-- The keys of a list are those of its entries. -/
theorem exists_key_ofList [Std.TransOrd κ] [DecidableEq κ] [DecidableEq M] {ts : List (κ × M)}
    {t : κ × M} (ht : t ∈ (ofList ts).entries) : ∃ u ∈ ts, u.1 = t.1 := by
  by_contra hne
  push Not at hne
  have hadditive : IsAdditive fun k (a : M) => if k = t.1 then a else 0 := by
    refine ⟨fun k => ite_self 0, fun k a b => ?_⟩
    split
    · rfl
    · exact (add_zero 0).symm
  have hread := total_eq_get (f := fun k (a : M) => if k = t.1 then a else 0) (ite_self 0)
    (fun _ _ h => if_neg h) (ofList ts)
  rw [if_pos rfl, total_ofList hadditive, List.sum_eq_zero fun x hx => ?_] at hread
  · exact (ofList ts).nonzero t ht ((get_eq_of_mem ht).symm.trans hread.symm)
  · obtain ⟨u, hu, rfl⟩ := List.mem_map.1 hx
    exact if_neg (hne u hu)

omit [Std.LawfulEqOrd κ] in
theorem forall_key_single {P : κ → Prop} {k : κ} {c : α} [DecidableEq α] (h : P k) :
    ∀ t ∈ (single k c).entries, P t.1 := by
  intro t ht
  unfold single at ht
  split at ht
  next => cases ht
  next => exact List.mem_singleton.1 ht ▸ h

theorem forall_key_ofList [Std.TransOrd κ] [DecidableEq κ] [DecidableEq M] {P : κ → Prop}
    {ts : List (κ × M)} (h : ∀ t ∈ ts, P t.1) : ∀ t ∈ (ofList ts).entries, P t.1 := by
  intro t ht
  obtain ⟨u, hu, heq⟩ := exists_key_ofList ht
  exact heq ▸ h u hu

/-- A sparse function is determined by its values. -/
theorem eq_of_get [Std.TransOrd κ] {p q : Sparse κ α} (h : ∀ k, p.get k = q.get k) : p = q := by
  refine eq_of_perm ((List.perm_ext_iff_of_nodup p.nodup_entries q.nodup_entries).2 fun t => ?_)
  rw [← Prod.mk.eta (p := t), mem_entries, mem_entries, h]

/-- Entries with different keys are those of a sparse function, up to their order. -/
theorem exists_perm_entries [Std.TransOrd κ] {ts : List (κ × α)} (hkeys : (ts.map Prod.fst).Nodup)
    (hnonzero : ∀ t ∈ ts, t.2 ≠ 0) : ∃ p : Sparse κ α, p.entries.Perm ts := by
  let le (s t : κ × α) : Bool := (compare s.1 t.1).isLE
  have hperm : (ts.mergeSort le).Perm ts := List.mergeSort_perm ts le
  have hle : (ts.mergeSort le).Pairwise fun s t => le s t = true := by
    apply List.pairwise_mergeSort
    · exact fun _ _ _ => Std.TransCmp.isLE_trans
    · intro s t
      simp only [le, Std.OrientedOrd.eq_swap (a := t.1)]
      cases compare s.1 t.1 <;> rfl
  have hne := List.pairwise_map.1 ((hperm.map Prod.fst).nodup_iff.2 hkeys)
  refine ⟨⟨ts.mergeSort le, (hle.and hne).imp fun {s t} h => ?_, fun t ht => ?_⟩, hperm⟩
  · exact Std.OrientedCmp.lt_of_not_isLE fun hge =>
      h.2 (Std.LawfulEqOrd.eq_of_compare (Std.OrientedCmp.isLE_antisymm h.1 hge))
  · exact hnonzero t (hperm.mem_iff.1 ht)

end Get
end Planimetry.Sparse
