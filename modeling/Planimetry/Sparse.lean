/-! Finitely supported functions: key-value entries in strictly increasing key order, none of them zero. -/

namespace Planimetry

/-- A function from keys to values that is zero outside finitely many keys. -/
structure Sparse (κ α : Type) [Ord κ] [OfNat α (nat_lit 0)] where
  entries : List (κ × α)
  ascending : entries.Pairwise fun s t => compare s.1 t.1 = .lt
  nonzero : ∀ t ∈ entries, t.2 ≠ 0
  deriving DecidableEq

namespace Sparse

variable {κ α : Type} [Ord κ] [OfNat α (nat_lit 0)]

@[ext] theorem ext {p q : Sparse κ α} (h : p.entries = q.entries) : p = q := by
  cases p
  cases q
  simpa only [mk.injEq] using h

instance : Zero (Sparse κ α) := ⟨⟨[], .nil, fun _ h => nomatch h⟩⟩

instance : Inhabited (Sparse κ α) := ⟨0⟩

/-- The number of keys with a nonzero value. -/
def size (p : Sparse κ α) : Nat := p.entries.length

def isZero (p : Sparse κ α) : Bool := p.entries.isEmpty

def keys (p : Sparse κ α) : List κ := p.entries.map Prod.fst

/-- The value at a key. -/
def get (p : Sparse κ α) (k : κ) : α :=
  match p.entries.find? fun t => compare t.1 k == .eq with
  | some t => t.2
  | none => 0

/-- The function with value `c` at `k` and zero elsewhere. -/
def single [DecidableEq α] (k : κ) (c : α) : Sparse κ α :=
  if h : c = 0 then 0
  else ⟨[(k, c)], by simp, fun t ht => by simpa only [List.mem_singleton.1 ht] using h⟩

/-- The entries whose key satisfies a test. -/
def filter (keep : κ → Bool) (p : Sparse κ α) : Sparse κ α :=
  ⟨p.entries.filter fun t => keep t.1, p.ascending.filter _,
    fun t ht => p.nonzero t (List.mem_filter.1 ht).1⟩

section Merge

variable [Add α] [DecidableEq α]

/-- Merges two ascending entry lists, adding the values of a common key. -/
def merge : List (κ × α) → List (κ × α) → List (κ × α)
  | [], ys => ys
  | xs, [] => xs
  | (k, c) :: xs, (l, d) :: ys =>
    match compare k l with
    | .lt => (k, c) :: merge xs ((l, d) :: ys)
    | .gt => (l, d) :: merge ((k, c) :: xs) ys
    | .eq => if c + d = 0 then merge xs ys else (k, c + d) :: merge xs ys
termination_by xs ys => xs.length + ys.length

/-- The merge of two lists behind the reversed entries that precede it, in constant stack space. -/
def mergeOnto (done : List (κ × α)) : List (κ × α) → List (κ × α) → List (κ × α)
  | [], ys => done.reverseAux ys
  | xs, [] => done.reverseAux xs
  | (k, c) :: xs, (l, d) :: ys =>
    match compare k l with
    | .lt => mergeOnto ((k, c) :: done) xs ((l, d) :: ys)
    | .gt => mergeOnto ((l, d) :: done) ((k, c) :: xs) ys
    | .eq => if c + d = 0 then mergeOnto done xs ys else mergeOnto ((k, c + d) :: done) xs ys
termination_by xs ys => xs.length + ys.length

theorem mergeOnto_eq (done xs ys : List (κ × α)) :
    mergeOnto done xs ys = done.reverse ++ merge xs ys := by
  fun_induction mergeOnto done xs ys <;> simp_all [merge, List.reverseAux_eq]

/-- What holds of the keys of both lists holds of the keys of their merge. -/
theorem forall_key_merge (P : κ → Prop) {xs ys : List (κ × α)} (hx : ∀ t ∈ xs, P t.1)
    (hy : ∀ t ∈ ys, P t.1) : ∀ t ∈ merge xs ys, P t.1 := by
  fun_induction merge xs ys <;> simp_all only [List.forall_mem_cons, implies_true, and_self]

theorem nonzero_merge {xs ys : List (κ × α)} (hx : ∀ t ∈ xs, t.2 ≠ 0) (hy : ∀ t ∈ ys, t.2 ≠ 0) :
    ∀ t ∈ merge xs ys, t.2 ≠ 0 := by
  fun_induction merge xs ys <;>
    simp_all only [List.forall_mem_cons, ne_eq, implies_true, and_self, not_false_eq_true]

theorem ascending_merge [Std.TransOrd κ] [Std.LawfulEqOrd κ] {xs ys : List (κ × α)}
    (hx : xs.Pairwise fun s t => compare s.1 t.1 = .lt)
    (hy : ys.Pairwise fun s t => compare s.1 t.1 = .lt) :
    (merge xs ys).Pairwise fun s t => compare s.1 t.1 = .lt := by
  fun_induction merge xs ys with
  | case1 ys => exact hy
  | case2 xs => exact hx
  | case3 k c xs l d ys hlt ih =>
    rw [List.pairwise_cons] at hx
    refine .cons (forall_key_merge (compare k · = .lt) hx.1 ?_) (ih hx.2 hy)
    rw [List.pairwise_cons] at hy
    exact List.forall_mem_cons.2 ⟨hlt, fun t ht => Std.TransCmp.lt_trans hlt (hy.1 t ht)⟩
  | case4 k c xs l d ys hgt ih =>
    rw [List.pairwise_cons] at hy
    have hlt : compare l k = .lt := Std.OrientedCmp.lt_of_gt hgt
    refine .cons (forall_key_merge (compare l · = .lt) ?_ hy.1) (ih hx hy.2)
    rw [List.pairwise_cons] at hx
    exact List.forall_mem_cons.2 ⟨hlt, fun t ht => Std.TransCmp.lt_trans hlt (hx.1 t ht)⟩
  | case5 k c xs l d ys heq hz ih =>
    exact ih hx.of_cons hy.of_cons
  | case6 k c xs l d ys heq hz ih =>
    rw [List.pairwise_cons] at hx hy
    have hkl : k = l := Std.LawfulEqOrd.eq_of_compare heq
    exact .cons (forall_key_merge (compare k · = .lt) hx.1 (hkl ▸ hy.1)) (ih hx.2 hy.2)

variable [Std.TransOrd κ] [Std.LawfulEqOrd κ]

/-- The pointwise sum. -/
def add (p q : Sparse κ α) : Sparse κ α :=
  ⟨mergeOnto [] p.entries q.entries,
    by simpa only [mergeOnto_eq, List.reverse_nil, List.nil_append] using
      ascending_merge p.ascending q.ascending,
    by simpa only [mergeOnto_eq, List.reverse_nil, List.nil_append] using
      nonzero_merge p.nonzero q.nonzero⟩

instance : Add (Sparse κ α) := ⟨add⟩

theorem entries_add (p q : Sparse κ α) : (p + q).entries = merge p.entries q.entries :=
  mergeOnto_eq [] p.entries q.entries

/-- Adds a summand to a stack of partial sums whose sizes grow like a binary counter. -/
def carry (p : Sparse κ α) : List (Option (Sparse κ α)) → List (Option (Sparse κ α))
  | [] => [some p]
  | none :: rest => some p :: rest
  | some q :: rest => none :: carry (q + p) rest

/-- The sum of a list, added in a balanced way. -/
def sum (ps : List (Sparse κ α)) : Sparse κ α :=
  (ps.foldl (fun stack p => carry p stack) []).foldl
    (fun total part => match part with
      | some p => p + total
      | none => total) 0

/-- The function that adds up the values listed for each key. -/
def ofList (ts : List (κ × α)) : Sparse κ α := sum (ts.map fun t => single t.1 t.2)

end Merge
end Sparse
end Planimetry
