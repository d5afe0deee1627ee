import Planimetry.Area.Proof

/-! Proofs by the area method in a form that runs by structural recursion alone. The library sorts and merges
lists by recursion on a well-founded relation, where reduction stops; here the labels of a statement are only
looked up, and factors are merged by recursion on one list and then on the other. -/

namespace Planimetry.Area

namespace Expansion

/-- Puts a factor into a list in front of the first one that is not before it. -/
def insertFactor (q : Quantity) (merge : Factors → Factors) : Factors → Factors
  | [] => q :: merge []
  | r :: g => if (compare q r).isLE then q :: merge (r :: g) else r :: insertFactor q merge g

/-- The factors of two products in one ascending list. -/
def mergeFactors : Factors → Factors → Factors
  | [], g => g
  | q :: f, g => insertFactor q (mergeFactors f) g

theorem mulFactors_eq (f g : Factors) : mulFactors f g = mergeFactors f g := by
  unfold mulFactors
  induction f generalizing g with
  | nil => simp [mergeFactors]
  | cons q f ih =>
      unfold mergeFactors
      induction g with
      | nil => simp [insertFactor, ← ih]
      | cons r g ihg => rw [List.cons_merge_cons, insertFactor, ih, ihg]

def mulMerged (s t : Expansion) : Expansion :=
  Sparse.ofList (s.entries.flatMap fun a => t.entries.map fun b => (mergeFactors a.1 b.1, a.2 * b.2))

theorem mul_eq (s t : Expansion) : s.mul t = s.mulMerged t := by
  simp only [mul, mulMerged, mulFactors_eq]

end Expansion

namespace Expr

/-- Expands an expression, with products by structural recursion. -/
def expandMerged : Expr → Except Error Expansion
  | .number q => .ok (Expansion.constant q)
  | .atom q => Expansion.ofQuantity q
  | .add l r => return (← l.expandMerged) + (← r.expandMerged)
  | .sub l r => return (← l.expandMerged).sub (← r.expandMerged)
  | .neg e => return (← e.expandMerged).neg
  | .mul l r => return (← l.expandMerged).mulMerged (← r.expandMerged)
  | .div n d => do
    let s ← d.expandMerged
    if !s.isConstant then .error (.openDenominator d)
    else if s.constantValue = 0 then .error (.vanishingDenominator (Expr.div n d).text)
    else return (← n.expandMerged).scale (1 / s.constantValue)
  | .elim _ p => .error (.pending p)

theorem expand_eq (e : Expr) : e.expand = e.expandMerged := by
  induction e <;> simp_all [expand, expandMerged, Expansion.mul_eq]

def normalFormMerged (e : Expr) : Except Error Expansion := e.numerator.rightAssociative.expandMerged

theorem normalForm_eq (e : Expr) : e.normalForm = e.normalFormMerged := e.numerator.rightAssociative.expand_eq

end Expr

namespace Prover

variable {m : Prover} {p : Protocol} {st : Step} {e : Expr} {s : Progress}

def denominatorPolynomialMerged (m : Prover) (point : Label) (e : Expr) : Proving Polynomial := do
  let (e, _) ← m.eliminateConstructed e (some point)
  m.toPolynomial (← e.normalFormMerged)

def denominatorPolynomialsMerged (m : Prover) (point : Label) : List Expr → Proving (List Polynomial)
  | [] => return []
  | e :: es => do
    let q ← m.denominatorPolynomialMerged point e
    let qs ← m.denominatorPolynomialsMerged point es
    return if q.isConstant then qs else q :: qs

def denominatorsFromMerged (m : Prover) : Nat → Nat → Proving (List Polynomial)
  | 0, _ => return []
  | n + 1, position => do
    match (← get).used[position]? with
    | none => return []
    | some point =>
      let qs ← m.denominatorPolynomialsMerged point (m.context.denominators point)
      return qs ++ (← m.denominatorsFromMerged n (position + 1))

theorem denominatorPolynomials_eq (point : Label) (es : List Expr) :
    m.denominatorPolynomials point es = m.denominatorPolynomialsMerged point es := by
  induction es with
  | nil => rfl
  | cons e es ih =>
      simp only [denominatorPolynomials, denominatorPolynomialsMerged, denominatorPolynomial,
        denominatorPolynomialMerged, Expr.normalForm_eq, ih]

theorem denominatorsFrom_eq (n position : Nat) :
    m.denominatorsFrom n position = m.denominatorsFromMerged n position := by
  induction n generalizing position with
  | zero => rfl
  | succ n ih =>
      simp only [denominatorsFrom, denominatorPolynomials_eq, ih]
      rfl

/-- Decides an expression, with the expanded forms by structural recursion. -/
def proveMerged (m : Prover) (e : Expr) : Proving Proof := do
  let (e, trace) ← m.eliminateConstructed e none
  let form ← e.normalFormMerged
  Proving.report ⟨.info, .areaProver,
    "Area method normal form has " ++ toString form.size ++ " term(s)"⟩
  let polynomial ← if form.isZero then pure none else some <$> m.toPolynomial form
  let holds := polynomial.all Sparse.isZero
  return ⟨holds, form, polynomial, trace, ← m.denominatorsFromMerged m.context.order.length 0⟩

theorem prove_eq (statement : Option Statement) :
    m.prove statement = (do m.proveMerged (← start (← get).protocol statement)) := by
  simp only [prove, proveMerged, nondegenerate, denominatorsFrom_eq, Expr.normalForm_eq]

theorem start_eq_ok_of_mem (hst : p.statement = some st)
    (he : Statement.ofConstruction st.construction = .ok e)
    (hlabels : ∀ l ∈ e.labels, p.contains l = true) : start p none = .ok e := by
  have hpoints : (e.points.filter fun l => !p.contains l) = [] := by
    refine List.filter_eq_nil_iff.2 fun l hl => ?_
    have hmem : l ∈ e.labels := List.mem_eraseDups.1 (List.mem_mergeSort.1 hl)
    simp [hlabels l hmem]
  simp only [start, hst, he, hpoints, bind, Except.bind]
  rfl

/-- A proof of the statement of a protocol, which is about steps of the protocol. -/
theorem run_prove (hst : s.protocol.statement = some st)
    (he : Statement.ofConstruction st.construction = .ok e)
    (hlabels : ∀ l ∈ e.labels, s.protocol.contains l = true) :
    (m.prove none).run s = (m.proveMerged e).run s := by
  have hstart := start_eq_ok_of_mem hst he hlabels
  rw [prove_eq]
  change ((liftM (start s.protocol none) : Proving Expr) >>= m.proveMerged).run s = _
  rw [hstart]
  rfl

end Prover
end Planimetry.Area
