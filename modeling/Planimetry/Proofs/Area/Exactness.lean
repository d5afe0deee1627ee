import Planimetry.Proofs.Area.Failure

/-! Elimination is exact: where the points stand as their definitions say and no denominator is zero, the
elimination lemmas give the values of quantities, and the elimination of a point keeps the value of an
expression, its markers included. -/

namespace Planimetry.Area

/-! ### Markers -/

namespace Expr

/-- The expression without its markers. -/
def unmark : Expr → Expr
  | .number q => .number q
  | .atom q => .atom q
  | .add l r => .add l.unmark r.unmark
  | .sub l r => .sub l.unmark r.unmark
  | .mul l r => .mul l.unmark r.unmark
  | .div n d => .div n.unmark d.unmark
  | .neg e => .neg e.unmark
  | .elim e _ => e.unmark

variable {ν : Quantity → ℚ} {P : Quantity → Prop}

@[simp] theorem valueAt_unmark (e : Expr) : e.unmark.valueAt ν = e.valueAt ν := by
  induction e with
  | number q => rfl
  | atom q => rfl
  | add l r ihl ihr | sub l r ihl ihr | mul l r ihl ihr | div l r ihl ihr =>
      unfold unmark valueAt
      rw [ihl, ihr]
  | neg e ih =>
      unfold unmark valueAt
      rw [ih]
  | elim e p ih => exact ih

theorem IsDefined.over {e : Expr} (he : e.IsDefined ν) : e.Over fun _ => True := by
  induction e with
  | number q => trivial
  | atom q => trivial
  | add l r ihl ihr | sub l r ihl ihr | mul l r ihl ihr => exact ⟨ihl he.1, ihr he.2⟩
  | div n d ihn ihd => exact ⟨ihn he.1, ihd he.2.1⟩
  | neg e ih => exact ih he
  | elim e p _ => exact he.elim

end Expr

/-! ### Definitions -/

namespace Context

variable {p : Protocol} {c : Context} {d : Definition}

/-- The rules of definitions are defined where their denominators are not zero. -/
theorem StemsFrom.isDefined_rule (hc : c.StemsFrom p) (hd : d ∈ c.definitions) {ν : Quantity → ℚ}
    (hne : ∀ e ∈ d.denominators, e.valueAt ν ≠ 0) : d.rule.IsDefined ν := by
  obtain ⟨s, -, hof | hsecond⟩ := hc.definitions d hd
  · obtain ⟨rule, -, hrule⟩ := hof.rule
    exact hrule.isDefined hne
  · obtain ⟨through, line, a, b, n, c', -, -, -, hrule⟩ := hsecond.rule
    rcases hrule with ⟨-, hrule⟩ | ⟨-, hrule⟩
    · exact Rule.isDefined_of_numbers [(through, 1), (b, 1), (a, -1)] hrule (by norm_num) ν
    · rw [hrule]
      trivial

end Context

namespace Definition

variable {ν : Quantity → ℚ} {place : Label → ℚ × ℚ} {d : Definition} {q : Quantity}

/-- No denominator of the definition is zero, and the point stands where the rule puts it. -/
structure IsMetBy (ν : Quantity → ℚ) (place : Label → ℚ × ℚ) (d : Definition) : Prop where
  ne_zero : ∀ e ∈ d.denominators, e.valueAt ν ≠ 0
  point : place d.point = d.rule.pointAt ν place

instance : Decidable (d.IsMetBy ν place) :=
  decidable_of_iff ((∀ e ∈ d.denominators, e.valueAt ν ≠ 0) ∧ place d.point = d.rule.pointAt ν place)
    ⟨fun h => ⟨h.1, h.2⟩, fun h => ⟨h.ne_zero, h.point⟩⟩

end Definition

namespace Context

variable {p : Protocol} {c : Context} {d : Definition} {ν : Quantity → ℚ} {place : Label → ℚ × ℚ}
  {l : Label} {q : Quantity} {e : Expr} {used : List Label}

theorem StemsFrom.standsAt (hc : c.StemsFrom p) (hd : d ∈ c.definitions) (h : d.IsMetBy ν place) :
    d.StandsAt ν place := ⟨hc.isDefined_rule hd h.ne_zero, h.point⟩

/-! ### Expressions -/

section Gives

variable {P : Quantity → Prop} {fails : Error → Prop} {x y : Using Expr} {v w : ℚ}

/-- A computation gives an expression over some quantities that has a value, or it fails with an error of some
kind. -/
def Gives (P : Quantity → Prop) (ν : Quantity → ℚ) (fails : Error → Prop) (x : Using Expr) (v : ℚ) : Prop :=
  ∀ used, Ends x used (fun e _ => e.Over P ∧ e.Denotes ν v) fun err _ => fails err

theorem gives_pure (he : e.Over P) (hv : e.Denotes ν v) : Gives P ν fails (pure e) v :=
  fun _ => ends_pure ⟨he, hv⟩

theorem Gives.node {f : Expr → Expr → Expr} {u : ℚ} (hx : Gives P ν fails x v) (hy : Gives P ν fails y w)
    (hf : ∀ a b, a.Over P → b.Over P → (f a b).Over P)
    (hu : ∀ a b, a.Denotes ν v → b.Denotes ν w → (f a b).Denotes ν u) :
    Gives P ν fails (do return f (← x) (← y)) u := by
  intro used
  refine (hx used).bind ?_
  rintro a used₁ - ⟨ha, hv⟩
  refine (hy used₁).bind ?_
  rintro b used₂ - ⟨hb, hw⟩
  exact ends_pure ⟨hf a b ha hb, hu a b hv hw⟩

theorem Gives.map {f : Expr → Expr} {u : ℚ} (hx : Gives P ν fails x v) (hf : ∀ a, a.Over P → (f a).Over P)
    (hu : ∀ a, a.Denotes ν v → (f a).Denotes ν u) : Gives P ν fails (do return f (← x)) u := by
  intro used
  refine (hx used).bind ?_
  rintro a used₁ - ⟨ha, hv⟩
  exact ends_pure ⟨hf a ha, hu a hv⟩

theorem Gives.and_then {f : Expr → Using Expr} {u : ℚ} (hx : Gives P ν fails x v)
    (hf : ∀ a, a.Over P → a.Denotes ν v → Gives P ν fails (f a) u) : Gives P ν fails (x >>= f) u := by
  intro used
  refine (hx used).bind ?_
  rintro a used₁ - ⟨ha, hv⟩
  exact hf a ha hv used₁

variable (hatom : ∀ l q, P q → Gives P ν fails (c.eliminateAtom q l) (ν q))

include hatom

/-- What keeps the values of quantities keeps those of expressions without markers. -/
theorem gives_eliminateAtoms (he : e.Over P) (hdefined : e.IsDefined ν) :
    Gives P ν fails (c.eliminateAtoms l e) (e.valueAt ν) := by
  induction e with
  | number q => exact gives_pure trivial (Expr.denotes_number q)
  | atom q => exact hatom l q he
  | add a b iha ihb =>
      exact (iha he.1 hdefined.1).node (ihb he.2 hdefined.2) (fun _ _ => .intro) fun _ _ => .add
  | sub a b iha ihb =>
      exact (iha he.1 hdefined.1).node (ihb he.2 hdefined.2) (fun _ _ => .intro) fun _ _ => .sub
  | mul a b iha ihb =>
      exact (iha he.1 hdefined.1).node (ihb he.2 hdefined.2) (fun _ _ => .intro) fun _ _ => .mul
  | div a b iha ihb =>
      obtain ⟨ha, hb, hne⟩ := hdefined
      exact (iha he.1 ha).node (ihb he.2 hb) (fun _ _ => .intro) fun _ _ hv hw => hv.div hw hne
  | neg e ih => exact (ih he hdefined).map (fun _ => id) fun _ => .neg
  | elim e p _ => exact he.elim

/-- What keeps the values of quantities keeps those of expressions, as the markers are eliminated from inside
out. -/
theorem gives_eliminate (he : e.unmark.Over P) (hdefined : e.unmark.IsDefined ν) :
    Gives P ν fails (c.eliminate e l) (e.valueAt ν) := by
  induction e generalizing l with
  | number q => exact gives_pure trivial (Expr.denotes_number q)
  | atom q => exact hatom l q he
  | add a b iha ihb =>
      exact (iha he.1 hdefined.1).node (ihb he.2 hdefined.2) (fun _ _ => .intro) fun _ _ => .add
  | sub a b iha ihb =>
      exact (iha he.1 hdefined.1).node (ihb he.2 hdefined.2) (fun _ _ => .intro) fun _ _ => .sub
  | mul a b iha ihb =>
      exact (iha he.1 hdefined.1).node (ihb he.2 hdefined.2) (fun _ _ => .intro) fun _ _ => .mul
  | div a b iha ihb =>
      obtain ⟨ha, hb, hne⟩ := hdefined
      rw [Expr.valueAt_unmark] at hne
      exact (iha he.1 ha).node (ihb he.2 hb) (fun _ _ => .intro) fun _ _ hv hw => hv.div hw hne
  | neg e ih => exact (ih he hdefined).map (fun _ => id) fun _ => .neg
  | elim e p ih =>
      refine (ih he hdefined).and_then fun a ha hv => ?_
      have hinner := gives_eliminateAtoms hatom (l := l) ha hv.1
      rwa [hv.2] at hinner

end Gives

/-! ### Quantities -/

section Atoms

variable {e' : Expr} {used' : List Label}

/-- A quantity keeps its value where the definition of the point to eliminate holds. -/
theorem denotes_eliminateAtom (hν : IsGeometric place ν)
    (hstands : ∀ d, c.find? l = some d → d.StandsAt ν place)
    (h : Returns (c.eliminateAtom q l) used e' used') : e'.Denotes ν (ν q) := by
  rcases returns_eliminateAtom h with ⟨rfl, -⟩ | ⟨hmentions, h⟩
  · exact Expr.denotes_atom q
  · obtain ⟨d, hfind, helim, -⟩ := returns_eliminateQuantity h
    rw [← point_of_find? hfind] at hmentions
    exact (hstands d hfind).denotes_eliminate hν hmentions helim

variable (hν : IsGeometric place ν) (hstands : ∀ l d, c.find? l = some d → d.StandsAt ν place)

include hν hstands

theorem gives_eliminateAtom :
    Gives (fun _ => True) ν (fun _ => True) (c.eliminateAtom q l) (ν q) := by
  intro used
  refine (ends_returns _ _).mono (fun e' used' hreturns _ => ?_) fun _ _ _ => trivial
  have hdenotes := denotes_eliminateAtom hν (hstands l) hreturns
  exact ⟨hdenotes.1.over, hdenotes⟩

theorem gives_eliminateAtom_of_isRegular (hc : c.IsRegular) (hq : q.IsRegular) :
    Gives Quantity.IsRegular ν (fun err => err.isInconclusive = true) (c.eliminateAtom q l) (ν q) := by
  intro used
  refine (ends_eliminateAtom hc hq).mono (fun e' used' hreturns h => ⟨h.1, ?_⟩) fun _ _ h => h.isInconclusive
  exact denotes_eliminateAtom hν (hstands l) hreturns

end Atoms

/-- Elimination is exact. Let areas and Pythagoras differences have the values of a placement, and ratios any
values. Each definition whose denominators are not zero and whose point stands where the rule puts it gives the
value of any area and any Pythagoras difference in which the point occurs. And where all definitions are met so,
the elimination of a point from an expression gives one without markers that is defined and has the same value,
or fails; in a figure of accepted steps, unless the expression has a ratio to a segment from a point to itself,
it fails only as there is no definition or no lemma. -/
theorem exact_ofProtocol (p : Protocol) (hν : IsGeometric place ν) :
    (∀ d ∈ (ofProtocol p).definitions, d.IsMetBy ν place → ∀ q : Quantity, q.IsMeasured →
      q.mentions d.point = true → ∃ e, d.eliminate q = .ok e ∧ e.Denotes ν (ν q)) ∧
    ((∀ l d, (ofProtocol p).find? l = some d → d.IsMetBy ν place) →
      ∀ e : Expr, e.unmark.IsDefined ν → ∀ l used,
        Ends ((ofProtocol p).eliminate e l) used (fun e' _ => e'.Denotes ν (e.valueAt ν))
          fun err _ => p.Accepted → e.unmark.IsRegular → err.isInconclusive = true) := by
  have hstems := stemsFrom_ofProtocol p
  refine ⟨fun d hd hmet q hq hmentions => ?_, fun hmet e he l used => ?_⟩
  · obtain ⟨e, helim⟩ := Definition.exists_eliminate hmentions hq
    exact ⟨e, helim, (hstems.standsAt hd hmet).denotes_eliminate hν hmentions helim⟩
  · have hstands (l : Label) (d : Definition) (hd : (ofProtocol p).find? l = some d) : d.StandsAt ν place :=
      hstems.standsAt (List.mem_of_find?_eq_some hd) (hmet l d hd)
    by_cases hregular : p.Accepted ∧ e.unmark.IsRegular
    · have hgives := gives_eliminate (l := l) (fun _ _ hq => gives_eliminateAtom_of_isRegular hν hstands
        (isRegular_ofProtocol hregular.1) hq) hregular.2 he
      exact (hgives used).mono (fun _ _ _ h => h.2) fun _ _ h _ _ => h
    · have hgives := gives_eliminate (l := l) (fun _ _ _ => gives_eliminateAtom hν hstands) he.over he
      exact (hgives used).mono (fun _ _ _ h => h.2) fun _ _ _ hp he' => absurd ⟨hp, he'⟩ hregular

/-- Random points on two lines, the second one perpendicular to the first; a point shifted along a vector from
where it stands; and one turned around another. -/
def stairFigure : Protocol :=
  .figure [("A", .point .free), ("B", .point .free), ("l", .set (.lineThrough "A" "B")),
    ("R", .point (.onLine "l")), ("m", .set (.perpendicular "R" "l")), ("S", .point (.onLine "m")),
    ("D", .point (.shifted "A" "A" "S")), ("Q", .point (.rotated "D" "B"))]

def stairFree (l : Label) : ℚ × ℚ := if l = "A" then (0, 0) else (2, 1)

/-- The place of each point where the ratios of the random points are three. -/
def stairPlace : Label → ℚ × ℚ := (ofProtocol stairFigure).place stairFree fun _ => 3

def stairValue : Quantity → ℚ := Quantity.valueAt stairPlace ((ofProtocol stairFigure).ratio fun _ => 3)

/-- A quotient with a free ratio, and a quantity from which a later point is to be eliminated first. -/
def stairExpr : Expr :=
  .add (.div (.atom (.pythagoras "S" "R" "Q")) (.atom (.ratio "A" "R" "A" "B")))
    (.elim (.atom (.area "R" "S" "Q")) "Q")

/-- The ratio of the first random point. -/
def stairShare : Expr := .atom (.ratio "A" "R" "A" "B")

/-- What the elimination of the first random point, and before it of the point in the marker, makes of
`stairExpr`. -/
def stairResult : Expr :=
  let rest := Expr.sub .one stairShare
  .add
    (.div
      (.add (.mul rest (.atom (.pythagoras "S" "A" "Q")))
        (.add (.mul stairShare (.atom (.pythagoras "S" "B" "Q")))
          (.neg (.mul (.mul rest stairShare) (.atom (.pythagoras "A" "B" "A"))))))
      stairShare)
    (.sub
      (.add (.mul rest (.atom (.area "S" "B" "A"))) (.mul stairShare (.atom (.area "S" "B" "B"))))
      (.mul (.mul (.number (1 / 4)) .one)
        (.sub
          (.add (.mul rest (.atom (.pythagoras "D" "B" "A")))
            (.mul stairShare (.atom (.pythagoras "D" "B" "B"))))
          (.atom (.pythagoras "S" "B" "D")))))

theorem exact_stairFigure :
    IsGeometric stairPlace stairValue ∧
      (∀ d ∈ (ofProtocol stairFigure).definitions, d.IsMetBy stairValue stairPlace) ∧
      stairExpr.unmark.IsDefined stairValue ∧ stairExpr.valueAt stairValue = 115 / 2 ∧
      Returns ((ofProtocol stairFigure).eliminate stairExpr "R") [] stairResult ["R", "Q"] ∧
        stairResult.Denotes stairValue (115 / 2) := by
  have hν : IsGeometric stairPlace stairValue := isGeometric_valueAt _ _
  have hmet : ∀ d ∈ (ofProtocol stairFigure).definitions, d.IsMetBy stairValue stairPlace := by
    decide +kernel
  have hdefined : stairExpr.unmark.IsDefined stairValue :=
    ⟨⟨trivial, trivial, by decide +kernel⟩, trivial⟩
  have hvalue : stairExpr.valueAt stairValue = 115 / 2 := by decide +kernel
  have hresult : (((ofProtocol stairFigure).eliminate stairExpr "R").run []).1.toOption = some stairResult ∧
      (((ofProtocol stairFigure).eliminate stairExpr "R").run []).2 = ["R", "Q"] := by
    decide +kernel
  have hends := (exact_ofProtocol stairFigure hν).2
    (fun l d hd => hmet d (List.mem_of_find?_eq_some hd)) stairExpr hdefined "R" []
  refine ⟨hν, hmet, hdefined, hvalue, ?_⟩
  unfold Ends at hends
  rcases hr : ((ofProtocol stairFigure).eliminate stairExpr "R").run [] with ⟨err | e, used⟩
  · rw [hr] at hresult
    cases hresult.1
  · rw [hr] at hends hresult
    obtain ⟨hexpr, rfl⟩ := hresult
    cases hexpr
    exact ⟨hr, hends.of_eq hvalue⟩

end Context
end Planimetry.Area
