import Planimetry.Proofs.Area.FreeCoordinates
import Planimetry.Proofs.Area.LayeredElimination
import Planimetry.Proofs.Figure.History

/-! Elimination is complete: a proof never meets a point that should have been eliminated, and all its
polynomials are in free variables. -/

namespace Planimetry.Area

/-- The expression has no markers, and is about points of a protocol. -/
def Expr.IsOnPoints (p : Protocol) (e : Expr) : Prop :=
  e.Over fun q => ∀ l ∈ q.labels, l ∈ p.points.map Step.label

theorem Error.ne_remaining {err : Error} (h : err.isDivision = true ∨ err.IsMissing)
    (l : Label) : err ≠ .remaining l := by
  rintro rfl
  rcases h with h | h
  · cases h
  · exact h

namespace Prover

variable {m : Prover} {p : Protocol} {pass : Transformation} {s : Progress} {e : Expr} {l : Label}

section Start

theorem ne_remaining_of_start {statement : Option Statement} {err : Error}
    (h : start p statement = .error err) (l : Label) : err ≠ .remaining l := by
  rcases start_eq_error h with ⟨-, type, rfl⟩ | rfl | ⟨kind, rfl⟩ | ⟨labels, rfl⟩ <;> nofun

/-- The statement of a protocol is about its points. -/
theorem isOnPoints_of_statement (hp : Appended p) {st : Step} {relation : Relation}
    (hst : p.statement = some st) (hrelation : st.construction = .statement relation)
    (h : Statement.ofRelation relation = .ok e) : e.IsOnPoints p := by
  have hpoint (l : Label) (hl : l ∈ st.construction.arguments) : l ∈ p.points.map Step.label := by
    obtain ⟨t, ht, rfl, hisPoint⟩ := hp.exists_point_of_statement hst hl
    exact List.mem_map_of_mem (List.mem_filter.2 ⟨ht, hisPoint⟩)
  rw [hrelation] at hpoint
  cases relation <;> cases h <;>
    simp_all [Expr.IsOnPoints, Expr.Over, Quantity.labels, Construction.arguments, Expr.zero]

theorem isOnPoints_of_start (hp : Appended p) {statement : Option Statement}
    (hstatement : ∀ st ∈ statement, ∀ e, st.expression = .ok e → e.IsOnPoints p)
    (h : start p statement = .ok e) : e.IsOnPoints p := by
  cases statement with
  | none =>
      obtain ⟨st, relation, hst, hrelation, hof, -⟩ := start_of_statement hp h
      exact isOnPoints_of_statement hp hst hrelation hof
  | some st =>
      unfold start at h
      obtain ⟨e', he', h⟩ := bind_eq_ok h
      dsimp only at h
      split at h
      next =>
        cases h
        exact hstatement st rfl _ he'
      next => cases h

end Start

/-- The denominators of a definition are over points constructed before and free ratios. -/
theorem over_of_mem_denominators (hc : m.context.IsLayered) (hstems : m.context.StemsFrom p)
    (he : e ∈ m.context.denominators l) : e.Over (m.context.Allows (m.context.ListsBefore l)) := by
  unfold Context.denominators at he
  cases hfind : m.context.find? l with
  | none =>
      rw [hfind] at he
      cases he
  | some d =>
      rw [hfind] at he
      have hd := List.mem_of_find?_eq_some hfind
      rw [← Context.point_of_find? hfind]
      exact ((hc.mentionsOnly hstems hd).denominators e he).mono fun q hq => hc.allows hd hq

/-- The stages of a proof from an expression over constructed points: what is left is over free points and
free ratios, and its polynomial is in free variables. -/
theorem isStaged_of_isLayered (hp : Appended p) (hpass : p.IsPass m.settings pass)
    (hc : m.context.IsLayered) (hstems : m.context.StemsFrom p) :
    m.IsStaged p pass.protocol (fun before e => e.Over (m.context.Allows (m.context.ListsUpTo before)))
      (fun e => e.Over (m.context.Allows (· ∈ m.context.freePoints))) Polynomial.IsFree
      fun err _ => ∀ l, err ≠ .remaining l where
  eliminates := by
    intro before e s he hbefore hs
    refine (ends_eliminateConstructed_layered hc hstems hbefore he).mono ?_ fun _ _ h => Error.ne_remaining h
    rintro ⟨e', trace⟩ s' hreturns ⟨he', hamong⟩
    exact ⟨he', hs.of_keeps (keeps_eliminateConstructed hreturns) hamong⟩
  expands := fun _ _ _ he herr => Error.ne_remaining (.inl (he.isDivision_of_normalForm herr))
  reads := by
    intro e form s he hform hs
    refine completes_toPolynomial hp hpass (locates_of_isPass hp hpass hstems.free) hform ?_ hs
    exact he.forall_factor_normalForm (fun q hq o k ho hk => hq.readsOnly.orient ho hk) hform
  denominators := fun _ _ he => over_of_mem_denominators hc hstems he

/-- Elimination is complete, if no label of the protocol is that of a second point of a line. Definitions
mention only points that are free or constructed before, apart from their own free ratios. What is left of an
expression about points of the protocol is about free points and free ratios, unless something is missing or
divided by zero. And all polynomials of a proof are in free variables; a point that should have been
eliminated is never met. -/
theorem complete_ofProtocol (hp : Appended p) (hlabels : ∀ s ∈ p.steps, s.label ∉ Context.secondLabels p)
    (settings : Settings) :
    let m := ofProtocol p settings
    let c := m.context
    ((c.freePoints ++ c.order).Nodup ∧
      ∀ d ∈ c.definitions, d.point ∈ c.order ∧ d.MentionsOnly (c.ListsBefore d.point)) ∧
    (∀ e : Expr, e.IsOnPoints p → ∀ s, Ends (m.eliminateConstructed e none) s
      (fun r _ => r.1.Over (c.Allows (· ∈ c.freePoints)))
      fun err _ => err.isInconclusive = true ∨ err.isDivision = true) ∧
    ∀ statement events, (∀ st ∈ statement, ∀ e, st.expression = .ok e → e.IsOnPoints p) →
      Ends (m.prove statement) { protocol := p, events }
        (fun proof _ => (∀ q ∈ proof.polynomial, q.IsFree) ∧ ∀ q ∈ proof.nondegenerate, q.IsFree)
        fun err _ => ∀ l, err ≠ .remaining l := by
  intro m c
  have hlayers : m.context.Layers p p.steps := Context.layers_ofProtocol ⟨hp.ordered, hp.accepted, hlabels⟩
  have hc : m.context.IsLayered := hlayers.toIsLayered
  have hstems : m.context.StemsFrom p := Context.stemsFrom_ofProtocol p
  obtain ⟨pass, hpass⟩ := Protocol.exists_isPass hp settings
  have hallows {e : Expr} (he : e.IsOnPoints p) : e.Over (m.context.Allows m.context.Lists) := by
    refine he.mono fun q hq => .inr fun l hl => ?_
    obtain ⟨t, ht, rfl⟩ := List.mem_map.1 (hq l hl)
    exact hlayers.points t (List.mem_filter.1 ht).1 (List.mem_filter.1 ht).2
  refine ⟨⟨hc.nodup, fun d hd => ⟨hc.listed d hd, hc.mentionsOnly hstems hd⟩⟩, fun e he s => ?_,
    fun statement events hstatement => ?_⟩
  · have hbefore : ∀ l ∈ (none : Option Label), l ∈ m.context.order := nofun
    refine (ends_eliminateConstructed_layered hc hstems hbefore (hallows he)).mono (fun _ _ _ h => h.1) ?_
    exact fun _ _ h => h.symm.imp_left Error.IsMissing.isInconclusive
  · refine ((isStaged_of_isLayered hp hpass hc hstems).ends_prove (fun err herr => ne_remaining_of_start herr)
      (fun e he => hallows (isOnPoints_of_start hp hstatement he)) ⟨.inl ⟨rfl, rfl⟩, List.nil_subset _⟩).mono
      (fun _ _ _ h => h.1) fun _ _ h => h

/-- A random point on the parallel to a side of a triangle, the point where the line to it from a vertex meets
another side, and a point on a circle, which has no definition. -/
def transversalFigure : Protocol :=
  .figure [("A", .point .free), ("B", .point .free), ("C", .point .free), ("l", .set (.lineThrough "A" "B")),
    ("m", .set (.parallel "C" "l")), ("P", .point (.onLine "m")), ("n", .set (.lineThrough "A" "P")),
    ("k", .set (.lineThrough "B" "C")), ("X", .point (.intersection "n" "k")),
    ("w", .set (.circleThrough "A" "B")), ("Q", .point (.onCircle "w")),
    ("s", .statement (.collinear "A" "B" "X"))]

theorem prove_transversalFigure :
    (((ofProtocol transversalFigure {}).prove none).run { protocol := transversalFigure }).1.toOption.any
      (fun proof => proof.polynomial.isSome && !proof.nondegenerate.isEmpty) = true := by
  rw [run_prove rfl rfl (by decide)]
  decide +kernel

theorem complete_transversalFigure :
    (∀ s ∈ transversalFigure.steps, s.label ∉ Context.secondLabels transversalFigure) ∧
      (Context.ofProtocol transversalFigure).unsupported ≠ [] ∧
      ∃ proof s' q, proof.polynomial = some q ∧ proof.nondegenerate ≠ [] ∧
        Returns ((ofProtocol transversalFigure {}).prove none) { protocol := transversalFigure } proof s' ∧
          q.IsFree ∧ ∀ r ∈ proof.nondegenerate, r.IsFree := by
  have hlabels : ∀ s ∈ transversalFigure.steps, s.label ∉ Context.secondLabels transversalFigure := by
    decide +kernel
  have hcomplete :=
    (complete_ofProtocol (p := transversalFigure) (appended_figure _) hlabels {}).2.2 none [] nofun
  have hproves := prove_transversalFigure
  refine ⟨hlabels, by decide +kernel, ?_⟩
  unfold Ends at hcomplete
  generalize hrun : ((ofProtocol transversalFigure {}).prove none).run { protocol := transversalFigure } =
    result at hcomplete hproves
  obtain ⟨err | proof, s'⟩ := result
  · cases hproves
  · obtain ⟨hpolynomial, hconditions⟩ := Bool.and_eq_true_iff.1 hproves
    obtain ⟨q, hq⟩ := Option.isSome_iff_exists.1 hpolynomial
    have hne : proof.nondegenerate ≠ [] := by simpa using hconditions
    exact ⟨proof, s', q, hq, hne, hrun, hcomplete.1 q hq, hcomplete.2⟩

end Prover
end Planimetry.Area
