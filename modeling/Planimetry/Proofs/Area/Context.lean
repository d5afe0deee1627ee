import Planimetry.Proofs.Area.Layers

/-! The definitions for the points of a protocol: unless a point has none, each is on free points and on
points defined before, and they place all points. -/

namespace Planimetry.Area

/-- Definitions of constructed points, each on free points and on those constructed before, are ordered. -/
theorem isOrdered_of_proper {free : List Label} {ds : List Definition}
    (hnodup : (free ++ (ds.map Definition.point).reverse).Nodup)
    (hproper : ∀ d ∈ ds, d.IsProper fun l =>
      l ∈ free ∨ l ∈ (ds.map Definition.point).reverse.takeWhile (· ≠ d.point)) : IsOrdered free ds := by
  induction ds with
  | nil => exact .nil
  | cons d ds ih =>
      obtain ⟨hd, hds⟩ := List.forall_mem_cons.1 hproper
      rw [List.map_cons, List.reverse_cons] at hnodup hd hds
      rw [← List.append_assoc, List.nodup_append] at hnodup
      obtain ⟨hnodup, -, hdisjoint⟩ := hnodup
      have hnew : d.point ∉ free ++ (ds.map Definition.point).reverse := fun h =>
        hdisjoint _ h _ List.mem_cons_self rfl
      rw [List.mem_append, not_or] at hnew
      refine .cons hnew.1 (fun h => hnew.2 (List.mem_reverse.2 h)) ?_ (ih hnodup fun e he => ?_)
      · rw [Context.takeWhile_of_split hnew.2] at hd
        exact hd.mono fun l hl => hl.imp_right List.mem_reverse.1
      · have hlisted : e.point ∈ (ds.map Definition.point).reverse :=
          List.mem_reverse.2 (List.mem_map_of_mem he)
        have hproper := hds e he
        rwa [Context.takeWhile_append_of_mem hlisted] at hproper

namespace Context

/-- A free point, or one that is defined. -/
def Knows (c : Context) (l : Label) : Prop :=
  l ∈ c.freePoints ∨ l ∈ c.definitions.map Definition.point

/-- Each definition is on free points and on points defined before, and the records of the definitions
agree with them. -/
structure IsCoherent (c : Context) : Prop where
  ordered : IsOrdered c.freePoints c.definitions
  order : c.order = (c.definitions.map Definition.point).reverse
  parameters : ∀ k, k ∈ c.parameters ↔
    ∃ d ∈ c.definitions, ∃ q ∈ d.parameter, ∃ o, q.orient = .ok o ∧ o.quantity = k

/-- The definitions of the points among some steps of a protocol, with those of second points. -/
structure Covers (c : Context) (p : Protocol) (steps : List Step) : Prop extends c.IsCoherent where
  free : ∀ l, l ∈ c.freePoints ↔ ∃ s ∈ steps, s.label = l ∧ s.construction = .point .free
  points : ∀ s ∈ steps, s.isPoint = true → c.Knows s.label
  sources : ∀ d ∈ c.definitions, (∃ s ∈ steps, s.label = d.point) ∨ d.point ∈ secondLabels p

variable {p : Protocol} {c : Context} {l : Label}

/-- All points of a protocol are free or defined, unless one has no definition. -/
theorem covers_ofProtocol (hp : IsSeparated p) (h : (ofProtocol p).unsupported = []) :
    (ofProtocol p).Covers p p.steps := by
  have hc := layers_ofProtocol hp
  have horder := hc.order h
  have hordered : IsOrdered (ofProtocol p).freePoints (ofProtocol p).definitions := by
    refine isOrdered_of_proper (horder ▸ hc.nodup) fun d hd => (hc.proper d hd).mono fun l hl => ?_
    rw [← horder]
    exact hl
  refine ⟨⟨hordered, horder, hc.parameters⟩, hc.free, fun s hs hpoint => ?_, fun d hd => ?_⟩
  · refine (hc.points s hs hpoint).imp_right fun hl => ?_
    rw [horder] at hl
    exact List.mem_reverse.1 hl
  · exact (hc.sources d.point (hc.listed d hd)).imp_right And.left

section Placement

/-- The values of canonical ratios where the free ratio of each random point has a value. -/
def ratio (c : Context) (ratios : Label → ℚ) : Quantity → ℚ := ratioOf ratios c.definitions

/-- The points placed by their definitions, where free points and free ratios are given. -/
def place (c : Context) (free : Label → ℚ × ℚ) (ratios : Label → ℚ) : Label → ℚ × ℚ :=
  placeAll free (c.ratio ratios) c.definitions

/-- No denominator of a definition is zero. -/
def IsValidAt (c : Context) (free : Label → ℚ × ℚ) (ratios : Label → ℚ) : Prop :=
  ∀ d ∈ c.definitions, ∀ e ∈ d.denominators,
    e.valueAt (Quantity.valueAt (c.place free ratios) (c.ratio ratios)) ≠ 0

variable {free : Label → ℚ × ℚ} {ratios : Label → ℚ}

instance : Decidable (c.IsValidAt free ratios) :=
  inferInstanceAs (Decidable (∀ d ∈ c.definitions, ∀ e ∈ d.denominators, _ ≠ (0 : ℚ)))

theorem IsValidAt.holdsAt (h : c.IsValidAt free ratios) (hc : c.IsCoherent) :
    ∀ d ∈ c.definitions, d.HoldsAt (c.place free ratios) (c.ratio ratios) :=
  hc.ordered.holdsAt h

theorem IsCoherent.place_free (hc : c.IsCoherent) (hl : l ∈ c.freePoints) :
    c.place free ratios l = free l :=
  placeAll_of_notMem (hc.ordered.notMem hl)

end Placement

end Context
end Planimetry.Area
