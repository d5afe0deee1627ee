import Planimetry.Proofs.Area.Context
import Planimetry.Proofs.Area.Coordinates
import Planimetry.Proofs.Transformation.Pass

/-! Variables of free ratios: each canonical ratio has a variable of its own, so that coordinates and free
ratios can have any values. -/

namespace Planimetry.Area

/-- A quantity that is canonical if it is a ratio. -/
def Quantity.IsOriented (q : Quantity) : Prop := ∀ a b c d, q = .ratio a b c d → q.IsCanonical

namespace Expansion

/-- All ratios in the products are canonical. -/
def IsOriented (s : Expansion) : Prop := ∀ t ∈ s.entries, ∀ q ∈ t.1, q.IsOriented

end Expansion

/-- Orientation leads to canonical ratios. -/
theorem Quantity.isOriented_orient {q k : Quantity} {o : Oriented} (h : q.orient = .ok o)
    (hk : o.quantity = some k) : k.IsOriented := by
  cases q with
  | area a b c =>
      cases h
      rintro s t u v rfl
      unfold Quantity.orientArea at hk
      dsimp only at hk
      split_ifs at hk <;> cases hk
  | pythagoras a b c =>
      cases h
      rintro s t u v rfl
      unfold Quantity.orientPythagoras at hk
      split_ifs at hk <;> cases hk
  | ratio a b c d => exact fun _ _ _ _ _ => (Quantity.orient_ratio h k hk).2.1

namespace Expr

variable {e : Expr} {s : Expansion}

/-- Expanded forms have canonical ratios only. -/
theorem isOriented_expand (h : e.expand = .ok s) : s.IsOriented :=
  forall_factor_expand (fun _ _ _ _ ho hk => Quantity.isOriented_orient ho hk) h

theorem isOriented_normalForm (h : e.normalForm = .ok s) : s.IsOriented := isOriented_expand h

end Expr

namespace Progress

variable {c : Context} {p : Protocol} {s s' : Progress}

/-- The free ratios of a context have variables of their own, which a protocol has not given out. -/
structure IsFresh (c : Context) (p : Protocol) (s : Progress) : Prop where
  steps : s.protocol.steps = p.steps
  index : p.freeIndex ≤ s.protocol.freeIndex
  fresh : ∀ r ∈ s.ratios, ∃ i, r.2 = .free i ∧ p.freeIndex ≤ i ∧ i < s.protocol.freeIndex
  nodup : (s.ratios.map Prod.snd).Nodup
  keys : (s.ratios.map Prod.fst).Nodup
  canonical : ∀ r ∈ s.ratios, r.1.IsCanonical ∧ some r.1 ∈ c.parameters

theorem isFresh_of_nil (h : s.ratios = []) : s.IsFresh c s.protocol where
  steps := rfl
  index := le_rfl
  fresh := h ▸ List.forall_mem_nil _
  nodup := h ▸ List.nodup_nil
  keys := h ▸ List.nodup_nil
  canonical := h ▸ List.forall_mem_nil _

end Progress

namespace Prover

variable {m : Prover} {s s' : Progress} {q : Polynomial} {k : Quantity} {p : Protocol}

theorem isParameter_eq_ok {c : Context} {a b d e : Label}
    (h : c.isParameter (.ratio a b d e) = .ok true) (hk : Quantity.IsCanonical (.ratio a b d e)) :
    some (.ratio a b d e) ∈ c.parameters := by
  unfold Context.isParameter at h
  obtain ⟨o, ho, h⟩ := bind_eq_ok h
  cases ho.symm.trans hk
  exact List.contains_iff_mem.1 (Except.ok.inj h)

/-- Ratios stay fresh with the next variable. -/
theorem isFresh_quantityPolynomial (hk : k.IsOriented)
    (h : Returns (m.quantityPolynomial k) s q s') (hs : s.IsFresh m.context p) :
    s'.IsFresh m.context p := by
  cases k with
  | area a b c =>
      obtain ⟨rfl, -⟩ := returns_inCoordinates h
      exact hs
  | pythagoras a b c =>
      obtain ⟨rfl, -⟩ := returns_inCoordinates h
      exact hs
  | ratio a b c d =>
      obtain ⟨hparameter, v, hv, -⟩ := returns_ratioPolynomial h
      have hcanonical := hk a b c d rfl
      rcases returns_ratioVariable hv with ⟨rfl, -⟩ | ⟨hnone, rfl, rfl⟩
      · exact hs
      · have hindex := hs.index
        refine ⟨hs.steps, ?_, ?_, ?_, ?_, ?_⟩
        · exact hindex.trans (Int.le_add_one le_rfl)
        · refine List.forall_mem_append.2 ⟨fun r hr => ?_, List.forall_mem_singleton.2 ?_⟩
          · obtain ⟨i, hi, hle, hlt⟩ := hs.fresh r hr
            exact ⟨i, hi, hle, hlt.trans (lt_add_one _)⟩
          · exact ⟨_, rfl, hindex, lt_add_one _⟩
        · rw [List.map_append, List.nodup_append]
          refine ⟨hs.nodup, List.nodup_singleton _, fun v hv w hw heq => ?_⟩
          obtain ⟨r, hr, rfl⟩ := List.mem_map.1 hv
          obtain ⟨i, hi, -, hlt⟩ := hs.fresh r hr
          rw [List.map_singleton, List.mem_singleton] at hw
          rw [hi, hw] at heq
          exact absurd (Variable.free.inj heq) hlt.ne
        · rw [List.map_append, List.nodup_append]
          refine ⟨hs.keys, List.nodup_singleton _, fun k hk' w hw heq => ?_⟩
          obtain ⟨r, hr, rfl⟩ := List.mem_map.1 hk'
          rw [List.map_singleton, List.mem_singleton] at hw
          have hne := List.lookup_eq_none_iff.1 hnone r hr
          rw [heq, hw] at hne
          simp at hne
        · exact List.forall_mem_append.2 ⟨hs.canonical, List.forall_mem_singleton.2
            ⟨hcanonical, isParameter_eq_ok hparameter hcanonical⟩⟩

theorem isStepwise_isFresh (c : Context) (p : Protocol) :
    IsStepwise fun s s' => s.IsFresh c p → s'.IsFresh c p :=
  ⟨fun _ h => h, fun h h' hs => h' (h hs)⟩

theorem isFresh_sumPolynomial {ts : List (Factors × ℚ)} {q' : Polynomial}
    (hts : ∀ t ∈ ts, ∀ f ∈ t.1, f.IsOriented) (h : Returns (m.sumPolynomial q ts) s q' s')
    (hs : s.IsFresh m.context p) : s'.IsFresh m.context p :=
  sum_of_quantities (isStepwise_isFresh m.context p)
    (fun t ht f hf _ _ _ h => isFresh_quantityPolynomial (hts t ht f hf) h) h hs

end Prover

end Planimetry.Area
