import Planimetry.Proofs.Area.Failure

/-! Elimination in layers: each definition mentions only points constructed before its own, so that one pass
backwards through the constructed points leaves free points and free ratios. -/

namespace Planimetry.Area

/-! ### Definitions -/

namespace Quantity

variable {K : Label → Prop} {q : Quantity}

/-- An area or a Pythagoras difference reads all its points. -/
theorem IsMeasured.labels (hq : q.IsMeasured) (h : q.ReadsOnly K) : ∀ l ∈ q.labels, K l := by
  cases q with
  | ratio a b u v => exact hq.elim
  | area a b c => exact h
  | pythagoras a b c => exact h

/-- Orientation keeps the points that are read. -/
theorem ReadsOnly.orient {o : Oriented} {k : Quantity} (h : q.ReadsOnly K) (ho : q.orient = .ok o)
    (hk : o.quantity = some k) : k.ReadsOnly K := by
  cases q with
  | area a b c =>
      cases ho
      have hthree : K a ∧ K b ∧ K c := ⟨h a (by simp [Quantity.labels]), h b (by simp [Quantity.labels]),
        h c (by simp [Quantity.labels])⟩
      unfold Quantity.orientArea at hk
      dsimp only at hk
      split_ifs at hk <;> cases hk <;> simp [ReadsOnly, Quantity.labels, hthree]
  | pythagoras a b c =>
      cases ho
      have hthree : K a ∧ K b ∧ K c := ⟨h a (by simp [Quantity.labels]), h b (by simp [Quantity.labels]),
        h c (by simp [Quantity.labels])⟩
      unfold Quantity.orientPythagoras at hk
      split_ifs at hk <;> cases hk <;> simp [ReadsOnly, Quantity.labels, hthree]
  | ratio a b u v =>
      obtain ⟨-, -, s, t, x, y, rfl, -⟩ := Quantity.orient_ratio ho k hk
      trivial

theorem isDivision_of_orient {err : Error} (h : q.orient = .error err) : err.isDivision = true := by
  cases q with
  | area a b c => cases h
  | pythagoras a b c => cases h
  | ratio a b u v =>
      unfold Quantity.orient at h
      dsimp only at h
      split_ifs at h
      cases h
      rfl

end Quantity

namespace Expr

variable {P : Quantity → Prop} {K : Label → Prop} {e e' : Expr} {err : Error}

theorem Over.and_readsOnly (he : e.Over P) (h : e.ReadsOnly K) : e.Over fun q => P q ∧ q.ReadsOnly K := by
  induction e with
  | number q => trivial
  | atom q => exact ⟨he, h⟩
  | add l r ihl ihr | sub l r ihl ihr | mul l r ihl ihr | div l r ihl ihr =>
      exact ⟨ihl he.1 h.1, ihr he.2 h.2⟩
  | neg e ih => exact ih he h
  | elim e p _ => exact he.elim

theorem IsPlain.isDivision_of_expand (he : e.IsPlain P) (h : e.expand = .error err) :
    err.isDivision = true := by
  induction e with
  | number q => cases h
  | atom q =>
      refine Quantity.isDivision_of_orient ((bind_eq_error h).resolve_right ?_)
      rintro ⟨o, -, h⟩
      cases h
  | neg e ih =>
      refine ih he ((bind_eq_error h).resolve_right ?_)
      rintro ⟨s, -, h⟩
      cases h
  | add l r ihl ihr | sub l r ihl ihr | mul l r ihl ihr =>
      rcases bind_eq_error h with h | ⟨s, -, h⟩
      · exact ihl he.1 h
      rcases bind_eq_error h with h | ⟨t, -, h⟩
      · exact ihr he.2 h
      · cases h
  | div n d _ _ => exact he.elim
  | elim e p _ => exact he.elim

theorem Over.isDivision_of_normalForm (he : e.Over P) (h : e.normalForm = .error err) :
    err.isDivision = true := by
  unfold normalForm at h
  rw [numerator_eq] at h
  exact he.split.1.rightAssociative.isDivision_of_expand h

end Expr

theorem Rule.Over.and_readsOnly {P : Quantity → Prop} {K : Label → Prop} {r : Rule}
    (hr : r.Over P fun _ => True) (h : r.ReadsOnly K) : r.Over (fun q => P q ∧ q.ReadsOnly K) K := by
  cases r with
  | affine weights => exact fun w hw => ⟨(h w hw).1, (hr w hw).2.and_readsOnly (h w hw).2⟩
  | turn p u v e => exact ⟨h.1, h.2.1, h.2.2.1, hr.2.2.2.and_readsOnly h.2.2.2⟩

namespace Definition

/-- All that a definition mentions are points with a property, apart from its own free ratio. -/
structure MentionsOnly (K : Label → Prop) (d : Definition) : Prop where
  rule : d.rule.Over (fun q => q ∈ d.parameter ∨ ∀ l ∈ q.labels, K l) K
  denominators : ∀ e ∈ d.denominators, e.Over fun q => q ∈ d.parameter ∨ ∀ l ∈ q.labels, K l

end Definition

namespace Context

variable {p : Protocol} {c : Context} {d : Definition} {l : Label} {q : Quantity} {e e' : Expr}
  {K : Label → Prop} {err : Error} {used : List Label}

/-- Definitions mention only free points and points constructed before, apart from their own free ratios. -/
theorem IsLayered.mentionsOnly (hc : c.IsLayered) (hstems : c.StemsFrom p) (hd : d ∈ c.definitions) :
    d.MentionsOnly (c.ListsBefore d.point) := by
  have hproper := hc.proper d hd
  obtain ⟨hrule, hdenominators⟩ := hstems.over hd
  have hmentions (q : Quantity)
      (hq : (q.IsMeasured ∨ q ∈ d.parameter) ∧ q.ReadsOnly (c.ListsBefore d.point)) :
      q ∈ d.parameter ∨ ∀ l ∈ q.labels, c.ListsBefore d.point l := by
    rcases hq with ⟨hmeasured | hparameter, hreads⟩
    · exact .inr (hmeasured.labels hreads)
    · exact .inl hparameter
  refine ⟨(hrule.and_readsOnly hproper.reads.1).mono hmentions fun _ h => h, fun e he => ?_⟩
  exact ((hdenominators e he).and_readsOnly (hproper.reads.2 e he)).mono hmentions

/-- The free ratio of a definition counts as one. -/
theorem IsLayered.isParameter (hc : c.IsLayered) (hd : d ∈ c.definitions) (hq : q ∈ d.parameter) :
    c.isParameter q = .ok true := by
  obtain ⟨u, v, rfl, -, hne, -⟩ := (hc.proper d hd).parameter q hq
  obtain ⟨o, ho⟩ := Quantity.IsRegular.exists_orient (q := .ratio u d.point u v) hne
  rw [isParameter_ratio, ho]
  refine congr_arg Except.ok (List.contains_iff_mem.2 ?_)
  exact (hc.parameters _).2 ⟨d, hd, _, hq, o, ho, rfl⟩

/-! ### Elimination of a point -/

/-- A free ratio, or a quantity of points with a property. -/
def Allows (c : Context) (K : Label → Prop) (q : Quantity) : Prop :=
  c.isParameter q = .ok true ∨ ∀ l ∈ q.labels, K l

theorem Allows.mono {K' : Label → Prop} (h : ∀ l, K l → K' l) (hq : c.Allows K q) : c.Allows K' q :=
  hq.imp_right fun hq l hl => h l (hq l hl)

theorem Allows.readsOnly (hq : c.Allows K q) : q.ReadsOnly K := by
  cases q with
  | area | pythagoras => exact hq.resolve_left nofun
  | ratio a b u v => trivial

theorem IsLayered.allows (hc : c.IsLayered) (hd : d ∈ c.definitions)
    (hq : q ∈ d.parameter ∨ ∀ l ∈ q.labels, K l) : c.Allows K q :=
  hq.imp_left fun hq => hc.isParameter hd hq

/-- A quantity that does not concern a point does not contain it, or is a free ratio. -/
theorem Allows.of_concerns (hq : c.Allows (fun k => k = l ∨ K k) q) (h : c.concerns l q = .ok false) :
    c.Allows K q := by
  refine or_iff_not_imp_left.2 fun hparameter k hk => ?_
  refine ((hq.resolve_left hparameter) k hk).resolve_left ?_
  rintro rfl
  have hmentions : q.mentions k = true := List.contains_iff_mem.2 hk
  unfold concerns at h
  rw [if_pos hmentions] at h
  obtain ⟨b, hb, h⟩ := bind_eq_ok h
  cases b with
  | true => exact hparameter hb
  | false => cases h

theorem isDivision_of_concerns (h : c.concerns l q = .error err) : err.isDivision = true := by
  unfold concerns at h
  split at h
  next =>
    rcases bind_eq_error h with h | ⟨b, -, h⟩
    · cases q with
      | area | pythagoras => cases h
      | ratio a b u v =>
          rw [isParameter_ratio] at h
          rcases bind_eq_error h with h | ⟨o, -, h⟩
          · exact Quantity.isDivision_of_orient h
          · cases h
    · cases h
  next => cases h

/-- The elimination of a point from a quantity leaves other points, unless it fails. -/
theorem ends_eliminateAtom_allows
    (hrule : ∀ d, c.find? l = some d → d.rule.Over (c.Allows K) K)
    (hq : c.Allows (fun k => k = l ∨ K k) q) :
    Ends (c.eliminateAtom q l) used (Eliminates (c.Allows K) l used)
      fun err _ => err.isDivision = true ∨ err.IsMissing := by
  refine (ends_liftM fun err herr => .inl (isDivision_of_concerns herr)).bind ?_
  rintro concerned _ - ⟨hconcerns, rfl⟩
  cases concerned with
  | false => exact ends_pure ⟨hq.of_concerns hconcerns, fun k hk => .inl hk⟩
  | true =>
      have hlabels : ∀ k ∈ q.labels, k = l ∨ K k := by
        refine hq.resolve_left fun hparameter => ?_
        unfold concerns at hconcerns
        rw [hparameter] at hconcerns
        split at hconcerns <;> cases hconcerns
      refine (ends_eliminateQuantity (mentions_of_concerns hconcerns) fun d hfind e he => ?_).mono
        (fun _ _ _ h => h) fun _ _ h => .inr h
      refine Definition.over_eliminate (fun k _ hk => .inr hk) (hrule d hfind) (fun k hk hne => ?_) he
      exact (hlabels k hk).resolve_left (point_of_find? hfind ▸ hne)

/-- An expression in which a point is not left is over other points. -/
theorem Allows.of_mentions (he : e.Over (c.Allows fun k => k = l ∨ K k)) (h : c.mentions l e = .ok false) :
    e.Over (c.Allows K) := by
  induction e with
  | number q => trivial
  | atom q => exact Allows.of_concerns he h
  | neg e ih => exact ih he h
  | elim e p _ => exact he.elim
  | add a b iha ihb | sub a b iha ihb | mul a b iha ihb | div a b iha ihb =>
      obtain ⟨mentioned, ha, h⟩ := bind_eq_ok h
      cases mentioned with
      | true => cases h
      | false => exact ⟨iha he.1 ha, ihb he.2 h⟩

theorem Allows.of_cons {ps : List Label} (he : e.Over (c.Allows fun k => k ∈ c.freePoints ∨ k ∈ l :: ps)) :
    e.Over (c.Allows fun k => k = l ∨ (k ∈ c.freePoints ∨ k ∈ ps)) :=
  he.mono fun q hq => hq.mono fun k hk => by rwa [List.mem_cons, or_left_comm] at hk

theorem isDivision_of_mentions {P : Quantity → Prop} (he : e.Over P) (h : c.mentions l e = .error err) :
    err.isDivision = true := by
  induction e with
  | number q => cases h
  | atom q => exact isDivision_of_concerns h
  | neg e ih => exact ih he h
  | elim e p _ => exact he.elim
  | add a b iha ihb | sub a b iha ihb | mul a b iha ihb | div a b iha ihb =>
      rcases bind_eq_error h with h | ⟨mentioned, -, h⟩
      · exact iha he.1 h
      · cases mentioned with
        | true => cases h
        | false => exact ihb he.2 h

end Context

/-! ### Elimination of all points -/

namespace Prover

variable {m : Prover} {p : Protocol} {pass : Transformation} {s s' : Progress} {e e' : Expr} {l : Label}
  {k : Quantity} {P : Quantity → Prop}

theorem ends_simplify_over (he : e.Over P) : Ends (m.simplify e) s (fun e' s' => e'.Over P ∧ s'.used = s.used)
    fun err _ => err.isDivision = true ∨ err.IsMissing := by
  refine (ends_simplification m e s).mono ?_ ?_
  · rintro e' s' - ⟨⟨settled, hsimplify⟩, hused⟩
    exact ⟨he.simplifyWithin hsimplify, hused⟩
  · rintro err s' ⟨herr, -⟩
    exact .inl (Expr.isDivision_of_simplifyWithin herr)

section Layered

variable (hc : m.context.IsLayered) (hstems : m.context.StemsFrom p)

include hc hstems

/-- The definition of the last of some first constructed points is over free points and the others of them. -/
theorem over_rule_of_split {ps later : List Label} {d : Definition}
    (horder : m.context.order = (l :: ps).reverse ++ later) (hd : m.context.find? l = some d) :
    d.rule.Over (m.context.Allows fun k => k ∈ m.context.freePoints ∨ k ∈ ps)
      fun k => k ∈ m.context.freePoints ∨ k ∈ ps := by
  rw [List.reverse_cons, List.append_assoc, List.singleton_append] at horder
  have hnew : l ∉ ps.reverse := by
    have hnodup := hc.nodup.of_append_right
    rw [horder] at hnodup
    exact fun h => (List.nodup_append.1 hnodup).2.2 _ h _ List.mem_cons_self rfl
  have hbefore : m.context.order.takeWhile (· ≠ l) = ps.reverse := by
    rw [horder, Context.takeWhile_of_split hnew]
  have hlisted (k : Label) (hk : m.context.ListsBefore d.point k) : k ∈ m.context.freePoints ∨ k ∈ ps := by
    refine hk.imp_right fun hk => ?_
    rw [Context.point_of_find? hd, hbefore] at hk
    exact List.mem_reverse.1 hk
  have hmem := List.mem_of_find?_eq_some hd
  refine (hc.mentionsOnly hstems hmem).rule.mono (fun q hq => ?_) hlisted
  exact hc.allows hmem (hq.imp_right fun hq k hk => hlisted k (hq k hk))

/-- Some first constructed points are eliminated from the last one on: each elimination brings in earlier
points only. -/
theorem ends_eliminateAll_layered {ps later : List Label} (horder : m.context.order = ps.reverse ++ later)
    (he : e.Over (m.context.Allows fun l => l ∈ m.context.freePoints ∨ l ∈ ps)) :
    Ends (m.eliminateAll ps e) s
      (fun r s' => r.1.Over (m.context.Allows (· ∈ m.context.freePoints)) ∧
        ∀ l ∈ s'.used, l ∈ s.used ∨ l ∈ m.context.order)
      fun err _ => err.isDivision = true ∨ err.IsMissing := by
  -- The points still to go are the first constructed ones, and no others occur but free ones.
  refine (ends_eliminateAll_of_step (I := fun rest e' s' =>
    (∃ later, m.context.order = rest.reverse ++ later) ∧
      e'.Over (m.context.Allows fun l => l ∈ m.context.freePoints ∨ l ∈ rest) ∧
      ∀ l ∈ s'.used, l ∈ s.used ∨ l ∈ m.context.order)
    ?_ ?_ ?_ ⟨⟨later, horder⟩, he, fun l hl => .inl hl⟩).mono ?_ fun _ _ h => h
  · rintro p rest e' s' err ⟨-, he', -⟩ herr
    exact .inl (Context.isDivision_of_mentions he' herr)
  · rintro p rest e' s' ⟨⟨later, horder⟩, he', hamong⟩ hmentions
    have hleft := Context.Allows.of_mentions (Context.Allows.of_cons he') hmentions
    exact ⟨⟨p :: later, by simpa using horder⟩, hleft, hamong⟩
  · rintro p rest e' s' ⟨⟨later, horder⟩, he', hamong⟩ -
    have hp : p ∈ m.context.order := by simp [horder]
    refine (ends_recording (Context.ends_eliminate_of_atoms (fun q hq _ =>
      Context.ends_eliminateAtom_allows (fun d hd => over_rule_of_split hc hstems horder hd) hq)
      (Context.Allows.of_cons he'))).mono ?_ fun _ _ h => h
    rintro a s₁ - ⟨ha, h₁⟩
    refine (ends_simplify_over ha).mono ?_ fun _ _ h => h
    rintro b s₂ - ⟨hb, h₂⟩
    refine ⟨⟨p :: later, by simpa using horder⟩, hb, fun l hl => ?_⟩
    rw [h₂] at hl
    rcases h₁ l hl with hl | rfl
    · exact hamong l hl
    · exact .inr hp
  · rintro ⟨last, trace⟩ s' - ⟨-, hlast, hamong⟩
    exact ⟨hlast.mono fun q hq => hq.mono fun l hl => hl.resolve_right List.not_mem_nil, hamong⟩

/-- The elimination of the constructed points, or of those before a given one, leaves free points and free
ratios, unless it fails. -/
theorem ends_eliminateConstructed_layered {before : Option Label}
    (hbefore : ∀ l ∈ before, l ∈ m.context.order)
    (he : e.Over (m.context.Allows (m.context.ListsUpTo before))) :
    Ends (m.eliminateConstructed e before) s
      (fun r s' => r.1.Over (m.context.Allows (· ∈ m.context.freePoints)) ∧
        ∀ l ∈ s'.used, l ∈ s.used ∨ l ∈ m.context.order)
      fun err _ => err.isDivision = true ∨ err.IsMissing := by
  obtain ⟨points, later, hpoints, horder, hlists⟩ := exists_pointsBefore hbefore
  refine (ends_liftM_of_ok hpoints).bind ?_
  rintro _ _ - ⟨rfl, rfl⟩
  refine (ends_simplify_over (he.mono fun q hq => hq.mono hlists)).bind ?_
  rintro a s₁ - ⟨ha, h₁⟩
  have hall : a.Over (m.context.Allows fun l => l ∈ m.context.freePoints ∨ l ∈ points.reverse) :=
    ha.mono fun q hq => hq.mono fun l hl => hl.imp_right List.mem_reverse.2
  have hreverse : m.context.order = points.reverse.reverse ++ later := by
    rw [List.reverse_reverse]
    exact horder
  refine (ends_eliminateAll_layered hc hstems hreverse hall).mono ?_ fun _ _ h => h
  rintro r s' - ⟨hr, hamong⟩
  exact ⟨hr, fun l hl => (hamong l hl).imp_left fun hl => h₁ ▸ hl⟩

end Layered

end Prover
end Planimetry.Area
