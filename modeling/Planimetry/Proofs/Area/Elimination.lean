import Planimetry.Proofs.Area.Geometry

/-! Elimination of a point from an expression: it keeps the value wherever the definition of the point holds,
and records the use of that definition. -/

namespace Planimetry.Area

section Returns

variable {σ ε α β : Type} {s s' : σ} {a : α}

/-- A computation gives a result and leaves a state. -/
def Returns (x : ExceptT ε (StateM σ) α) (s : σ) (a : α) (s' : σ) : Prop := x.run s = (.ok a, s')

/-- A computation goes on in the state that the one before leaves, unless that fails. -/
theorem run_bind (x : ExceptT ε (StateM σ) α) (f : α → ExceptT ε (StateM σ) β) (s : σ) :
    (x >>= f).run s = (ExceptT.bindCont f (x.run s).1).run (x.run s).2 := rfl

theorem returns_bind {x : ExceptT ε (StateM σ) α} {f : α → ExceptT ε (StateM σ) β} {b : β} :
    Returns (x >>= f) s b s' ↔ ∃ a t, Returns x s a t ∧ Returns (f a) t b s' := by
  unfold Returns
  rw [run_bind]
  constructor
  · intro h
    rcases hx : x.run s with ⟨e | a, t⟩
    · rw [hx] at h
      cases h
    · rw [hx] at h
      exact ⟨a, t, rfl, h⟩
  · rintro ⟨a, t, hx, hf⟩
    rw [hx]
    exact hf

theorem returns_pure {b : α} :
    Returns (pure a : ExceptT ε (StateM σ) α) s b s' ↔ b = a ∧ s = s' := by
  constructor
  · intro h
    cases h
    exact ⟨rfl, rfl⟩
  · rintro ⟨rfl, rfl⟩
    rfl

theorem returns_liftM {x : Except ε α} :
    Returns (liftM x : ExceptT ε (StateM σ) α) s a s' ↔ x = .ok a ∧ s = s' := by
  constructor
  · intro h
    cases x with
    | error e => cases h
    | ok b =>
        cases h
        exact ⟨rfl, rfl⟩
  · rintro ⟨rfl, rfl⟩
    rfl

theorem not_returns_throw {e : ε} : ¬Returns (throw e : ExceptT ε (StateM σ) α) s a s' := by
  intro h
  cases h

theorem returns_modify {f : σ → σ} {u : Unit} :
    Returns (modify f : ExceptT ε (StateM σ) Unit) s u s' ↔ s' = f s := by
  constructor
  · intro h
    cases h
    rfl
  · rintro rfl
    rfl

theorem returns_get {t : σ} : Returns (get : ExceptT ε (StateM σ) σ) s t s' ↔ t = s ∧ s = s' := by
  constructor
  · intro h
    cases h
    exact ⟨rfl, rfl⟩
  · rintro ⟨rfl, rfl⟩
    rfl

theorem returns_set {t : σ} {u : PUnit} :
    Returns (set t : ExceptT ε (StateM σ) PUnit) s u s' ↔ s' = t := by
  constructor
  · intro h
    cases h
    rfl
  · rintro rfl
    rfl

end Returns

/-- More definitions are in use, after the earlier ones, still none of them twice. -/
def Grows (used used' : List Label) : Prop := used <+: used' ∧ (used.Nodup → used'.Nodup)

theorem Grows.refl (used : List Label) : Grows used used := ⟨List.prefix_rfl, id⟩

theorem Grows.trans {used used' used'' : List Label} (h : Grows used used')
    (h' : Grows used' used'') : Grows used used'' :=
  ⟨h.1.trans h'.1, fun hused => h'.2 (h.2 hused)⟩

namespace Context

variable {c : Context} {p point : Label} {q : Quantity} {e e' : Expr} {used used' : List Label}

theorem returns_recordUse {u : Unit} (h : Returns (recordUse p) used u used') :
    Grows used used' ∧ p ∈ used' ∧ ∀ l ∈ used', l ∈ used ∨ l = p := by
  rw [recordUse, returns_modify] at h
  subst h
  split
  next hmem => exact ⟨.refl _, List.contains_iff_mem.1 hmem, fun l hl => .inl hl⟩
  next hmem =>
    have hp : p ∉ used := fun hp => hmem (List.contains_iff_mem.2 hp)
    refine ⟨⟨List.prefix_append _ _, fun hused => ?_⟩, List.mem_append_right _ List.mem_cons_self,
      fun l hl => (List.mem_append.1 hl).imp_right List.mem_singleton.1⟩
    refine List.nodup_append.2 ⟨hused, List.nodup_singleton p, fun l hl m hm heq => hp ?_⟩
    rw [← List.mem_singleton.1 hm, ← heq]
    exact hl

theorem definition_eq_ok {d : Definition} (h : c.definition p = .ok d) : c.find? p = some d := by
  unfold definition at h
  split at h
  next => cases h
  next =>
    split at h
    next d' hd =>
      cases h
      exact hd
    next => cases h

theorem point_of_find? {d : Definition} (h : c.find? p = some d) : d.point = p := by
  have hpoint := List.find?_some h
  exact eq_of_beq hpoint

theorem mentions_of_concerns (h : c.concerns p q = .ok true) : q.mentions p = true := by
  unfold concerns at h
  split at h
  next hmentions => exact hmentions
  next => cases h

theorem returns_eliminateQuantity (h : Returns (c.eliminateQuantity q p) used e used') :
    ∃ d, c.find? p = some d ∧ d.eliminate q = .ok e ∧ Grows used used' ∧ p ∈ used' ∧
      ∀ l ∈ used', l ∈ used ∨ l = p := by
  unfold eliminateQuantity at h
  obtain ⟨d, used₁, hlift, h⟩ := returns_bind.1 h
  obtain ⟨hd, rfl⟩ := returns_liftM.1 hlift
  obtain ⟨u, used₂, hu, h⟩ := returns_bind.1 h
  obtain ⟨he, rfl⟩ := returns_liftM.1 h
  exact ⟨d, definition_eq_ok hd, he, returns_recordUse hu⟩

/-- A quantity stays as it is, or a definition gives its value. -/
theorem returns_eliminateAtom (h : Returns (c.eliminateAtom q p) used e used') :
    e = .atom q ∧ used = used' ∨
      q.mentions p = true ∧ Returns (c.eliminateQuantity q p) used e used' := by
  unfold eliminateAtom at h
  obtain ⟨concerned, used₁, hlift, h⟩ := returns_bind.1 h
  obtain ⟨hconcerns, rfl⟩ := returns_liftM.1 hlift
  cases concerned with
  | true => exact .inr ⟨mentions_of_concerns hconcerns, h⟩
  | false => exact .inl (returns_pure.1 h)

theorem grows_eliminateAtom (h : Returns (c.eliminateAtom q p) used e used') : Grows used used' := by
  rcases returns_eliminateAtom h with ⟨-, rfl⟩ | ⟨-, h⟩
  · exact .refl _
  · obtain ⟨d, -, -, hgrows, -⟩ := returns_eliminateQuantity h
    exact hgrows

/-- Two computations one after the other, joined to one expression. -/
theorem returns_node {x y : Using Expr} {f : Expr → Expr → Expr}
    (h : Returns (do return f (← x) (← y)) used e used') :
    ∃ a b used₁, Returns x used a used₁ ∧ Returns y used₁ b used' ∧ e = f a b := by
  obtain ⟨a, used₁, ha, h⟩ := returns_bind.1 h
  obtain ⟨b, used₂, hb, h⟩ := returns_bind.1 h
  obtain ⟨rfl, rfl⟩ := returns_pure.1 h
  exact ⟨a, b, used₁, ha, hb, rfl⟩

theorem returns_map {x : Using Expr} {f : Expr → Expr}
    (h : Returns (do return f (← x)) used e used') : ∃ a, Returns x used a used' ∧ e = f a := by
  obtain ⟨a, used₁, ha, h⟩ := returns_bind.1 h
  obtain ⟨rfl, rfl⟩ := returns_pure.1 h
  exact ⟨a, ha, rfl⟩

theorem grows_node {x y : Using Expr} {f : Expr → Expr → Expr}
    (hx : ∀ {used a used'}, Returns x used a used' → Grows used used')
    (hy : ∀ {used a used'}, Returns y used a used' → Grows used used')
    (h : Returns (do return f (← x) (← y)) used e used') : Grows used used' := by
  obtain ⟨a, b, used₁, ha, hb, -⟩ := returns_node h
  exact (hx ha).trans (hy hb)

theorem grows_map {x : Using Expr} {f : Expr → Expr}
    (hx : ∀ {used a used'}, Returns x used a used' → Grows used used')
    (h : Returns (do return f (← x)) used e used') : Grows used used' := by
  obtain ⟨a, ha, -⟩ := returns_map h
  exact hx ha

theorem grows_eliminateAtoms (h : Returns (c.eliminateAtoms p e) used e' used') :
    Grows used used' := by
  induction e generalizing used e' used' with
  | number q =>
      obtain ⟨-, rfl⟩ := returns_pure.1 h
      exact .refl _
  | atom q => exact grows_eliminateAtom h
  | add l r ihl ihr | sub l r ihl ihr | mul l r ihl ihr | div l r ihl ihr => exact grows_node ihl ihr h
  | neg e ih => exact grows_map ih h
  | elim e point ih => exact grows_map ih h

theorem grows_eliminate (h : Returns (c.eliminate e p) used e' used') : Grows used used' := by
  induction e generalizing p used e' used' with
  | number q =>
      obtain ⟨-, rfl⟩ := returns_pure.1 h
      exact .refl _
  | atom q => exact grows_eliminateAtom h
  | add l r ihl ihr | sub l r ihl ihr | mul l r ihl ihr | div l r ihl ihr => exact grows_node ihl ihr h
  | neg e ih => exact grows_map ih h
  | elim e point ih =>
      obtain ⟨a, used₁, ha, h⟩ := returns_bind.1 h
      exact (ih ha).trans (grows_eliminateAtoms h)

section Denotes

variable {place : Label → ℚ × ℚ} {ratio : Quantity → ℚ} {x : ℚ}

/-- Elimination of a point keeps the value if its definition holds where it is used, and uses that
definition only. -/
theorem denotes_eliminate (h : Returns (c.eliminate e p) used e' used')
    (he : e.Denotes (Quantity.valueAt place ratio) x)
    (hd : p ∈ used' → ∀ d, c.find? p = some d → d.HoldsAt place ratio) :
    e'.Denotes (Quantity.valueAt place ratio) x ∧ ∀ l ∈ used', l ∈ used ∨ l = p := by
  have hboth {used used₁ used₂ : List Label} (h₁ : ∀ l ∈ used₁, l ∈ used ∨ l = p)
      (h₂ : ∀ l ∈ used₂, l ∈ used₁ ∨ l = p) (l : Label) (hl : l ∈ used₂) : l ∈ used ∨ l = p :=
    (h₂ l hl).elim (h₁ l) .inr
  induction e generalizing used e' used' x with
  | number q =>
      obtain ⟨rfl, rfl⟩ := returns_pure.1 h
      exact ⟨he, fun l hl => .inl hl⟩
  | atom q =>
      rcases returns_eliminateAtom h with ⟨rfl, rfl⟩ | ⟨hmentions, h⟩
      · exact ⟨he, fun l hl => .inl hl⟩
      · obtain ⟨d, hfind, helim, -, hp, hused⟩ := returns_eliminateQuantity h
        rw [← point_of_find? hfind] at hmentions
        have hvalue := (hd hp d hfind).standsAt.denotes_eliminate (isGeometric_valueAt place ratio) hmentions helim
        exact ⟨hvalue.of_eq he.2, hused⟩
  | add l r ihl ihr =>
      obtain ⟨a, b, used₁, ha, hb, rfl⟩ := returns_node h
      obtain ⟨y, z, hy, hz, rfl⟩ := Expr.denotes_add_iff.1 he
      obtain ⟨hy, h₁⟩ := ihl ha hy fun hp => hd ((grows_eliminate hb).1.subset hp)
      obtain ⟨hz, h₂⟩ := ihr hb hz hd
      exact ⟨hy.add hz, hboth h₁ h₂⟩
  | sub l r ihl ihr =>
      obtain ⟨a, b, used₁, ha, hb, rfl⟩ := returns_node h
      obtain ⟨y, z, hy, hz, rfl⟩ := Expr.denotes_sub_iff.1 he
      obtain ⟨hy, h₁⟩ := ihl ha hy fun hp => hd ((grows_eliminate hb).1.subset hp)
      obtain ⟨hz, h₂⟩ := ihr hb hz hd
      exact ⟨hy.sub hz, hboth h₁ h₂⟩
  | mul l r ihl ihr =>
      obtain ⟨a, b, used₁, ha, hb, rfl⟩ := returns_node h
      obtain ⟨y, z, hy, hz, rfl⟩ := Expr.denotes_mul_iff.1 he
      obtain ⟨hy, h₁⟩ := ihl ha hy fun hp => hd ((grows_eliminate hb).1.subset hp)
      obtain ⟨hz, h₂⟩ := ihr hb hz hd
      exact ⟨hy.mul hz, hboth h₁ h₂⟩
  | div l r ihl ihr =>
      obtain ⟨a, b, used₁, ha, hb, rfl⟩ := returns_node h
      obtain ⟨y, z, hy, hz, hne, rfl⟩ := Expr.denotes_div_iff.1 he
      obtain ⟨hy, h₁⟩ := ihl ha hy fun hp => hd ((grows_eliminate hb).1.subset hp)
      obtain ⟨hz, h₂⟩ := ihr hb hz hd
      exact ⟨hy.div hz hne, hboth h₁ h₂⟩
  | neg e ih =>
      obtain ⟨a, ha, rfl⟩ := returns_map h
      obtain ⟨y, hy, rfl⟩ := Expr.denotes_neg_iff.1 he
      obtain ⟨hy, hused⟩ := ih ha hy hd
      exact ⟨hy.neg, hused⟩
  | elim e point _ => exact (Expr.not_denotes_elim he).elim

end Denotes

end Context

end Planimetry.Area
