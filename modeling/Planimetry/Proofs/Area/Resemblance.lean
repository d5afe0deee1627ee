import Mathlib.GroupTheory.Perm.Basic
import Planimetry.Proofs.Area.Elimination
import Planimetry.Proofs.Area.Orientation
import Planimetry.Proofs.Area.Relabelling

/-! The definitions for the points of a figure under other names: they are the renamed definitions, as long
as the second points of lines are renamed with the lines. -/

namespace Planimetry

/-- Different elements can be taken to as many different ones by a permutation. -/
theorem exists_perm_map {α : Type} [DecidableEq α] {xs ys : List α} (hxs : xs.Nodup) (hys : ys.Nodup)
    (h : xs.length = ys.length) : ∃ π : Equiv.Perm α, xs.map π = ys := by
  induction xs generalizing ys with
  | nil => exact ⟨1, (List.length_eq_zero_iff.1 h.symm).symm⟩
  | cons x xs ih =>
      cases ys with
      | nil => cases h
      | cons y ys =>
          obtain ⟨hx, hxs⟩ := List.nodup_cons.1 hxs
          obtain ⟨hy, hys⟩ := List.nodup_cons.1 hys
          obtain ⟨π, rfl⟩ := ih hxs hys (Nat.succ.inj h)
          refine ⟨π.trans (Equiv.swap (π x) y), ?_⟩
          rw [List.map_cons]
          refine congr_arg₂ List.cons (Equiv.swap_apply_left _ _) (List.map_congr_left fun z hz => ?_)
          -- the other elements stay where the permutation takes them
          refine Equiv.swap_apply_of_ne_of_ne (fun heq => hx (π.injective heq ▸ hz)) fun heq => hy ?_
          exact heq ▸ List.mem_map_of_mem hz

namespace Area

variable {f g : Label → Label} (hf : f.Injective) {p : Protocol} {c c' : Context}

namespace Rule

include hf

theorem shifted_relabel (q a b : Label) : shifted (f q) (f a) (f b) = (shifted q a b).relabel f :=
  weighted_relabel hf [(q, .number 1), (b, .number 1), (a, .number (-1))]

theorem between_relabel (a b : Label) (ratio : Expr) :
    between (f a) (f b) (ratio.relabel f) = (between a b ratio).relabel f :=
  weighted_relabel hf [(a, .sub .one ratio), (b, ratio)]

end Rule

namespace Context

/-! ### Names of second points -/

/-- The second point of a line has the name that it gets from the names of the line and of the point on
it. -/
def NamesSeconds (f : Label → Label) (p : Protocol) : Prop :=
  ∀ s ∈ p.steps, ∀ through line, (s.construction = .set (.parallel through line) ∨
    s.construction = .set (.perpendicular through line)) →
      f (secondLabel through s.label) = secondLabel (f through) (f s.label)

theorem map_eq_of_filterMap {α β : Type} {f : β → β} {a b : α → Option β} {xs : List α}
    (hsome : ∀ x ∈ xs, (b x).isSome = (a x).isSome) (h : (xs.filterMap a).map f = xs.filterMap b) :
    ∀ x ∈ xs, (a x).map f = b x := by
  induction xs with
  | nil => exact List.forall_mem_nil _
  | cons x xs ih =>
      obtain ⟨hx, hxs⟩ := List.forall_mem_cons.1 hsome
      rw [List.forall_mem_cons]
      cases ha : a x with
      | none =>
          have hb : b x = none := by
            rw [ha] at hx
            exact Option.isNone_iff_eq_none.1 (by simpa using hx)
          rw [List.filterMap_cons_none ha, List.filterMap_cons_none hb] at h
          exact ⟨hb.symm, ih hxs h⟩
      | some y =>
          obtain ⟨z, hb⟩ := Option.isSome_iff_exists.1 (hx.trans (by rw [ha]; rfl))
          rw [List.filterMap_cons_some ha, List.filterMap_cons_some hb, List.map_cons] at h
          obtain ⟨hhead, htail⟩ := List.cons.inj h
          exact ⟨by rw [hb, ← hhead]; rfl, ih hxs htail⟩

/-- If the labels under both names are different, those of second points included, some permutation takes the
ones to the others. -/
theorem exists_perm_namesSeconds (hp : Appended p) (hlabels : HasLabels p)
    (hlabels' : HasLabels (p.relabel f g)) :
    ∃ π : Equiv.Perm Label, (∀ s ∈ p.steps, f s.label = π s.label) ∧ NamesSeconds π p := by
  have hsteps : (p.relabel f g).steps = p.steps.map (Step.relabel f) := rfl
  have hseconds : secondLabels (p.relabel f g) =
      p.steps.filterMap fun s => second? (s.relabel f) := by
    unfold secondLabels
    rw [hsteps, List.filterMap_map]
    rfl
  have hnames : (p.relabel f g).steps.map Step.label = p.steps.map fun s => f s.label := List.map_map
  have hsome : ∀ s ∈ p.steps, (second? (s.relabel f)).isSome = (second? s).isSome := by
    intro s _
    unfold second? Step.relabel
    cases s.construction with
    | point rule => rfl
    | statement relation => rfl
    | set locus => cases locus <;> rfl
  unfold HasLabels at hlabels hlabels'
  rw [hseconds, hnames] at hlabels'
  have hlength : (p.steps.filterMap second?).length =
      (p.steps.filterMap fun s => second? (s.relabel f)).length := by
    rw [List.length_filterMap_eq_countP, List.length_filterMap_eq_countP]
    exact List.countP_congr fun s hs => by rw [hsome s hs]
  obtain ⟨π, hπ⟩ := exists_perm_map hlabels hlabels' (by
    rw [List.length_append, List.length_append, List.length_map, List.length_map]
    exact congr_arg (_ + ·) hlength)
  rw [List.map_append, List.map_map] at hπ
  obtain ⟨hlabel, hsecond⟩ := List.append_inj hπ (by rw [List.length_map, List.length_map])
  have hlabel : ∀ s ∈ p.steps, f s.label = π s.label := fun s hs =>
    (List.map_inj_left.1 hlabel s hs).symm
  refine ⟨π, hlabel, fun s hs through line hline => ?_⟩
  have hpoint := map_eq_of_filterMap hsome hsecond s hs
  obtain ⟨t, ht, hthrough, -⟩ := hp.ordered.arguments s hs through (by
    rcases hline with hline | hline <;> rw [hline] <;> exact List.mem_cons_self)
  rw [← hthrough, ← hlabel t ht, ← hlabel s hs, hthrough]
  have hline' : (s.relabel f).construction = .set (.parallel (f through) (f line)) ∨
      (s.relabel f).construction = .set (.perpendicular (f through) (f line)) := by
    unfold Step.relabel
    rcases hline with hline | hline <;> rw [hline]
    · exact .inl rfl
    · exact .inr rfl
  rw [second?_of_directed hline, second?_of_directed hline'] at hpoint
  exact Option.some.inj hpoint

/-! ### Definitions under other names -/

/-- The canonical quantity of a ratio, and that of the renamed ratio. -/
def SameRatio (f : Label → Label) (k k' : Option Quantity) : Prop :=
  ∃ a b u v o o', Quantity.orient (.ratio a b u v) = .ok o ∧
    Quantity.orient (.ratio (f a) (f b) (f u) (f v)) = .ok o' ∧ o.quantity = k ∧ o'.quantity = k'

/-- A context under other names, apart from descriptions and reasons. -/
structure Resembles (f : Label → Label) (c c' : Context) : Prop where
  freePoints : c'.freePoints = c.freePoints.map f
  order : c'.order = c.order.map f
  definitions : List.Forall₂ (Definition.Resembles f) c.definitions c'.definitions
  unsupported : c'.unsupported.map Prod.fst = c.unsupported.map fun u => f u.1
  parameters : List.Forall₂ (SameRatio f) c.parameters c'.parameters

theorem resembles_empty (f : Label → Label) : Resembles f {} {} := ⟨rfl, rfl, .nil, rfl, .nil⟩

section Construction

variable {d d' : Definition} (h : c.Resembles f c')

include h

include hf in
theorem Resembles.find? (l : Label) :
    Option.Rel (Definition.Resembles f) (c.find? l) (c'.find? (f l)) := by
  have hdefinitions := h.definitions
  unfold Context.find?
  generalize c.definitions = ds, c'.definitions = ds' at hdefinitions
  induction hdefinitions with
  | nil => exact .none
  | @cons d d' _ _ hd _ ih =>
      have hpoint : (d'.point == f l) = (d.point == l) := by
        rw [hd.point, Bool.eq_iff_iff, beq_iff_eq, beq_iff_eq, hf.eq_iff]
      rw [List.find?_cons, List.find?_cons, hpoint]
      split
      next => exact .some hd
      next => exact ih

include hf in
theorem Resembles.defines (l : Label) : c'.defines (f l) = c.defines l := by
  have hfind := h.find? hf l
  unfold Context.defines
  generalize c.find? l = d, c'.find? (f l) = d' at hfind
  cases hfind <;> rfl

include hf in
theorem Resembles.insert (hd : d.Resembles f d')
    (hparameter : ∀ k ∈ d.parameter, ∃ a b u v, k = .ratio a b u v) :
    (c.insert d).Resembles f (c'.insert d') where
  freePoints := h.freePoints
  order := by
    unfold Context.insert
    rw [h.order, hd.point, List.map_append, List.map_singleton]
  definitions := .cons hd h.definitions
  unsupported := h.unsupported
  parameters := by
    unfold Context.insert
    rw [hd.parameter]
    cases hk : d.parameter with
    | none => exact h.parameters
    | some k =>
        obtain ⟨a, b, u, v, rfl⟩ := hparameter k hk
        by_cases huv : u = v
        · have hempty : Quantity.orient (.ratio a b u v) = .error (.emptyRatio (.ratio a b u v)) :=
            if_pos huv
          have hempty' : Quantity.orient (.ratio (f a) (f b) (f u) (f v)) =
              .error (.emptyRatio (.ratio (f a) (f b) (f u) (f v))) := if_pos (congr_arg f huv)
          simp only [Option.map_some, Quantity.relabel, hempty, hempty']
          exact h.parameters
        · obtain ⟨o, ho⟩ := Quantity.IsRegular.exists_orient (q := .ratio a b u v) huv
          obtain ⟨o', ho'⟩ := Quantity.IsRegular.exists_orient (q := .ratio (f a) (f b) (f u) (f v))
            (hf.ne huv)
          simp only [Option.map_some, Quantity.relabel, ho, ho']
          exact List.rel_append h.parameters (.cons ⟨a, b, u, v, o, o', ho, ho', rfl, rfl⟩ .nil)

include hf in
theorem Resembles.insertSecond (line line' second : Label) (rule : Rule) :
    (c.insertSecond line second rule).Resembles f
      (c'.insertSecond line' (f second) (rule.relabel f)) := by
  unfold Context.insertSecond
  rw [h.defines hf]
  split
  next => exact h
  next => exact h.insert hf ⟨rfl, rfl, rfl, rfl⟩ nofun

end Construction

section Spans

variable (hp : NamesSeconds f p)

include hf hp

/-- The points that span a line are renamed with it. -/
theorem Resembles.span (h : c.Resembles f c') (n : ℕ) (l : Label) :
    (Context.span (p.relabel f g) n (f l) c').1.toOption =
        (Context.span p n l c).1.toOption.map (Prod.map f f) ∧
      (Context.span p n l c).2.Resembles f (Context.span (p.relabel f g) n (f l) c').2 := by
  induction n generalizing l c c' with
  | zero => exact ⟨rfl, h⟩
  | succ n ih =>
      unfold Context.span
      rw [Protocol.get?_relabel hf]
      cases hs : p.get? l with
      | none => exact ⟨rfl, h⟩
      | some s =>
          obtain ⟨hmem, rfl⟩ := Protocol.mem_of_get? hs
          have hconstruction : (s.relabel f).construction = s.construction.relabel f := rfl
          have hkind : (s.relabel f).kind = s.kind := s.kind_relabel f
          simp only [Option.map_some, hconstruction, hkind]
          cases hk : s.construction with
          | point rule => exact ⟨rfl, h⟩
          | statement relation => exact ⟨rfl, h⟩
          | set locus =>
              cases locus with
              | lineThrough a b => exact ⟨rfl, h⟩
              | parallel through line =>
                  obtain ⟨hends, hrest⟩ := ih h line
                  simp only [Construction.relabel, Locus.relabel, ← hp s hmem through line (.inl hk)]
                  revert hends hrest
                  generalize Context.span p n line c = x, Context.span (p.relabel f g) n (f line) c' = y
                  rcases x with ⟨_ | ⟨a, b⟩, _⟩ <;> rcases y with ⟨_ | ⟨a', b'⟩, _⟩ <;>
                    intro hends hrest <;> cases hends
                  · exact ⟨rfl, hrest⟩
                  · refine ⟨rfl, ?_⟩
                    dsimp only
                    rw [Rule.shifted_relabel hf]
                    exact hrest.insertSecond hf _ _ _ _
              | perpendicular through line =>
                  obtain ⟨hends, hrest⟩ := ih h line
                  simp only [Construction.relabel, Locus.relabel, ← hp s hmem through line (.inr hk)]
                  revert hends hrest
                  generalize Context.span p n line c = x, Context.span (p.relabel f g) n (f line) c' = y
                  rcases x with ⟨_ | ⟨a, b⟩, _⟩ <;> rcases y with ⟨_ | ⟨a', b'⟩, _⟩ <;>
                    intro hends hrest <;> cases hends
                  · exact ⟨rfl, hrest⟩
                  · exact ⟨rfl, hrest.insertSecond hf _ _ _ (.turn through a b .one)⟩
              | _ => exact ⟨rfl, h⟩

theorem Resembles.line (h : c.Resembles f c') (l : Label) :
    (Context.line (p.relabel f g) (f l) c').1.toOption =
        (Context.line p l c).1.toOption.map (Prod.map f f) ∧
      (Context.line p l c).2.Resembles f (Context.line (p.relabel f g) (f l) c').2 := by
  unfold Context.line
  rw [Protocol.size_relabel]
  exact h.span hf hp p.size l

/-- What defines a point is renamed with it. -/
theorem Resembles.ruleOf (h : c.Resembles f c') (own : Label) (rule : PointRule) :
    (Context.ruleOf (p.relabel f g) (f own) c' (rule.relabel f)).1.toOption =
        (Context.ruleOf p own c rule).1.toOption.map (fun r =>
          (r.1.relabel f, r.2.1.map (Expr.relabel f), r.2.2.map (Quantity.relabel f))) ∧
      (Context.ruleOf p own c rule).2.Resembles f
        (Context.ruleOf (p.relabel f g) (f own) c' (rule.relabel f)).2 := by
  cases rule with
  | midpoint a b =>
      have hrule := Rule.weighted_relabel hf [(a, .number (1 / 2)), (b, .number (1 / 2))]
      exact ⟨congr_arg some (Prod.ext hrule rfl), h⟩
  | shifted q a b => exact ⟨congr_arg some (Prod.ext (Rule.shifted_relabel hf q a b) rfl), h⟩
  | symmetric q o =>
      have hrule := Rule.weighted_relabel hf [(o, .number 2), (q, .number (-1))]
      exact ⟨congr_arg some (Prod.ext hrule rfl), h⟩
  | rotated q o => exact ⟨rfl, h⟩
  | foot q a b =>
      have hrule := Rule.between_relabel hf a b
        (.div (.atom (.pythagoras q a b)) (.atom (.pythagoras a b a)))
      exact ⟨congr_arg some (Prod.ext hrule rfl), h⟩
  | intersection l m =>
      obtain ⟨hends, hrest⟩ := h.line hf hp (g := g) l
      simp only [PointRule.relabel, Context.ruleOf]
      revert hends hrest
      generalize Context.line p l c = x, Context.line (p.relabel f g) (f l) c' = y
      rcases x with ⟨_ | ⟨u, v⟩, c₁⟩ <;> rcases y with ⟨_ | ⟨u', v'⟩, c₁'⟩ <;>
        intro hends hrest <;> cases hends
      · exact ⟨rfl, hrest⟩
      · obtain ⟨hends, hrest⟩ := hrest.line hf hp (g := g) m
        dsimp only at hends hrest ⊢
        revert hends hrest
        generalize Context.line p m c₁ = x, Context.line (p.relabel f g) (f m) c₁' = y
        rcases x with ⟨_ | ⟨a, b⟩, c₂⟩ <;> rcases y with ⟨_ | ⟨a', b'⟩, c₂'⟩ <;>
          intro hends hrest <;> cases hends
        · exact ⟨rfl, hrest⟩
        · have hrule := Rule.weighted_relabel hf
            [(b, .div (.atom (.area a u v)) (.sub (.atom (.area a u v)) (.atom (.area b u v)))),
              (a, .div (.neg (.atom (.area b u v)))
                (.sub (.atom (.area a u v)) (.atom (.area b u v))))]
          exact ⟨congr_arg some (Prod.ext hrule rfl), hrest⟩
  | onLine l =>
      obtain ⟨hends, hrest⟩ := h.line hf hp (g := g) l
      simp only [PointRule.relabel, Context.ruleOf]
      revert hends hrest
      generalize Context.line p l c = x, Context.line (p.relabel f g) (f l) c' = y
      rcases x with ⟨_ | ⟨u, v⟩, c₁⟩ <;> rcases y with ⟨_ | ⟨u', v'⟩, c₁'⟩ <;>
        intro hends hrest <;> cases hends
      · exact ⟨rfl, hrest⟩
      · have hrule := Rule.between_relabel hf u v (.atom (.ratio u own u v))
        exact ⟨congr_arg some (Prod.ext hrule rfl), hrest⟩
  | _ => exact ⟨rfl, h⟩

omit hf hp in
/-- A quantity that may be chosen freely is a ratio. -/
theorem exists_ratio_of_ruleOf (own : Label) (rule : PointRule) :
    ∀ r, (Context.ruleOf p own c rule).1 = .ok r → ∀ k ∈ r.2.2, ∃ a b u v, k = .ratio a b u v := by
  rintro ⟨r, denominators, parameter⟩ h
  cases describes_of_ruleOf h with
  | onLine => exact fun k hk => ⟨_, _, _, _, (Option.some.inj hk).symm⟩
  | _ => exact nofun

omit hf hp in
theorem take_of_ne_free {s : Step} {rule : PointRule} (hk : s.construction = .point rule)
    (hne : rule ≠ .free) : Context.take p c s = match Context.ruleOf p s.label c rule with
      | (.ok (r, denominators, parameter), c) =>
        c.insert { point := s.label, rule := r, denominators, parameter, description := s.describe }
      | (.error e, c) =>
        { c with order := c.order ++ [s.label], unsupported := c.unsupported ++ [(s.label, e)] } := by
  unfold Context.take
  rw [hk]
  cases rule with
  | free => exact absurd rfl hne
  | _ => rfl

/-- The definition for a step is renamed with it. -/
theorem Resembles.take (h : c.Resembles f c') (s : Step) :
    (Context.take p c s).Resembles f (Context.take (p.relabel f g) c' (s.relabel f)) := by
  have hconstruction : (s.relabel f).construction = s.construction.relabel f := rfl
  cases hk : s.construction with
  | set locus =>
      unfold Context.take
      rw [hconstruction, hk]
      exact h
  | statement relation =>
      unfold Context.take
      rw [hconstruction, hk]
      exact h
  | point rule =>
      rw [hk] at hconstruction
      by_cases hfree : rule = .free
      · subst hfree
        unfold Context.take
        rw [hconstruction, hk]
        refine ⟨?_, h.order, h.definitions, h.unsupported, h.parameters⟩
        simp only [h.freePoints, List.map_append, List.map_singleton]
        rfl
      · have hfree' : rule.relabel f ≠ .free := by
          cases rule <;> first | exact absurd rfl hfree | exact nofun
        rw [take_of_ne_free hk hfree, take_of_ne_free hconstruction hfree']
        obtain ⟨hrule, hrest⟩ := h.ruleOf hf hp (g := g) s.label rule
        have hratio := exists_ratio_of_ruleOf (p := p) (c := c) s.label rule
        have hlabel : (s.relabel f).label = f s.label := rfl
        rw [hlabel]
        revert hrule hrest hratio
        generalize Context.ruleOf p s.label c rule = x,
          Context.ruleOf (p.relabel f g) (f s.label) c' (rule.relabel f) = y
        rcases x with ⟨_ | ⟨r, ds, k⟩, c₁⟩ <;> rcases y with ⟨_ | ⟨r', ds', k'⟩, c₁'⟩ <;>
          intro hrule hrest hratio <;> cases hrule
        · have horder : c₁'.order = c₁.order.map f := hrest.order
          have hunsupported : c₁'.unsupported.map Prod.fst = c₁.unsupported.map fun u => f u.1 :=
            hrest.unsupported
          refine ⟨hrest.freePoints, ?_, hrest.definitions, ?_, hrest.parameters⟩
          · simp only [horder, List.map_append, List.map_singleton]
          · simp only [hunsupported, List.map_append, List.map_singleton]
        · exact hrest.insert hf ⟨rfl, rfl, rfl, rfl⟩ (hratio _ rfl)

/-- The definitions for the points of a figure under other names are the renamed ones. -/
theorem resembles_ofProtocol :
    (Context.ofProtocol p).Resembles f (Context.ofProtocol (p.relabel f g)) := by
  have hfoldl (steps : List Step) {c c' : Context} (h : c.Resembles f c') :
      (steps.foldl (Context.take p) c).Resembles f
        ((steps.map (Step.relabel f)).foldl (Context.take (p.relabel f g)) c') := by
    induction steps generalizing c c' with
    | nil => exact h
    | cons s steps ih => exact ih (h.take hf hp s)
  exact hfoldl p.steps (resembles_empty f)

end Spans

/-! ### Elimination under other names -/

section Elimination

variable (h : c.Resembles f c')

include hf in
theorem mentions_relabel (q : Quantity) (l : Label) : (q.relabel f).mentions (f l) = q.mentions l := by
  have hlabels : (q.relabel f).labels = q.labels.map f := by cases q <;> rfl
  unfold Quantity.mentions
  rw [hlabels, Bool.eq_iff_iff, List.contains_iff_mem, List.contains_iff_mem,
    List.mem_map_of_injective hf]

include hf h

/-- Free ratios remain free ones. -/
theorem Resembles.isParameter (q : Quantity) :
    (c'.isParameter (q.relabel f)).toOption = (c.isParameter q).toOption := by
  cases q with
  | area a b u => rfl
  | pythagoras a b u => rfl
  | ratio a b u v =>
      rw [Quantity.relabel, isParameter_ratio, isParameter_ratio]
      by_cases huv : u = v
      · rw [show Quantity.orient (.ratio a b u v) = .error _ from if_pos huv,
          show Quantity.orient (.ratio (f a) (f b) (f u) (f v)) = .error _ from
            if_pos (congr_arg f huv)]
        rfl
      · obtain ⟨o, ho⟩ := Quantity.IsRegular.exists_orient (q := .ratio a b u v) huv
        obtain ⟨o', ho'⟩ := Quantity.IsRegular.exists_orient (q := .ratio (f a) (f b) (f u) (f v))
          (hf.ne huv)
        rw [ho, ho']
        refine congr_arg some ?_
        have hparameters := h.parameters
        generalize c.parameters = ks, c'.parameters = ks' at hparameters
        induction hparameters with
        | nil => rfl
        | cons hk _ ih =>
            obtain ⟨a', b', u', v', r, r', hr, hr', rfl, rfl⟩ := hk
            have hsame : (o'.quantity == r'.quantity) = (o.quantity == r.quantity) := by
              rw [Bool.eq_iff_iff, beq_iff_eq, beq_iff_eq]
              exact Quantity.quantity_orient_relabel hf ho hr ho' hr'
            rw [List.contains_cons, List.contains_cons, hsame, ih]

theorem Resembles.concerns (l : Label) (q : Quantity) :
    (c'.concerns (f l) (q.relabel f)).toOption = (c.concerns l q).toOption := by
  unfold Context.concerns
  rw [mentions_relabel hf]
  split
  next => simp only [toOption_bind, h.isParameter hf]
  next => rfl

theorem Resembles.mentions (l : Label) (e : Expr) :
    (c'.mentions (f l) (e.relabel f)).toOption = (c.mentions l e).toOption := by
  have hjoin {x x' y y' : Except Error Bool} (hx : x'.toOption = x.toOption)
      (hy : y'.toOption = y.toOption) : (do if ← x' then return true else y').toOption =
        (do if ← x then return true else y).toOption := by
    simp only [toOption_bind, hx]
    refine Option.bind_congr fun b _ => ?_
    cases b
    · exact hy
    · rfl
  induction e with
  | number q => rfl
  | atom q => exact h.concerns hf l q
  | add a b iha ihb | sub a b iha ihb | mul a b iha ihb | div a b iha ihb => exact hjoin iha ihb
  | neg e ih => exact ih
  | elim e l' ih =>
      simp only [Expr.relabel, Context.mentions, hf.eq_iff]
      split
      next => rfl
      next => exact ih

theorem Resembles.definition (l : Label) : Option.Rel (Definition.Resembles f)
    (c.definition l).toOption (c'.definition (f l)).toOption := by
  have hlookup : (c'.unsupported.lookup (f l)).isSome = (c.unsupported.lookup l).isSome := by
    have hmem {us : List (Label × Unsupported)} {l : Label} :
        (us.lookup l).isSome = true ↔ l ∈ us.map Prod.fst := by
      rw [List.lookup_isSome_iff, List.mem_map]
      exact exists_congr fun u => and_congr_right fun _ => beq_iff_eq.trans eq_comm
    have hkeys : c'.unsupported.map Prod.fst = (c.unsupported.map Prod.fst).map f := by
      rw [List.map_map]
      exact h.unsupported
    rw [Bool.eq_iff_iff, hmem, hmem, hkeys, List.mem_map_of_injective hf]
  have hfind := h.find? hf l
  unfold Context.definition
  cases hl : c.unsupported.lookup l with
  | some r =>
      obtain ⟨r', hr'⟩ := Option.isSome_iff_exists.1 (hlookup.trans (by rw [hl]; rfl))
      rw [hr']
      exact .none
  | none =>
      rw [hl] at hlookup
      have hl' : c'.unsupported.lookup (f l) = none :=
        Option.not_isSome_iff_eq_none.1 (by simp [hlookup])
      rw [hl']
      dsimp only
      generalize c.find? l = d, c'.find? (f l) = d' at hfind
      cases hfind with
      | none => exact .none
      | some hd => exact .some hd

theorem Resembles.denominators (l : Label) :
    c'.denominators (f l) = (c.denominators l).map (Expr.relabel f) := by
  have hfind := h.find? hf l
  unfold Context.denominators
  generalize c.find? l = d, c'.find? (f l) = d' at hfind
  cases hfind with
  | none => rfl
  | some hd => exact hd.denominators

omit hf h in
/-- A computation on the renamed definitions gives the renamed result, and uses the renamed points. -/
def Corresponds (f : Label → Label) (u u' : Using Expr) : Prop :=
  ∀ used, (u'.run (used.map f)).1.toOption = (u.run used).1.toOption.map (Expr.relabel f) ∧
    (u'.run (used.map f)).2 = (u.run used).2.map f

omit hf h in
theorem corresponds_pure (f : Label → Label) (e : Expr) :
    Corresponds f (pure e) (pure (e.relabel f)) := fun _ => ⟨rfl, rfl⟩

omit hf h in
theorem Corresponds.bind {u u' : Using Expr} {k k' : Expr → Using Expr} (hu : Corresponds f u u')
    (hk : ∀ e, Corresponds f (k e) (k' (e.relabel f))) : Corresponds f (u >>= k) (u' >>= k') := by
  intro used
  obtain ⟨hresult, hused⟩ := hu used
  rw [run_bind, run_bind, hused]
  revert hresult
  generalize (u.run used).1 = x, (u'.run (used.map f)).1 = x'
  cases x <;> cases x' <;> intro hresult <;> cases hresult
  · exact ⟨rfl, rfl⟩
  · exact hk _ _

theorem Resembles.eliminateQuantity (q : Quantity) (l : Label) : Corresponds f
    (c.eliminateQuantity q l) (c'.eliminateQuantity (q.relabel f) (f l)) := by
  intro used
  have hd := h.definition hf l
  have hrun (c : Context) (q : Quantity) (l : Label) (used : List Label) :
      (c.eliminateQuantity q l).run used = match c.definition l with
        | .error e => (.error e, used)
        | .ok d => (d.eliminate q, if used.contains l then used else used ++ [l]) := by
    unfold Context.eliminateQuantity
    cases c.definition l <;> rfl
  have hcontains : (used.map f).contains (f l) = used.contains l := by
    rw [Bool.eq_iff_iff, List.contains_iff_mem, List.contains_iff_mem, List.mem_map_of_injective hf]
  rw [hrun, hrun]
  generalize c.definition l = d, c'.definition (f l) = d' at hd
  cases d <;> cases d' <;> cases hd
  · exact ⟨rfl, rfl⟩
  · next hd =>
      refine ⟨hd.eliminate hf q, ?_⟩
      dsimp only
      rw [hcontains]
      split
      next => rfl
      next => rw [List.map_append, List.map_singleton]

theorem Resembles.eliminateAtom (q : Quantity) (l : Label) : Corresponds f
    (c.eliminateAtom q l) (c'.eliminateAtom (q.relabel f) (f l)) := by
  intro used
  have hconcerns := h.concerns hf l q
  have hrun (c : Context) (q : Quantity) (l : Label) (used : List Label) :
      (c.eliminateAtom q l).run used = match c.concerns l q with
        | .error e => (.error e, used)
        | .ok true => (c.eliminateQuantity q l).run used
        | .ok false => (.ok (.atom q), used) := by
    unfold Context.eliminateAtom
    cases c.concerns l q with
    | error e => rfl
    | ok b => cases b <;> rfl
  rw [hrun, hrun]
  generalize c.concerns l q = b, c'.concerns (f l) (q.relabel f) = b' at hconcerns
  cases b <;> cases b' <;> cases hconcerns
  · exact ⟨rfl, rfl⟩
  · next b =>
      cases b with
      | false => exact ⟨rfl, rfl⟩
      | true => exact h.eliminateQuantity hf q l used

theorem Resembles.eliminateAtoms (l : Label) (e : Expr) : Corresponds f
    (c.eliminateAtoms l e) (c'.eliminateAtoms (f l) (e.relabel f)) := by
  induction e with
  | number q => exact corresponds_pure f _
  | atom q => exact h.eliminateAtom hf q l
  | add a b iha ihb => exact iha.bind fun a => ihb.bind fun b => corresponds_pure f (.add a b)
  | sub a b iha ihb => exact iha.bind fun a => ihb.bind fun b => corresponds_pure f (.sub a b)
  | mul a b iha ihb => exact iha.bind fun a => ihb.bind fun b => corresponds_pure f (.mul a b)
  | div a b iha ihb => exact iha.bind fun a => ihb.bind fun b => corresponds_pure f (.div a b)
  | neg e ih => exact ih.bind fun e => corresponds_pure f (.neg e)
  | elim e p ih => exact ih.bind fun e => corresponds_pure f (.elim e p)

/-- Elimination of a renamed point from a renamed expression. -/
theorem Resembles.eliminate (e : Expr) (l : Label) : Corresponds f
    (c.eliminate e l) (c'.eliminate (e.relabel f) (f l)) := by
  induction e generalizing l with
  | number q => exact corresponds_pure f _
  | atom q => exact h.eliminateAtom hf q l
  | add a b iha ihb =>
      exact (iha l).bind fun a => (ihb l).bind fun b => corresponds_pure f (.add a b)
  | sub a b iha ihb =>
      exact (iha l).bind fun a => (ihb l).bind fun b => corresponds_pure f (.sub a b)
  | mul a b iha ihb =>
      exact (iha l).bind fun a => (ihb l).bind fun b => corresponds_pure f (.mul a b)
  | div a b iha ihb =>
      exact (iha l).bind fun a => (ihb l).bind fun b => corresponds_pure f (.div a b)
  | neg e ih => exact (ih l).bind fun e => corresponds_pure f (.neg e)
  | elim e p ih => exact (ih p).bind fun e => h.eliminateAtoms hf l e

end Elimination

end Context
end Area
end Planimetry
