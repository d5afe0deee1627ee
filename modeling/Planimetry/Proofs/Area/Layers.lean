import Planimetry.Proofs.Area.Rule
import Planimetry.Proofs.Transformation.Basic

/-! The order of construction: each point is defined by free points and points constructed before, whether or
not all points have definitions, and the second points of lines come in as they are needed. -/

namespace Planimetry.Area

namespace Context

/-- The labels of the second points of lines parallel or perpendicular to another. -/
def secondLabels (p : Protocol) : List Label :=
  p.steps.filterMap fun s => match s.construction with
    | .set (.parallel through _) | .set (.perpendicular through _) =>
      some (secondLabel through s.label)
    | _ => none

variable {p : Protocol} {c c' : Context} {d : Definition} {l : Label} {steps rest : List Step}
  {s : Step}

section Core

variable {q : Protocol}

theorem span_of_core (h : q.steps.map Step.core = p.steps.map Step.core) (depth : ℕ) (l : Label)
    (c : Context) : span q depth l c = span p depth l c := by
  induction depth generalizing l c with
  | zero => rfl
  | succ depth ih =>
      have hget := Protocol.map_core_get? h l
      unfold span
      cases hp : p.get? l with
      | none =>
          rw [hp, Option.map_none, Option.map_eq_none_iff] at hget
          rw [hget]
      | some s =>
          rw [hp] at hget
          obtain ⟨t, ht, hcore⟩ := Option.map_eq_some_iff.1 hget
          have hconstruction : t.construction = s.construction := congr_arg (fun k => k.2.1) hcore
          have hkind : t.kind = s.kind := congr_arg Construction.kind hconstruction
          rw [ht]
          simp only [ih, hconstruction, hkind]

theorem line_of_core (h : q.steps.map Step.core = p.steps.map Step.core) (l : Label) (c : Context) :
    line q l c = line p l c := by
  unfold line
  rw [span_of_core h, Protocol.size_of_core h]

theorem ruleOf_of_core (h : q.steps.map Step.core = p.steps.map Step.core) (own : Label) (c : Context)
    (rule : PointRule) : ruleOf q own c rule = ruleOf p own c rule := by
  cases rule <;> simp only [ruleOf, line_of_core h]

theorem take_of_core {s t : Step} (h : q.steps.map Step.core = p.steps.map Step.core)
    (hcore : t.core = s.core) (c : Context) : take q c t = take p c s := by
  have hlabel : t.label = s.label := congr_arg Prod.fst hcore
  have hconstruction : t.construction = s.construction := congr_arg (fun k => k.2.1) hcore
  unfold take Step.describe
  simp only [hconstruction, hlabel, ruleOf_of_core h]

/-- The definitions of points depend on the cores of the steps only. -/
theorem ofProtocol_of_core (h : q.steps.map Step.core = p.steps.map Step.core) :
    ofProtocol q = ofProtocol p := by
  have hfoldl (ss ts : List Step) (c : Context) (hst : ts.map Step.core = ss.map Step.core) :
      ts.foldl (take q) c = ss.foldl (take p) c := by
    induction ss generalizing ts c with
    | nil =>
        rw [List.map_nil, List.map_eq_nil_iff] at hst
        rw [hst]
        rfl
    | cons s ss ih =>
        obtain ⟨t, ts, rfl, hcore, hrest⟩ := List.map_eq_cons_iff.1 hst
        rw [List.foldl_cons, List.foldl_cons, take_of_core h hcore, ih ts _ hrest]
  exact hfoldl _ _ _ h

end Core

theorem mem_secondLabels (hs : s ∈ p.steps) {through line : Label}
    (h : s.construction = .set (.parallel through line) ∨
      s.construction = .set (.perpendicular through line)) :
    secondLabel through s.label ∈ secondLabels p := by
  refine List.mem_filterMap.2 ⟨s, hs, ?_⟩
  rcases h with h | h <;> rw [h]

theorem ne_secondLabel (through line : Label) : through ≠ secondLabel through line := by
  intro h
  have hlength := congr_arg String.length h
  unfold secondLabel at hlength
  simp only [String.length_append] at hlength
  have hbracket : "[".length = 1 := rfl
  omega

/-- A line is taken through a point in the direction of another line, of two points of which a rule makes
its second point. -/
def Directs (k : Construction) (through line : Label) (rule : Label → Label → Rule) : Prop :=
  k = .set (.parallel through line) ∧ rule = Rule.shifted through ∨
    k = .set (.perpendicular through line) ∧ rule = fun a b => Rule.turn through a b .one

theorem Directs.construction {k : Construction} {through line : Label} {rule : Label → Label → Rule}
    (h : Directs k through line rule) :
    k = .set (.parallel through line) ∨ k = .set (.perpendicular through line) :=
  h.imp And.left And.left

theorem Directs.isProper {k : Construction} {through line a b : Label} {rule : Label → Label → Rule}
    (h : Directs k through line rule) {known : Label → Prop} (hthrough : known through) (ha : known a)
    (hb : known b) (hrule : d.rule = rule a b) (hdenominators : d.denominators = [])
    (hparameter : d.parameter = none) : d.IsProper known := by
  rcases h with ⟨-, rfl⟩ | ⟨-, rfl⟩
  · exact d.isProper_of_numbers [(through, 1), (b, 1), (a, -1)] hdenominators hparameter hrule
      (by simp [hthrough, ha, hb]) (by norm_num)
  · exact d.isProper_of_turn hdenominators hparameter hrule hthrough ha hb

/-- What a search for two points that span a line comes to. It fails at the line, or at that whose direction
the line takes; or it finds the points through which the line runs, or its point and a second one. -/
inductive Spans (p : Protocol) (n : ℕ) (l : Label) (c : Context) :
    Except Unsupported (Label × Label) × Context → Prop
  | failed (e : Unsupported) : Spans p n l c (.error e, c)
  | failedAt {s : Step} {through line : Label} {rule : Label → Label → Rule} {e : Unsupported}
      {c' : Context} (hs : p.get? l = some s) (hdirects : Directs s.construction through line rule)
      (h : span p n line c = (.error e, c')) : Spans p n l c (.error e, c')
  | runs {s : Step} {u v : Label} (hs : p.get? l = some s)
      (hlocus : s.construction = .set (.lineThrough u v)) : Spans p n l c (.ok (u, v), c)
  | takes {s : Step} {through line a b : Label} {rule : Label → Label → Rule} {c' : Context}
      (hs : p.get? l = some s) (hdirects : Directs s.construction through line rule)
      (h : span p n line c = (.ok (a, b), c')) :
      Spans p n l c (.ok (through, secondLabel through l),
        c'.insertSecond l (secondLabel through l) (rule a b))

theorem spans_span (p : Protocol) (n : ℕ) (l : Label) (c : Context) :
    Spans p n l c (Context.span p (n + 1) l c) := by
  unfold Context.span
  split
  next => exact .failed _
  next s hs =>
    split
    next hlocus => exact .runs hs hlocus
    next through line hlocus =>
      rcases hspan : Context.span p n line c with ⟨e | ⟨a, b⟩, c'⟩
      · exact .failedAt hs (.inl ⟨hlocus, rfl⟩) hspan
      · exact .takes hs (.inl ⟨hlocus, rfl⟩) hspan
    next through line hlocus =>
      rcases hspan : Context.span p n line c with ⟨e | ⟨a, b⟩, c'⟩
      · exact .failedAt hs (.inr ⟨hlocus, rfl⟩) hspan
      · exact .takes hs (.inr ⟨hlocus, rfl⟩) hspan
    next => exact .failed _

/-- Rules of points keep what the searches for points of lines keep. -/
theorem ruleOf_keeps {motive : Context → Prop} (own : Label) (rule : PointRule) (hc : motive c)
    (hline : ∀ l c, motive c → motive (Context.line p l c).2) :
    motive (Context.ruleOf p own c rule).2 := by
  cases rule with
  | intersection l m =>
      have hfst := hline l c hc
      unfold Context.ruleOf
      dsimp only
      split
      next hl =>
        rw [hl] at hfst
        exact hfst
      next c₁ hl =>
        rw [hl] at hfst
        have hsnd := hline m c₁ hfst
        split
        next hm =>
          rw [hm] at hsnd
          exact hsnd
        next hm =>
          rw [hm] at hsnd
          exact hsnd
  | onLine l =>
      have hfst := hline l c hc
      unfold Context.ruleOf
      dsimp only
      split
      next hl =>
        rw [hl] at hfst
        exact hfst
      next hl =>
        rw [hl] at hfst
        exact hfst
  | _ => exact hc

section Order

/-- A free point, or a constructed one. -/
def Lists (c : Context) (l : Label) : Prop := l ∈ c.freePoints ∨ l ∈ c.order

/-- A free point, or one constructed before another. -/
def ListsBefore (c : Context) (point l : Label) : Prop :=
  l ∈ c.freePoints ∨ l ∈ c.order.takeWhile (· ≠ point)

/-- Points are constructed once and not free. Each definition is that of a constructed point, on free points
and on those constructed before. The records of the definitions agree with them, unless a point has none. -/
structure IsLayered (c : Context) : Prop where
  nodup : (c.freePoints ++ c.order).Nodup
  listed : ∀ d ∈ c.definitions, d.point ∈ c.order
  proper : ∀ d ∈ c.definitions, d.IsProper (c.ListsBefore d.point)
  order : c.unsupported = [] → c.order = (c.definitions.map Definition.point).reverse
  parameters : ∀ k, k ∈ c.parameters ↔
    ∃ d ∈ c.definitions, ∃ q ∈ d.parameter, ∃ o, q.orient = .ok o ∧ o.quantity = k

theorem takeWhile_append_of_mem {xs : List Label} (h : l ∈ xs) (ys : List Label) :
    (xs ++ ys).takeWhile (· ≠ l) = xs.takeWhile (· ≠ l) := by
  induction xs with
  | nil => cases h
  | cons x xs ih =>
      rw [List.cons_append, List.takeWhile_cons, List.takeWhile_cons]
      split
      next hne => rw [ih ((List.mem_cons.1 h).resolve_left fun heq => of_decide_eq_true hne heq.symm)]
      next => rfl

theorem takeWhile_of_split {xs ys : List Label} (h : l ∉ xs) : (xs ++ l :: ys).takeWhile (· ≠ l) = xs := by
  have hne : ∀ k ∈ xs, decide (k ≠ l) = true := fun k hk => decide_eq_true fun heq => h (heq ▸ hk)
  rw [List.takeWhile_append_of_pos hne]
  simp

/-- Points that come later do not change what is before. -/
theorem ListsBefore.extend {point : Label} (h : c.ListsBefore point l) (hpoint : point ∈ c.order)
    (hfree : c.freePoints ⊆ c'.freePoints) {more : List Label} (horder : c'.order = c.order ++ more) :
    c'.ListsBefore point l := by
  refine h.imp (fun h => hfree h) fun h => ?_
  rw [horder, takeWhile_append_of_mem hpoint]
  exact h

theorem IsLayered.nodup_snoc (hc : c.IsLayered) (hnew : ¬c.Lists l) :
    (c.freePoints ++ (c.order ++ [l])).Nodup := by
  rw [← List.append_assoc]
  refine List.nodup_append.2 ⟨hc.nodup, List.nodup_singleton l, fun k hk m hm heq => hnew ?_⟩
  rw [← List.mem_singleton.1 hm, ← heq]
  exact List.mem_append.1 hk

theorem IsLayered.insert (hc : c.IsLayered) (hnew : ¬c.Lists d.point) (hproper : d.IsProper c.Lists) :
    (c.insert d).IsLayered where
  nodup := hc.nodup_snoc hnew
  listed := List.forall_mem_cons.2
    ⟨List.mem_append_right _ List.mem_cons_self, fun e he => List.mem_append_left _ (hc.listed e he)⟩
  proper := by
    have horder : (c.order ++ [d.point]).takeWhile (· ≠ d.point) = c.order :=
      takeWhile_of_split fun h => hnew (.inr h)
    have hold (e : Definition) (he : e ∈ c.definitions) :
        e.IsProper ((c.insert d).ListsBefore e.point) :=
      (hc.proper e he).mono fun l hl => hl.extend (hc.listed e he) (List.Subset.refl _) rfl
    exact List.forall_mem_cons.2 ⟨hproper.mono fun l hl => hl.imp_right fun hl => horder.symm ▸ hl, hold⟩
  order := by
    intro h
    change c.order ++ [d.point] = _
    rw [hc.order h]
    exact List.reverse_cons.symm
  parameters := by
    intro k
    have hold : (∃ e ∈ (c.insert d).definitions, ∃ q ∈ e.parameter, ∃ o, q.orient = .ok o ∧
        o.quantity = k) ↔ (∃ q ∈ d.parameter, ∃ o, q.orient = .ok o ∧ o.quantity = k) ∨
          k ∈ c.parameters := by
      rw [hc.parameters]
      exact List.exists_mem_cons_iff _ _ _
    rw [hold]
    unfold Context.insert
    cases hq : d.parameter with
    | none => simp
    | some q =>
        cases ho : q.orient with
        | error e => simp [ho]
        | ok o => simp [ho, or_comm, eq_comm]

/-- A free point comes before all constructed ones. -/
theorem IsLayered.free (hc : c.IsLayered) (hnew : ¬c.Lists l) :
    IsLayered { c with freePoints := c.freePoints ++ [l] } where
  nodup := by
    rw [List.append_assoc, List.singleton_append, List.nodup_middle, List.nodup_cons]
    exact ⟨fun h => hnew (List.mem_append.1 h), hc.nodup⟩
  listed := hc.listed
  proper := fun d hd => (hc.proper d hd).mono fun _ hl => hl.imp_left (List.mem_append_left _)
  order := hc.order
  parameters := hc.parameters

/-- A point without definition. -/
theorem IsLayered.skip (hc : c.IsLayered) (hnew : ¬c.Lists l) {reason : Unsupported} :
    IsLayered { c with order := c.order ++ [l], unsupported := c.unsupported ++ [(l, reason)] } where
  nodup := hc.nodup_snoc hnew
  listed := fun d hd => List.mem_append_left _ (hc.listed d hd)
  proper := fun d hd => (hc.proper d hd).mono fun _ hl =>
    hl.extend (hc.listed d hd) (List.Subset.refl _) rfl
  order := fun h => absurd h (List.append_ne_nil_of_right_ne_nil _ (List.cons_ne_nil _ _))
  parameters := hc.parameters

theorem lists_insert (h : c.Lists l) : (c.insert d).Lists l := h.imp_right (List.mem_append_left _)

theorem lists_insert_self : (c.insert d).Lists d.point :=
  .inr (List.mem_append_right _ List.mem_cons_self)

theorem exists_find? (h : l ∈ c.definitions.map Definition.point) : ∃ d, c.find? l = some d := by
  obtain ⟨d, hd, rfl⟩ := List.mem_map.1 h
  refine Option.isSome_iff_exists.1 (List.find?_isSome.2 ⟨d, hd, beq_self_eq_true _⟩)

theorem mem_points_of_find? (h : c.find? l = some d) : l ∈ c.definitions.map Definition.point := by
  have hpoint := List.find?_some h
  rw [beq_iff_eq] at hpoint
  exact hpoint ▸ List.mem_map_of_mem (List.mem_of_find?_eq_some h)

/-- The rule found for a point, if there is one, defines it properly over what is listed. -/
def IsProperRule (c : Context) (own : Label) (found : Except Unsupported (Rule × List Expr × Option Quantity)) :
    Prop :=
  ∀ r denominators parameter description, found = .ok (r, denominators, parameter) →
    Definition.IsProper c.Lists { point := own, rule := r, denominators, parameter, description }

/-- The points of some steps of a protocol are free or constructed; what else is constructed are the second
points of lines. -/
structure Layers (c : Context) (p : Protocol) (steps : List Step) : Prop extends c.IsLayered where
  free : ∀ l, l ∈ c.freePoints ↔ ∃ s ∈ steps, s.label = l ∧ s.construction = .point .free
  points : ∀ s ∈ steps, s.isPoint = true → c.Lists s.label
  sources : ∀ l ∈ c.order, (∃ s ∈ steps, s.label = l) ∨
    l ∈ secondLabels p ∧ l ∈ c.definitions.map Definition.point

/-- A point that a context lists is that of a step, or the second one of a line. -/
theorem Layers.source (hc : c.Layers p steps) (h : c.Lists l) :
    (∃ s ∈ steps, s.label = l) ∨ l ∈ secondLabels p := by
  rcases h with h | h
  · obtain ⟨s, hs, hlabel, -⟩ := (hc.free l).1 h
    exact .inl ⟨s, hs, hlabel⟩
  · exact (hc.sources l h).imp_right And.left

end Order

section Span

/-- A protocol whose points can be told from the second points of its lines. -/
structure IsSeparated (p : Protocol) : Prop where
  ordered : p.Ordered
  accepted : p.Accepted
  labels : ∀ s ∈ p.steps, s.label ∉ secondLabels p

variable (hp : IsSeparated p) (hsteps : p.steps = steps ++ rest)

include hp hsteps

/-- What a step refers to stands before it. -/
theorem exists_mem_of_role (hs : s ∈ p.steps) (hindex : s.index ≤ steps.length)
    {r : (Label × Expectation) × Label}
    (hr : r ∈ s.kind.spec.roles.zip s.construction.arguments) :
    ∃ t ∈ steps, t.label = r.2 ∧ r.1.2.accepts t.category = true := by
  obtain ⟨t, ht, hlabel, hlt, haccepts⟩ := hp.accepted.roles s hs r hr
  obtain ⟨i, hi⟩ := List.mem_iff_getElem?.1 ht
  have hbefore : i < steps.length := by
    have heq := hp.ordered.index i t hi
    omega
  rw [hsteps, List.getElem?_append_left hbefore] at hi
  exact ⟨t, List.mem_of_getElem? hi, hlabel, haccepts⟩

theorem Layers.lists_role (hc : c.Layers p steps) (hs : s ∈ p.steps)
    (hindex : s.index ≤ steps.length) (role : Label)
    (hr : ((role, .exactly .point), l) ∈ s.kind.spec.roles.zip s.construction.arguments) :
    c.Lists l := by
  obtain ⟨t, ht, rfl, haccepts⟩ := exists_mem_of_role hp hsteps hs hindex hr
  exact hc.points t ht (beq_iff_eq.2 (beq_iff_eq.1 haccepts).symm)

/-- The line to which another is parallel or perpendicular stands before that, and so does the point on the
other. -/
theorem Layers.lists_base (hc : c.Layers p steps) (hs : s ∈ p.steps)
    (hindex : s.index ≤ steps.length) {through line : Label}
    (h : s.construction = .set (.parallel through line) ∨
      s.construction = .set (.perpendicular through line)) :
    (∃ t ∈ steps, t.label = line) ∧ c.Lists through := by
  have hroles : s.kind.spec.roles.zip s.construction.arguments =
      [(("point", .exactly .point), through), (("line", .exactly .line), line)] := by
    unfold Step.kind
    rcases h with h | h <;> rw [h] <;> rfl
  obtain ⟨t, ht, hlabel, -⟩ := exists_mem_of_role hp hsteps hs hindex
    (r := (("line", .exactly .line), line)) (by simp [hroles])
  exact ⟨⟨t, ht, hlabel⟩, hc.lists_role hp hsteps hs hindex "point" (by simp [hroles])⟩

theorem index_lt (hs : s ∈ steps) : s ∈ p.steps ∧ s.index < steps.length := by
  obtain ⟨i, hi⟩ := List.mem_iff_getElem?.1 hs
  obtain ⟨hlt, -⟩ := List.getElem?_eq_some_iff.1 hi
  have hi' : p.steps[i]? = some s := by
    rw [hsteps, List.getElem?_append_left hlt]
    exact hi
  have heq := hp.ordered.index i s hi'
  exact ⟨List.mem_of_getElem? hi', by omega⟩

omit hsteps in
theorem Layers.insertSecond (hc : c.Layers p steps) (hsub : ∀ t ∈ steps, t ∈ p.steps)
    (line : Label) {second : Label} {rule : Rule} (hsecond : second ∈ secondLabels p)
    (hproper : ∀ d : Definition, d.rule = rule → d.denominators = [] → d.parameter = none →
      d.IsProper c.Lists) :
    (c.insertSecond line second rule).Layers p steps ∧
      (∀ l, c.Lists l → (c.insertSecond line second rule).Lists l) ∧
      (c.insertSecond line second rule).Lists second := by
  unfold Context.insertSecond
  split
  next hdefines =>
    obtain ⟨d, hd⟩ := Option.isSome_iff_exists.1 hdefines
    obtain ⟨d', hd', rfl⟩ := List.mem_map.1 (mem_points_of_find? hd)
    exact ⟨hc, fun l hl => hl, .inr (hc.listed d' hd')⟩
  next hdefines =>
    have hstep : ¬∃ t ∈ steps, t.label = second := by
      rintro ⟨t, ht, hlabel⟩
      exact hp.labels t (hsub t ht) (hlabel ▸ hsecond)
    have hnew : ¬c.Lists second := by
      rintro (hfree | horder)
      · obtain ⟨t, ht, hlabel, -⟩ := (hc.free second).1 hfree
        exact hstep ⟨t, ht, hlabel⟩
      · obtain ⟨-, hdefined⟩ := (hc.sources second horder).resolve_left hstep
        obtain ⟨d, hd⟩ := exists_find? hdefined
        refine hdefines ?_
        unfold defines
        rw [hd]
        rfl
    refine ⟨⟨hc.toIsLayered.insert hnew (hproper _ rfl rfl rfl), hc.free,
      fun t ht hpoint => lists_insert (hc.points t ht hpoint), ?_⟩, fun l hl => lists_insert hl,
      lists_insert_self⟩
    refine List.forall_mem_append.2 ⟨fun l hl => ?_, List.forall_mem_singleton.2 (.inr ⟨hsecond, ?_⟩)⟩
    · exact (hc.sources l hl).imp_right (And.imp_right (List.mem_cons_of_mem _))
    · exact List.mem_cons_self

/-- The search for points that span a line keeps the order; the points that it finds are listed and differ. -/
theorem Layers.span (hc : c.Layers p steps) {n : ℕ} (hl : ∃ t ∈ steps, t.label = l)
    {found : Except Unsupported (Label × Label)} (h : Context.span p n l c = (found, c')) :
    c'.Layers p steps ∧ (∀ l, c.Lists l → c'.Lists l) ∧
      ∀ u v, found = .ok (u, v) → c'.Lists u ∧ c'.Lists v ∧ u ≠ v := by
  induction n generalizing l found c' with
  | zero =>
      cases h
      exact ⟨hc, fun l hl => hl, nofun⟩
  | succ n ih =>
      obtain ⟨s, hs, rfl⟩ := hl
      obtain ⟨hmem, hindex⟩ := index_lt hp hsteps hs
      have hsub : ∀ t ∈ steps, t ∈ p.steps := fun t ht => (index_lt hp hsteps ht).1
      have hspans := spans_span p n s.label c
      rw [h] at hspans
      cases hspans with
      | failed => exact ⟨hc, fun l hl => hl, nofun⟩
      | failedAt hs' hdirects hspan =>
          obtain rfl := Option.some.inj ((hp.ordered.get?_eq hmem).symm.trans hs')
          obtain ⟨hline, -⟩ := hc.lists_base hp hsteps hmem hindex.le hdirects.construction
          obtain ⟨hc', hmono, -⟩ := ih hline hspan
          exact ⟨hc', hmono, nofun⟩
      | runs hs' hlocus =>
          obtain rfl := Option.some.inj ((hp.ordered.get?_eq hmem).symm.trans hs')
          refine ⟨hc, fun l hl => hl, ?_⟩
          rintro _ _ ⟨⟩
          refine ⟨?_, ?_, hp.accepted.ne_of_lineThrough hmem hlocus⟩
          · exact hc.lists_role hp hsteps hmem hindex.le "a"
              (by simp [Step.kind, hlocus, Construction.kind, Kind.spec, Kind.points,
                Construction.arguments])
          · exact hc.lists_role hp hsteps hmem hindex.le "b"
              (by simp [Step.kind, hlocus, Construction.kind, Kind.spec, Kind.points,
                Construction.arguments])
      | takes hs' hdirects hspan =>
          obtain rfl := Option.some.inj ((hp.ordered.get?_eq hmem).symm.trans hs')
          obtain ⟨hline, hthrough⟩ :=
            hc.lists_base hp hsteps hmem hindex.le hdirects.construction
          obtain ⟨hc₁, hmono, hfound⟩ := ih hline hspan
          obtain ⟨ha, hb, -⟩ := hfound _ _ rfl
          have hlisted := hmono _ hthrough
          obtain ⟨hc', hmono', hsecond⟩ := hc₁.insertSecond hp hsub s.label
            (mem_secondLabels hmem hdirects.construction) fun d hrule hdenominators hparameter =>
              hdirects.isProper hlisted ha hb hrule hdenominators hparameter
          refine ⟨hc', fun l hl => hmono' l (hmono l hl), ?_⟩
          rintro _ _ ⟨⟩
          exact ⟨hmono' _ hlisted, hsecond, ne_secondLabel _ _⟩

end Span

section Take

variable (hp : IsSeparated p) (hsteps : p.steps = steps ++ s :: rest)

include hp hsteps

theorem mem_of_split : s ∈ p.steps ∧ s.index = steps.length := by
  have hs : p.steps[steps.length]? = some s := by
    rw [hsteps, List.getElem?_append_right le_rfl, Nat.sub_self]
    rfl
  exact ⟨List.mem_of_getElem? hs, hp.ordered.index _ s hs⟩

/-- A step is not known before it is taken. -/
theorem Layers.not_lists (hc : c.Layers p steps) : ¬c.Lists s.label := by
  intro hlists
  rcases hc.source hlists with ⟨t, ht, hlabel⟩ | hsecond
  · have hlabels := hp.ordered.labels
    rw [hsteps, List.map_append, List.nodup_append] at hlabels
    exact hlabels.2.2 _ (List.mem_map_of_mem ht) _ (List.mem_map_of_mem List.mem_cons_self) hlabel
  · exact hp.labels s (mem_of_split hp hsteps).1 hsecond

/-! ### The rule of a point -/

omit hp hsteps in
theorem mem_roles_of_point {rule : PointRule} (hrule : s.construction = .point rule)
    {r : (Label × Expectation) × Label}
    (hr : r ∈ (Construction.point rule).kind.spec.roles.zip (Construction.point rule).arguments) :
    r ∈ s.kind.spec.roles.zip s.construction.arguments := by
  unfold Step.kind
  rwa [hrule]

/-- The points to which the rule of a point refers are listed. -/
theorem Layers.lists_argument (hc : c.Layers p steps) {rule : PointRule}
    (hrule : s.construction = .point rule) (role : Label) (hr : ((role, .exactly .point), l) ∈
      (Construction.point rule).kind.spec.roles.zip (Construction.point rule).arguments) : c.Lists l := by
  obtain ⟨hs, hindex⟩ := mem_of_split hp hsteps
  exact hc.lists_role hp hsteps hs hindex.le role (mem_roles_of_point hrule hr)

/-- The search for points that span a line to which the rule of a point refers. -/
theorem Layers.line_argument (hc : c.Layers p steps) {rule : PointRule}
    (hrule : s.construction = .point rule) (role : Label) (expected : Expectation)
    (hr : ((role, expected), l) ∈
      (Construction.point rule).kind.spec.roles.zip (Construction.point rule).arguments)
    {found : Except Unsupported (Label × Label)} (h : Context.line p l c = (found, c')) :
    c'.Layers p steps ∧ (∀ l, c.Lists l → c'.Lists l) ∧
      ∀ u v, found = .ok (u, v) → c'.Lists u ∧ c'.Lists v ∧ u ≠ v := by
  obtain ⟨hs, hindex⟩ := mem_of_split hp hsteps
  obtain ⟨t, ht, hlabel, -⟩ :=
    exists_mem_of_role hp hsteps hs hindex.le (mem_roles_of_point hrule hr)
  exact hc.span hp hsteps ⟨t, ht, hlabel⟩ h

section Rule

variable {a b q o m : Label} {found : Except Unsupported (Rule × List Expr × Option Quantity)}

theorem Layers.isProperRule_midpoint (hc : c.Layers p steps)
    (hrule : s.construction = .point (.midpoint a b)) :
    c.IsProperRule s.label (Context.ruleOf p s.label c (.midpoint a b)).1 := by
  have ha : c.Lists a := hc.lists_argument hp hsteps hrule "a" List.mem_cons_self
  have hb : c.Lists b := hc.lists_argument hp hsteps hrule "b" (List.mem_cons_of_mem _ List.mem_cons_self)
  rintro _ _ _ description ⟨⟩
  exact Definition.isProper_of_numbers [(a, 1 / 2), (b, 1 / 2)] rfl rfl rfl (by simp [ha, hb])
    (by norm_num)

theorem Layers.isProperRule_shifted (hc : c.Layers p steps)
    (hrule : s.construction = .point (.shifted q a b)) :
    c.IsProperRule s.label (Context.ruleOf p s.label c (.shifted q a b)).1 := by
  have hq : c.Lists q := hc.lists_argument hp hsteps hrule "point" List.mem_cons_self
  have ha : c.Lists a := hc.lists_argument hp hsteps hrule "a" (List.mem_cons_of_mem _ List.mem_cons_self)
  have hb : c.Lists b := hc.lists_argument hp hsteps hrule "b"
    (List.mem_cons_of_mem _ (List.mem_cons_of_mem _ List.mem_cons_self))
  rintro _ _ _ description ⟨⟩
  exact Definition.isProper_of_numbers [(q, 1), (b, 1), (a, -1)] rfl rfl rfl (by simp [hq, ha, hb])
    (by norm_num)

theorem Layers.isProperRule_symmetric (hc : c.Layers p steps)
    (hrule : s.construction = .point (.symmetric q o)) :
    c.IsProperRule s.label (Context.ruleOf p s.label c (.symmetric q o)).1 := by
  have hq : c.Lists q := hc.lists_argument hp hsteps hrule "point" List.mem_cons_self
  have ho : c.Lists o := hc.lists_argument hp hsteps hrule "center" (List.mem_cons_of_mem _ List.mem_cons_self)
  rintro _ _ _ description ⟨⟩
  exact Definition.isProper_of_numbers [(o, 2), (q, -1)] rfl rfl rfl (by simp [hq, ho]) (by norm_num)

theorem Layers.isProperRule_rotated (hc : c.Layers p steps)
    (hrule : s.construction = .point (.rotated q o)) :
    c.IsProperRule s.label (Context.ruleOf p s.label c (.rotated q o)).1 := by
  have hq : c.Lists q := hc.lists_argument hp hsteps hrule "point" List.mem_cons_self
  have ho : c.Lists o := hc.lists_argument hp hsteps hrule "center" (List.mem_cons_of_mem _ List.mem_cons_self)
  rintro _ _ _ description ⟨⟩
  exact Definition.isProper_of_turn rfl rfl rfl ho ho hq

theorem Layers.isProperRule_foot (hc : c.Layers p steps)
    (hrule : s.construction = .point (.foot q a b)) :
    c.IsProperRule s.label (Context.ruleOf p s.label c (.foot q a b)).1 := by
  have hq : c.Lists q := hc.lists_argument hp hsteps hrule "point" List.mem_cons_self
  have ha : c.Lists a := hc.lists_argument hp hsteps hrule "a" (List.mem_cons_of_mem _ List.mem_cons_self)
  have hb : c.Lists b := hc.lists_argument hp hsteps hrule "b"
    (List.mem_cons_of_mem _ (List.mem_cons_of_mem _ List.mem_cons_self))
  rintro _ _ _ description ⟨⟩
  exact Definition.isProper_foot hq ha hb

/-- Both lines of an intersection may bring in second points. -/
theorem Layers.ruleOf_intersection (hc : c.Layers p steps)
    (hrule : s.construction = .point (.intersection l m))
    (h : Context.ruleOf p s.label c (.intersection l m) = (found, c')) :
    c'.Layers p steps ∧ c'.IsProperRule s.label found := by
  unfold Context.ruleOf at h
  dsimp only at h
  split at h
  next hl =>
    cases h
    exact ⟨(hc.line_argument hp hsteps hrule "first" .set List.mem_cons_self hl).1, nofun⟩
  next u v c₁ hl =>
    obtain ⟨hc₁, -, hfound⟩ := hc.line_argument hp hsteps hrule "first" .set List.mem_cons_self hl
    obtain ⟨hu, hv, -⟩ := hfound u v rfl
    split at h
    next hm =>
      cases h
      exact ⟨(hc₁.line_argument hp hsteps hrule "second" .set
        (List.mem_cons_of_mem _ List.mem_cons_self) hm).1, nofun⟩
    next a b c₂ hm =>
      cases h
      obtain ⟨hc₂, hmono, hfound⟩ := hc₁.line_argument hp hsteps hrule "second" .set
        (List.mem_cons_of_mem _ List.mem_cons_self) hm
      obtain ⟨ha, hb, -⟩ := hfound a b rfl
      refine ⟨hc₂, ?_⟩
      rintro _ _ _ description ⟨⟩
      exact Definition.isProper_intersection ha hb (hmono _ hu) (hmono _ hv)

/-- The ratio of a random point is its own, as the point is not listed yet. -/
theorem Layers.ruleOf_onLine (hc : c.Layers p steps) (hrule : s.construction = .point (.onLine l))
    (h : Context.ruleOf p s.label c (.onLine l) = (found, c')) :
    c'.Layers p steps ∧ c'.IsProperRule s.label found := by
  unfold Context.ruleOf at h
  dsimp only at h
  split at h
  next hl =>
    cases h
    exact ⟨(hc.line_argument hp hsteps hrule "line" (.exactly .line) List.mem_cons_self hl).1, nofun⟩
  next u v c₁ hl =>
    cases h
    obtain ⟨hc₁, -, hfound⟩ :=
      hc.line_argument hp hsteps hrule "line" (.exactly .line) List.mem_cons_self hl
    obtain ⟨hu, hv, hne⟩ := hfound u v rfl
    have hown := hc₁.not_lists hp hsteps
    refine ⟨hc₁, ?_⟩
    rintro _ _ _ description ⟨⟩
    exact Definition.isProper_onLine hu hv hne (fun heq => hown (heq ▸ hu)) fun heq => hown (heq ▸ hv)

/-- The search for the rule of a point keeps the order; a rule makes a definition on listed points. -/
theorem Layers.ruleOf (hc : c.Layers p steps) {rule : PointRule} (hrule : s.construction = .point rule)
    (h : Context.ruleOf p s.label c rule = (found, c')) :
    c'.Layers p steps ∧ c'.IsProperRule s.label found := by
  cases rule with
  | midpoint a b =>
      cases h
      exact ⟨hc, hc.isProperRule_midpoint hp hsteps hrule⟩
  | shifted q a b =>
      cases h
      exact ⟨hc, hc.isProperRule_shifted hp hsteps hrule⟩
  | symmetric q o =>
      cases h
      exact ⟨hc, hc.isProperRule_symmetric hp hsteps hrule⟩
  | rotated q o =>
      cases h
      exact ⟨hc, hc.isProperRule_rotated hp hsteps hrule⟩
  | foot q a b =>
      cases h
      exact ⟨hc, hc.isProperRule_foot hp hsteps hrule⟩
  | intersection l m => exact hc.ruleOf_intersection hp hsteps hrule h
  | onLine l => exact hc.ruleOf_onLine hp hsteps hrule h
  | _ =>
      cases h
      exact ⟨hc, nofun⟩

end Rule

omit hp hsteps in
/-- One more step adds at most its own point. -/
theorem Layers.snoc (hlayered : c'.IsLayered) (hfree : ∀ l, l ∈ c'.freePoints ↔
      ∃ t ∈ steps ++ [s], t.label = l ∧ t.construction = .point .free)
    (hpoints : ∀ t ∈ steps, t.isPoint = true → c'.Lists t.label)
    (hlast : s.isPoint = true → c'.Lists s.label)
    (hsources : ∀ l ∈ c'.order, ((∃ t ∈ steps, t.label = l) ∨
      l ∈ secondLabels p ∧ l ∈ c'.definitions.map Definition.point) ∨ l = s.label) :
    c'.Layers p (steps ++ [s]) := by
  refine ⟨hlayered, hfree, fun t ht hpoint => ?_, fun l hl => ?_⟩
  · rcases List.mem_append.1 ht with ht | ht
    · exact hpoints t ht hpoint
    · rw [List.mem_singleton.1 ht] at hpoint ⊢
      exact hlast hpoint
  · rcases hsources l hl with (⟨t, ht, hlabel⟩ | hsecond) | hlabel
    · exact .inl ⟨t, List.mem_append_left _ ht, hlabel⟩
    · exact .inr hsecond
    · exact .inl ⟨s, List.mem_append_right _ List.mem_cons_self, hlabel.symm⟩

omit hp hsteps in
theorem exists_mem_snoc_free (hc : c.Layers p steps) (hs : s.construction ≠ .point .free) (l : Label) :
    l ∈ c.freePoints ↔ ∃ t ∈ steps ++ [s], t.label = l ∧ t.construction = .point .free := by
  rw [hc.free]
  constructor
  · rintro ⟨t, ht, hfree⟩
    exact ⟨t, List.mem_append_left _ ht, hfree⟩
  · rintro ⟨t, ht, hlabel, hconstruction⟩
    rcases List.mem_append.1 ht with ht | ht
    · exact ⟨t, ht, hlabel, hconstruction⟩
    · rw [List.mem_singleton.1 ht] at hconstruction
      exact absurd hconstruction hs

/-- A step that is taken keeps the order, whether or not its point has a definition. -/
theorem Layers.take (hc : c.Layers p steps) : (c.take p s).Layers p (steps ++ [s]) := by
  have hown := hc.not_lists hp hsteps
  unfold Context.take
  split
  next hfree =>
    refine Layers.snoc (hc.toIsLayered.free hown) (fun l => ?_)
      (fun t ht hpoint => (hc.points t ht hpoint).imp_left (List.mem_append_left _))
      (fun _ => .inl (List.mem_append_right _ List.mem_cons_self)) fun l hl => .inl (hc.sources l hl)
    rw [List.mem_append, hc.free, List.mem_singleton]
    constructor
    · rintro (⟨t, ht, hlabel⟩ | rfl)
      · exact ⟨t, List.mem_append_left _ ht, hlabel⟩
      · exact ⟨s, List.mem_append_right _ List.mem_cons_self, rfl, hfree⟩
    · rintro ⟨t, ht, hlabel, hconstruction⟩
      rcases List.mem_append.1 ht with ht | ht
      · exact .inl ⟨t, ht, hlabel, hconstruction⟩
      · exact .inr (List.mem_singleton.1 ht ▸ hlabel.symm)
  next rule hne hrule =>
    have hconstruction : s.construction ≠ .point .free := fun heq =>
      hne (Construction.point.inj (hrule.symm.trans heq))
    have hmem {xs : List Label} : ∀ l ∈ xs ++ [s.label], l ∈ xs ∨ l = s.label := fun l hl =>
      (List.mem_append.1 hl).imp_right List.mem_singleton.1
    split
    next r denominators parameter c' hok =>
      obtain ⟨hc', hproper⟩ := hc.ruleOf hp hsteps hrule hok
      refine Layers.snoc (hc'.toIsLayered.insert (hc'.not_lists hp hsteps) (hproper _ _ _ _ rfl))
        (fun l => (exists_mem_snoc_free hc' hconstruction l :))
        (fun t ht hpoint => lists_insert (hc'.points t ht hpoint)) (fun _ => lists_insert_self)
        fun l hl => (hmem l hl).imp_left fun hl => ?_
      exact (hc'.sources l hl).imp_right (And.imp_right (List.mem_cons_of_mem _))
    next e c' herror =>
      obtain ⟨hc', -⟩ := hc.ruleOf hp hsteps hrule herror
      exact Layers.snoc (hc'.toIsLayered.skip (hc'.not_lists hp hsteps))
        (fun l => (exists_mem_snoc_free hc' hconstruction l :))
        (fun t ht hpoint => (hc'.points t ht hpoint).imp_right (List.mem_append_left _))
        (fun _ => .inr (List.mem_append_right _ List.mem_cons_self))
        fun l hl => (hmem l hl).imp_left (hc'.sources l)
  next hfree hpoint =>
    refine Layers.snoc hc.toIsLayered (exists_mem_snoc_free hc hfree) hc.points (fun hs => ?_)
      fun l hl => .inl (hc.sources l hl)
    obtain ⟨rule, hrule⟩ := Transformation.isPoint_iff.1 hs
    exact absurd hrule (hpoint rule)

end Take

theorem Layers.foldl (hp : IsSeparated p) (hsteps : p.steps = steps ++ rest) (hc : c.Layers p steps) :
    (rest.foldl (Context.take p) c).Layers p p.steps := by
  induction rest generalizing steps c with
  | nil =>
      rw [hsteps, List.append_nil]
      exact hc
  | cons s rest ih =>
      have hsteps' : p.steps = (steps ++ [s]) ++ rest := by
        rw [hsteps, List.append_assoc]
        rfl
      exact ih hsteps' (hc.take hp hsteps)

/-- All points of a protocol are free or constructed, each by free points and by those constructed before. -/
theorem layers_ofProtocol (hp : IsSeparated p) : (ofProtocol p).Layers p p.steps := by
  refine Layers.foldl hp rfl ⟨⟨List.nodup_nil, List.forall_mem_nil _, List.forall_mem_nil _, fun _ => rfl,
    fun k => ?_⟩, fun l => ?_, List.forall_mem_nil _, List.forall_mem_nil _⟩
  · simp
  · simp

end Context
end Planimetry.Area
