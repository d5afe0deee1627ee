import Planimetry.Proofs.Area.Context
import Planimetry.Proofs.Figure.Line
import Mathlib.Tactic.Module

/-! The steps from which definitions come: the point of a step by its rule, and the second point of a line
parallel or perpendicular to another. Where a placement meets the conditions of a figure, definitions hold
whose denominators are not zero. -/

namespace Planimetry.Area

/-- What the rules of points make of them: the place, the denominators in it and the free ratio, for any
definitions so far. -/
inductive Rule.Describes (p : Protocol) (own : Label) :
    PointRule → Rule → List Expr → Option Quantity → Prop
  | midpoint (a b : Label) : Describes p own (.midpoint a b)
      (.weighted [(a, .number (1 / 2)), (b, .number (1 / 2))]) [] none
  | shifted (q a b : Label) : Describes p own (.shifted q a b) (.shifted q a b) [] none
  | symmetric (q o : Label) :
    Describes p own (.symmetric q o) (.weighted [(o, .number 2), (q, .number (-1))]) [] none
  | rotated (q o : Label) : Describes p own (.rotated q o) (.turn o o q .one) [] none
  | foot (q a b : Label) : Describes p own (.foot q a b)
      (.between a b (.div (.atom (.pythagoras q a b)) (.atom (.pythagoras a b a))))
      [.atom (.pythagoras a b a)] none
  | intersection {l m u v a b : Label} {c c' : Context} (hl : (Context.line p l c).1 = .ok (u, v))
      (hm : (Context.line p m c').1 = .ok (a, b)) :
    Describes p own (.intersection l m)
      (.weighted [
        (b, .div (.atom (.area a u v)) (.sub (.atom (.area a u v)) (.atom (.area b u v)))),
        (a, .div (.neg (.atom (.area b u v))) (.sub (.atom (.area a u v)) (.atom (.area b u v))))])
      [.sub (.atom (.area a u v)) (.atom (.area b u v))] none
  | onLine {l u v : Label} {c : Context} (hl : (Context.line p l c).1 = .ok (u, v)) :
    Describes p own (.onLine l) (.between u v (.atom (.ratio u own u v))) []
      (some (.ratio u own u v))

namespace Definition

/-- The definition is that of the point that a step constructs. -/
structure IsOf (p : Protocol) (s : Step) (d : Definition) : Prop where
  point : d.point = s.label
  rule : ∃ rule, s.construction = .point rule ∧
    Rule.Describes p s.label rule d.rule d.denominators d.parameter

/-- The definition is that of the second point of a line that a step takes. -/
structure IsSecondOf (p : Protocol) (s : Step) (d : Definition) : Prop where
  denominators : d.denominators = []
  parameter : d.parameter = none
  rule : ∃ through line a b n c, n < p.size ∧ (Context.span p n line c).1 = .ok (a, b) ∧
    d.point = Context.secondLabel through s.label ∧
      (s.construction = .set (.parallel through line) ∧ d.rule = .shifted through a b ∨
        s.construction = .set (.perpendicular through line) ∧ d.rule = .turn through a b .one)

end Definition

namespace Context

variable {p : Protocol} {c : Context} {d : Definition} {s : Step} {l : Label} {n : ℕ}

/-- Free points and definitions come from steps of the protocol. -/
structure StemsFrom (p : Protocol) (c : Context) : Prop where
  free : ∀ l ∈ c.freePoints, ∃ s ∈ p.steps, s.label = l ∧ s.construction = .point .free
  definitions : ∀ d ∈ c.definitions, ∃ s ∈ p.steps, d.IsOf p s ∨ d.IsSecondOf p s

theorem StemsFrom.insert (hc : c.StemsFrom p) (hd : ∃ s ∈ p.steps, d.IsOf p s ∨ d.IsSecondOf p s) :
    (c.insert d).StemsFrom p :=
  ⟨hc.free, List.forall_mem_cons.2 ⟨hd, hc.definitions⟩⟩

theorem StemsFrom.insertSecond (hc : c.StemsFrom p) {line second : Label} {rule : Rule}
    (hd : ∀ d : Definition, d.point = second → d.rule = rule → d.denominators = [] →
      d.parameter = none → ∃ s ∈ p.steps, d.IsSecondOf p s) :
    (c.insertSecond line second rule).StemsFrom p := by
  unfold Context.insertSecond
  split
  next => exact hc
  next => exact hc.insert ((hd _ rfl rfl rfl rfl).imp fun s hs => ⟨hs.1, .inr hs.2⟩)

theorem StemsFrom.span (hc : c.StemsFrom p) (hn : n ≤ p.size) : (span p n l c).2.StemsFrom p := by
  induction n generalizing l with
  | zero => exact hc
  | succ n ih =>
      have hspans := spans_span p n l c
      generalize Context.span p (n + 1) l c = result at hspans
      cases hspans with
      | failed | runs => exact hc
      | @failedAt _ _ line _ _ _ _ _ hspan =>
          have hline := ih (l := line) (by omega)
          rwa [hspan] at hline
      | @takes s through line a b rule _ hs hdirects hspan =>
          have hline := ih (l := line) (by omega)
          rw [hspan] at hline
          obtain ⟨hmem, rfl⟩ := Protocol.mem_of_get? hs
          refine hline.insertSecond fun d hpoint hrule hdenominators hparameter =>
            ⟨s, hmem, hdenominators, hparameter, through, line, a, b, n, c, hn, by rw [hspan], hpoint, ?_⟩
          exact hdirects.imp (fun h => ⟨h.1, hrule.trans (by rw [h.2])⟩)
            fun h => ⟨h.1, hrule.trans (by rw [h.2])⟩

theorem StemsFrom.ruleOf (hc : c.StemsFrom p) (own : Label) (rule : PointRule) :
    (ruleOf p own c rule).2.StemsFrom p :=
  ruleOf_keeps own rule hc fun _ _ hc => hc.span le_rfl

theorem describes_of_ruleOf {own : Label} {rule : PointRule} {r : Rule} {denominators : List Expr}
    {parameter : Option Quantity}
    (h : (Context.ruleOf p own c rule).1 = .ok (r, denominators, parameter)) :
    Rule.Describes p own rule r denominators parameter := by
  cases rule with
  | midpoint a b =>
      cases h
      exact .midpoint a b
  | shifted q a b =>
      cases h
      exact .shifted q a b
  | symmetric q o =>
      cases h
      exact .symmetric q o
  | rotated q o =>
      cases h
      exact .rotated q o
  | foot q a b =>
      cases h
      exact .foot q a b
  | intersection l m =>
      unfold Context.ruleOf at h
      dsimp only at h
      split at h
      next => cases h
      next hl =>
        split at h
        next => cases h
        next hm =>
          cases h
          exact .intersection (congr_arg Prod.fst hl) (congr_arg Prod.fst hm)
  | onLine l =>
      unfold Context.ruleOf at h
      dsimp only at h
      split at h
      next => cases h
      next hl =>
        cases h
        exact .onLine (congr_arg Prod.fst hl)
  | _ => cases h

theorem StemsFrom.take (hc : c.StemsFrom p) (hs : s ∈ p.steps) : (c.take p s).StemsFrom p := by
  unfold Context.take
  split
  next hfree =>
    refine ⟨List.forall_mem_append.2 ⟨hc.free, List.forall_mem_singleton.2 ?_⟩, hc.definitions⟩
    exact ⟨s, hs, rfl, hfree⟩
  next rule _ hrule =>
    have hc' := hc.ruleOf s.label rule
    split
    next hok =>
      rw [hok] at hc'
      exact hc'.insert ⟨s, hs, .inl ⟨rfl, rule, hrule, describes_of_ruleOf (congr_arg Prod.fst hok)⟩⟩
    next herror =>
      rw [herror] at hc'
      exact ⟨hc'.free, hc'.definitions⟩
  next => exact hc

theorem stemsFrom_ofProtocol (p : Protocol) : (ofProtocol p).StemsFrom p := by
  have hfoldl (steps : List Step) (c : Context) (hsub : steps ⊆ p.steps) (hc : c.StemsFrom p) :
      (steps.foldl (Context.take p) c).StemsFrom p := by
    induction steps generalizing c with
    | nil => exact hc
    | cons s steps ih =>
        obtain ⟨hs, hsub⟩ := List.cons_subset.1 hsub
        exact ih _ hsub (hc.take hs)
  exact hfoldl p.steps {} (List.Subset.refl _) ⟨List.forall_mem_nil _, List.forall_mem_nil _⟩

section Seconds

variable {place : Label → ℚ × ℚ} {u v : Label}

/-- The label of the second point of a line that is parallel or perpendicular to another. -/
def second? (s : Step) : Option Label :=
  match s.construction with
  | .set (.parallel through _) | .set (.perpendicular through _) =>
    some (secondLabel through s.label)
  | _ => none

/-- Places also for the second points of lines, each at the end of the vector that spans its line. -/
def withSeconds (p : Protocol) (place : Label → ℚ × ℚ) (l : Label) : ℚ × ℚ :=
  match p.steps.find? fun s => second? s = some l with
  | some s => ((p.lineEnds place p.size s.label).map Prod.snd).getD 0
  | none => place l

/-- All labels are different, those of the second points of lines included. -/
def HasLabels (p : Protocol) : Prop := (p.steps.map Step.label ++ secondLabels p).Nodup

instance (p : Protocol) : Decidable (HasLabels p) := inferInstanceAs (Decidable (List.Nodup _))

theorem second?_of_directed {through line : Label}
    (h : s.construction = .set (.parallel through line) ∨
      s.construction = .set (.perpendicular through line)) :
    second? s = some (secondLabel through s.label) := by
  unfold second?
  rcases h with h | h <;> rw [h]

theorem mem_secondLabels_iff : l ∈ secondLabels p ↔ ∃ s ∈ p.steps, second? s = some l :=
  List.mem_filterMap

theorem withSeconds_of_notMem (h : l ∉ secondLabels p) : withSeconds p place l = place l := by
  unfold withSeconds
  rw [List.find?_eq_none.2 fun s hs hl => h (mem_secondLabels_iff.2 ⟨s, hs, of_decide_eq_true hl⟩)]

theorem HasLabels.withSeconds_label (hp : HasLabels p) (hs : s ∈ p.steps) :
    withSeconds p place s.label = place s.label :=
  withSeconds_of_notMem fun h =>
    (List.nodup_append.1 hp).2.2 _ (List.mem_map_of_mem hs) _ h rfl

theorem eq_of_nodup_filterMap {α β : Type} {f : α → Option β} {xs : List α}
    (h : (xs.filterMap f).Nodup) {a b : α} {x : β} (ha : a ∈ xs) (hb : b ∈ xs) (hfa : f a = some x)
    (hfb : f b = some x) : a = b := by
  induction xs with
  | nil => cases ha
  | cons y xs ih =>
      have hrest : (xs.filterMap f).Nodup := h.sublist ((List.sublist_cons_self y xs).filterMap f)
      have hfirst {z : α} (hz : z ∈ xs) (hfz : f z = some x) (hfy : f y = some x) : False := by
        rw [List.filterMap_cons_some hfy] at h
        exact (List.nodup_cons.1 h).1 (List.mem_filterMap.2 ⟨z, hz, hfz⟩)
      rcases List.mem_cons.1 ha with rfl | ha' <;> rcases List.mem_cons.1 hb with rfl | hb'
      · rfl
      · exact (hfirst hb' hfb hfa).elim
      · exact (hfirst ha' hfa hfb).elim
      · exact ih hrest ha' hb'

theorem HasLabels.withSeconds_second (hp : HasLabels p) (hs : s ∈ p.steps)
    (hl : second? s = some l) {e : (ℚ × ℚ) × (ℚ × ℚ)}
    (he : p.lineEnds place p.size s.label = some e) : withSeconds p place l = e.2 := by
  have hsome : (p.steps.find? fun s => second? s = some l).isSome = true :=
    List.find?_isSome.2 ⟨s, hs, decide_eq_true hl⟩
  obtain ⟨t, ht⟩ := Option.isSome_iff_exists.1 hsome
  have htl := List.find?_some ht
  obtain rfl : s = t := eq_of_nodup_filterMap (List.nodup_append.1 hp).2.1 hs
    (List.mem_of_find?_eq_some ht) hl (of_decide_eq_true htl)
  unfold withSeconds
  rw [ht]
  dsimp only
  rw [he]
  rfl

/-- A line is spanned by the points through which it runs, or by its point and a second one in the
direction that the line takes from another one. -/
theorem span_eq_ok (h : (span p n l c).1 = .ok (u, v)) :
    ∃ m s, n = m + 1 ∧ s ∈ p.steps ∧ s.label = l ∧ p.get? l = some s ∧
      (s.construction = .set (.lineThrough u v) ∨ ∃ line a b,
        (s.construction = .set (.parallel u line) ∨ s.construction = .set (.perpendicular u line)) ∧
          v = secondLabel u l ∧ (span p m line c).1 = .ok (a, b)) := by
  cases n with
  | zero => cases h
  | succ n =>
      have hspans := spans_span p n l c
      generalize Context.span p (n + 1) l c = result at h hspans
      cases hspans with
      | failed | failedAt => cases h
      | runs hs hlocus =>
          cases h
          obtain ⟨hmem, hlabel⟩ := Protocol.mem_of_get? hs
          exact ⟨n, _, rfl, hmem, hlabel, hs, .inl hlocus⟩
      | takes hs hdirects hspan =>
          cases h
          obtain ⟨hmem, hlabel⟩ := Protocol.mem_of_get? hs
          exact ⟨n, _, rfl, hmem, hlabel, hs,
            .inr ⟨_, _, _, hdirects.construction, rfl, by rw [hspan]⟩⟩

/-- The points that span a line stand at the places that do. -/
theorem HasLabels.lineEnds_of_span (hp : HasLabels p) (hordered : p.Ordered) (hn : n ≤ p.size)
    (h : (span p n l c).1 = .ok (u, v)) :
    p.lineEnds place n l = some (withSeconds p place u, withSeconds p place v) := by
  induction n generalizing l u v with
  | zero => cases h
  | succ n ih =>
      obtain ⟨m, s, hm, hs, rfl, hget, hspan⟩ := span_eq_ok h
      obtain rfl := Nat.succ.inj hm
      have hargument {l : Label} (hl : l ∈ s.construction.arguments) :
          withSeconds p place l = place l := by
        obtain ⟨t, ht, rfl, -⟩ := hordered.arguments s hs l hl
        exact hp.withSeconds_label ht
      rcases hspan with hlocus | ⟨line, a, b, hlocus, rfl, hspan⟩
      · rw [hargument (by simp [hlocus, Construction.arguments]),
          hargument (by simp [hlocus, Construction.arguments])]
        exact Protocol.lineEnds_of_lineThrough hget hlocus
      · have hline := ih (by omega) hspan
        rw [hargument (l := u) (by rcases hlocus with h | h <;> simp [h, Construction.arguments])]
        rcases hlocus with hlocus | hlocus
        · have hends := Protocol.lineEnds_of_parallel hget hlocus hline
          rw [hends, hp.withSeconds_second hs (second?_of_directed (.inl hlocus))
            (Protocol.lineEnds_mono hn hends)]
        · have hends := Protocol.lineEnds_of_perpendicular hget hlocus hline
          rw [hends, hp.withSeconds_second hs (second?_of_directed (.inr hlocus))
            (Protocol.lineEnds_mono hn hends)]

end Seconds

section Ratios

variable {u v u' v' : Label} {c' : Context} {n' : ℕ} {q : Quantity} {ratios : Label → ℚ}

theorem span_unique (h : (span p n l c).1 = .ok (u, v)) (h' : (span p n' l c').1 = .ok (u', v')) :
    u = u' ∧ v = v' := by
  obtain ⟨m, s, -, -, -, hs, hspan⟩ := span_eq_ok h
  obtain ⟨m', s', -, -, -, hs', hspan'⟩ := span_eq_ok h'
  obtain rfl := Option.some.inj (hs.symm.trans hs')
  rcases hspan with hlocus | ⟨line, a, b, hlocus | hlocus, rfl, -⟩ <;>
    rcases hspan' with hlocus' | ⟨line', a', b', hlocus' | hlocus', rfl, -⟩ <;>
    cases hlocus.symm.trans hlocus' <;> exact ⟨rfl, rfl⟩

/-- The points that span a line differ; the first one is older than what is taken on the line, and the
second one is something else. -/
theorem HasLabels.of_span (hlabels : HasLabels p) (hp : Appended p) (hs : s ∈ p.steps)
    (hl : l ∈ s.construction.arguments) (h : (span p n l c).1 = .ok (u, v)) :
    u ≠ v ∧ v ≠ s.label ∧ ∃ t ∈ p.steps, t.label = u ∧ t.index < s.index := by
  obtain ⟨m, w, -, hw, rfl, -, hspan⟩ := span_eq_ok h
  obtain ⟨w', hw', hlabel, hlt⟩ := hp.ordered.arguments s hs _ hl
  obtain rfl := hp.ordered.eq_of_label hw' hw hlabel
  have hearlier {x : Label} (hx : x ∈ w'.construction.arguments) :
      ∃ t ∈ p.steps, t.label = x ∧ t.index < s.index := by
    obtain ⟨t, ht, hlabel, hindex⟩ := hp.ordered.arguments w' hw x hx
    exact ⟨t, ht, hlabel, hindex.trans hlt⟩
  rcases hspan with hlocus | ⟨line, a, b, hlocus, rfl, -⟩
  · refine ⟨hp.accepted.ne_of_lineThrough hw hlocus, ?_,
      hearlier (by simp [hlocus, Construction.arguments])⟩
    obtain ⟨t, ht, rfl, hindex⟩ := hearlier (x := v) (by simp [hlocus, Construction.arguments])
    intro heq
    rw [hp.ordered.eq_of_label ht hs heq] at hindex
    exact lt_irrefl _ hindex
  · refine ⟨ne_secondLabel _ _, fun heq => ?_,
      hearlier (by rcases hlocus with h | h <;> simp [h, Construction.arguments])⟩
    exact (List.nodup_append.1 hlabels).2.2 _ (List.mem_map_of_mem hs) _ (mem_secondLabels hw hlocus)
      heq.symm

/-- A ratio is the one in which a random point divides the segment of those that span its line. -/
structure IsDivision (p : Protocol) (q : Quantity) (s : Step) (u v : Label) : Prop where
  mem : s ∈ p.steps
  line : ∃ l c, s.construction = .point (.onLine l) ∧ (span p p.size l c).1 = .ok (u, v)
  ratio : q = .ratio u s.label u v

theorem StemsFrom.exists_isDivision (hc : c.StemsFrom p) (hd : d ∈ c.definitions)
    (hq : q ∈ d.parameter) : ∃ s u v, d.point = s.label ∧ IsDivision p q s u v := by
  obtain ⟨s, hs, ⟨hpoint, rule, hconstruction, hrule⟩ | hsecond⟩ := hc.definitions d hd
  · generalize d.rule = r, d.denominators = denominators, d.parameter = parameter at hrule hq
    cases hrule with
    | onLine hl =>
        exact ⟨s, _, _, hpoint, hs, ⟨_, _, hconstruction, hl⟩, (Option.some.inj hq).symm⟩
    | _ => cases hq
  · rw [hsecond.parameter] at hq
    cases hq

theorem IsDivision.exists_older (h : IsDivision p q s u v) (hlabels : HasLabels p)
    (hp : Appended p) : ∃ t ∈ p.steps, t.label = u ∧ t.index < s.index := by
  obtain ⟨l, c, hline, hspan⟩ := h.line
  exact (hlabels.of_span hp h.mem (by simp [hline, Construction.arguments]) hspan).2.2

/-- The orientation of a free ratio tells the random point and an older one. -/
theorem IsDivision.orient (h : IsDivision p q s u v) (hlabels : HasLabels p) (hp : Appended p) :
    ∃ o k, q.orient = .ok o ∧ o.quantity = some k ∧ (o.factor = 1 ∨ o.factor = -1) ∧
      ∃ a b x y, k = .ratio a b x y ∧ (a = u ∧ b = s.label ∨ a = s.label ∧ b = u) := by
  obtain ⟨t, ht, rfl, hindex⟩ := h.exists_older hlabels hp
  obtain ⟨l, c, hline, hspan⟩ := h.line
  obtain ⟨hne, hv, -⟩ := hlabels.of_span hp h.mem (by simp [hline, Construction.arguments]) hspan
  have hu : t.label ≠ s.label := fun heq => by
    rw [hp.ordered.eq_of_label ht h.mem heq] at hindex
    exact lt_irrefl _ hindex
  obtain ⟨o, k, ho, hk, hfactor, -, hends⟩ := Quantity.orient_division hne hu hv
  exact ⟨o, k, h.ratio ▸ ho, hk, hfactor, hends⟩

theorem IsDivision.unique {q' : Quantity} (h : IsDivision p q s u v)
    (h' : IsDivision p q' s u' v') : q = q' := by
  obtain ⟨l, c, hline, hspan⟩ := h.line
  obtain ⟨l', c', hline', hspan'⟩ := h'.line
  cases hline.symm.trans hline'
  obtain ⟨rfl, rfl⟩ := span_unique hspan hspan'
  rw [h.ratio, h'.ratio]

/-- The free ratio of a random point has the value chosen for the point. -/
theorem StemsFrom.ratioAt_parameter (hc : c.StemsFrom p) (hlabels : HasLabels p) (hp : Appended p)
    (hd : d ∈ c.definitions) (hq : q ∈ d.parameter) :
    Quantity.ratioAt (c.ratio ratios) q = ratios d.point := by
  obtain ⟨s, u, v, hpoint, hdivision⟩ := hc.exists_isDivision hd hq
  obtain ⟨o, k, ho, hk, hfactor, a, b, x, y, hratio, hends⟩ := hdivision.orient hlabels hp
  rw [Quantity.ratioAt_eq ho]
  unfold Oriented.valueAt Context.ratio
  rw [hk, Option.elim_some, ratioOf_eq (x := o.factor * ratios d.point) ⟨d, hd, _, hq, o, ho, hk⟩,
    ← mul_assoc]
  · rcases hfactor with hfactor | hfactor <;> rw [hfactor] <;> norm_num
  intro e he r hr o' ho' hk'
  obtain ⟨s', u', v', hpoint', hdivision'⟩ := hc.exists_isDivision he hr
  obtain ⟨o₁, k₁, ho₁, hk₁, -, a', b', x', y', hratio', hends'⟩ := hdivision'.orient hlabels hp
  obtain rfl := Except.ok.inj (ho'.symm.trans ho₁)
  obtain rfl := Option.some.inj (hk'.symm.trans hk₁)
  rw [hratio', Quantity.ratio.injEq] at hratio
  obtain ⟨rfl, rfl, -, -⟩ := hratio
  -- Either both ratios are those of one point, or each of the two points is older than the other.
  have hsame (hlabel : s'.label = s.label) : o'.factor * ratios e.point = o.factor * ratios d.point := by
    obtain rfl := hp.ordered.eq_of_label hdivision'.mem hdivision.mem hlabel
    rw [hdivision.unique hdivision'] at ho
    rw [hpoint, hpoint', Except.ok.inj (ho'.symm.trans ho)]
  have hcircular (hu : u = s'.label) (hu' : u' = s.label) :
      o'.factor * ratios e.point = o.factor * ratios d.point := by
    obtain ⟨t, ht, hlabel, hindex⟩ := hdivision.exists_older hlabels hp
    obtain ⟨t', ht', hlabel', hindex'⟩ := hdivision'.exists_older hlabels hp
    rw [hp.ordered.eq_of_label ht hdivision'.mem (hlabel.trans hu)] at hindex
    rw [hp.ordered.eq_of_label ht' hdivision.mem (hlabel'.trans hu')] at hindex'
    exact absurd hindex (lt_asymm hindex')
  rcases hends with ⟨ha, hb⟩ | ⟨ha, hb⟩ <;> rcases hends' with ⟨ha', hb'⟩ | ⟨ha', hb'⟩
  · exact hsame (hb'.symm.trans hb)
  · exact hcircular (ha.symm.trans ha') (hb'.symm.trans hb)
  · exact hcircular (hb.symm.trans hb') (ha'.symm.trans ha)
  · exact hsame (ha'.symm.trans ha)

end Ratios

end Context

namespace Rule

variable {ν : Quantity → ℚ} {place : Label → ℚ × ℚ}

theorem pointAt_pair (a b : Label) (v w : Expr) :
    (weighted [(a, v), (b, w)]).pointAt ν place =
      v.valueAt ν • place a + w.valueAt ν • place b := by
  rw [pointAt_weighted]
  refine Prod.ext ?_ ?_ <;> simp [weightedSum]

theorem pointAt_shifted (q a b : Label) :
    (shifted q a b).pointAt ν place = place q + (place b - place a) := by
  unfold shifted
  rw [pointAt_weighted]
  refine Prod.ext ?_ ?_ <;> simp [weightedSum, Expr.valueAt, sub_eq_add_neg]

theorem pointAt_turn_one (q u v : Label) :
    (turn q u v .one).pointAt ν place = place q + turned (place v - place u) := by
  refine Prod.ext ?_ ?_ <;> simp [pointAt, Expr.valueAt, Expr.one, turned, sub_eq_add_neg]

theorem pointAt_between (a b : Label) (e : Expr) :
    (between a b e).pointAt ν place = place a + e.valueAt ν • (place b - place a) := by
  unfold between
  rw [pointAt_pair]
  simp only [Expr.valueAt, Expr.one]
  module

/-! Where a rule without denominators puts a point, the conditions of the point hold, and only there. The
earlier points have their places in the second placement too, in which the rule is read. -/

section Conditions

open Condition (both)

variable {place' : Label → ℚ × ℚ} {x q o a b : Label}

theorem eq_pointAt_midpoint_iff (ha : place' a = place a) (hb : place' b = place b) :
    place x = (weighted [(a, .number (1 / 2)), (b, .number (1 / 2))]).pointAt ν place' ↔
      ∀ way ∈ both x [("A", a), ("B", b)] Template.midpoint, ∀ c ∈ way, c.HoldsAt place := by
  rw [Condition.holdsAt_midpoint, pointAt_pair, ha, hb]
  simp only [Expr.valueAt]
  constructor
  · intro h
    rw [h]
    module
  · intro h
    rw [← sub_eq_zero, ← smul_zero (1 / 2 : ℚ), ← h]
    module

theorem eq_pointAt_shifted_iff (hq : place' q = place q) (ha : place' a = place a)
    (hb : place' b = place b) : place x = (shifted q a b).pointAt ν place' ↔
      ∀ way ∈ both x [("P", q), ("A", a), ("B", b)] Template.shift, ∀ c ∈ way, c.HoldsAt place := by
  rw [Condition.holdsAt_shift, pointAt_shifted, hq, ha, hb, sub_sub, sub_eq_zero]

theorem eq_pointAt_symmetric_iff (hq : place' q = place q) (ho : place' o = place o) :
    place x = (weighted [(o, .number 2), (q, .number (-1))]).pointAt ν place' ↔
      ∀ way ∈ both x [("P", q), ("O", o)] Template.centralSymmetry, ∀ c ∈ way, c.HoldsAt place := by
  rw [Condition.holdsAt_centralSymmetry, pointAt_pair, hq, ho]
  simp only [Expr.valueAt]
  rw [neg_one_smul, ← sub_eq_add_neg, eq_sub_iff_add_eq, sub_eq_zero]

theorem eq_pointAt_rotated_iff (hq : place' q = place q) (ho : place' o = place o) :
    place x = (turn o o q .one).pointAt ν place' ↔
      ∀ way ∈ both x [("P", q), ("O", o)] Template.quarterTurn, ∀ c ∈ way, c.HoldsAt place := by
  rw [Condition.holdsAt_quarterTurn, pointAt_turn_one, hq, ho, sub_sub, sub_eq_zero]

end Conditions

end Rule

section Equations

variable {x u v a b q : ℚ × ℚ}

theorem eq_smul_add_smul {d s t : ℚ} (hd : d ≠ 0) (hfst : d * x.1 = s * a.1 + t * b.1)
    (hsnd : d * x.2 = s * a.2 + t * b.2) : x = (s / d) • a + (t / d) • b := by
  refine Prod.ext ?_ ?_
  · simp only [Prod.fst_add, Prod.smul_fst, smul_eq_mul]
    field_simp
    linear_combination hfst
  · simp only [Prod.snd_add, Prod.smul_snd, smul_eq_mul]
    field_simp
    linear_combination hsnd

/-- The point that two lines have in common, unless they are parallel. -/
theorem eq_of_cross_eq_zero (hx : cross (x - u) (v - u) = 0) (hx' : cross (x - a) (b - a) = 0)
    (hne : signedArea a u v - signedArea b u v ≠ 0) :
    x = (signedArea a u v / (signedArea a u v - signedArea b u v)) • b +
      (-signedArea b u v / (signedArea a u v - signedArea b u v)) • a := by
  simp only [cross, Prod.fst_sub, Prod.snd_sub] at hx hx'
  refine eq_smul_add_smul hne ?_ ?_ <;> unfold signedArea
  · linear_combination (1 / 2) * (b.1 - a.1) * hx - (1 / 2) * (v.1 - u.1) * hx'
  · linear_combination (1 / 2) * (b.2 - a.2) * hx - (1 / 2) * (v.2 - u.2) * hx'

/-- The point of a line at which the perpendicular from another point arrives, unless the line is
spanned by one place. -/
theorem eq_of_dot_eq_zero (hx : cross (a - x) (b - x) = 0) (hx' : dot (x - q) (b - a) = 0)
    (hne : pythagorasDifference a b a ≠ 0) :
    x = (1 - pythagorasDifference q a b / pythagorasDifference a b a) • a +
      (pythagorasDifference q a b / pythagorasDifference a b a) • b := by
  simp only [cross, dot, Prod.fst_sub, Prod.snd_sub] at hx hx'
  rw [one_sub_div hne]
  refine eq_smul_add_smul hne ?_ ?_ <;> unfold pythagorasDifference squareDistance
  · linear_combination 2 * (b.1 - a.1) * hx' - 2 * (b.2 - a.2) * hx
  · linear_combination 2 * (b.2 - a.2) * hx' + 2 * (b.1 - a.1) * hx

end Equations

namespace Rule

open Context (HasLabels withSeconds)

variable {p : Protocol} {s : Step} {place : Label → ℚ × ℚ} {ratios : Label → ℚ}
  {ratio : Quantity → ℚ} {rule : PointRule} {r : Rule} {denominators : List Expr} {parameter : Option Quantity}

theorem Describes.isDefined_denominators {own : Label}
    (hd : Describes p own rule r denominators parameter) (ν : Quantity → ℚ) :
    ∀ e ∈ denominators, e.IsDefined ν := by
  induction hd with
  | foot q a b => exact List.forall_mem_singleton.2 trivial
  | intersection => exact List.forall_mem_singleton.2 ⟨trivial, trivial⟩
  | _ => exact List.forall_mem_nil _

/-- A rule is defined where its denominators are not zero. -/
theorem Describes.isDefined {own : Label} (hd : Describes p own rule r denominators parameter)
    {ν : Quantity → ℚ} (hne : ∀ e ∈ denominators, e.valueAt ν ≠ 0) : r.IsDefined ν := by
  cases hd with
  | midpoint a b =>
      exact isDefined_of_numbers [(a, 1 / 2), (b, 1 / 2)] rfl (by norm_num) ν
  | shifted q a b => exact isDefined_of_numbers [(q, 1), (b, 1), (a, -1)] rfl (by norm_num) ν
  | symmetric q o => exact isDefined_of_numbers [(o, 2), (q, -1)] rfl (by norm_num) ν
  | rotated q o => exact trivial
  | foot q a b => exact isDefined_between ⟨trivial, trivial, hne _ List.mem_cons_self⟩
  | intersection => exact isDefined_parts trivial trivial (hne _ List.mem_cons_self)
  | onLine => exact isDefined_between trivial

/-- A constructed point stands where its rule puts it, at a placement that meets the conditions of the
figure and at which no denominator is zero. -/
theorem Describes.pointAt (hd : Describes p s.label rule r denominators parameter)
    (hconstruction : s.construction = .point rule) (hs : s ∈ p.steps) (hlabels : HasLabels p)
    (hp : Appended p) (h : p.MeetsAt place ratios)
    (hratio : ∀ q ∈ parameter, Quantity.ratioAt ratio q = ratios s.label)
    (hne : ∀ e ∈ denominators, e.valueAt (Quantity.valueAt (withSeconds p place) ratio) ≠ 0) :
    place s.label = r.pointAt (Quantity.valueAt (withSeconds p place) ratio) (withSeconds p place) := by
  have hargument {l : Label} (hl : l ∈ (Construction.point rule).arguments) :
      withSeconds p place l = place l := by
    obtain ⟨t, ht, rfl, -⟩ := hp.ordered.arguments s hs l (hconstruction ▸ hl)
    exact hlabels.withSeconds_label ht
  have hconditions {ways : List Alternative}
      (hways : p.pointAlternatives s.label s.index rule = .ok ways) :
      ∀ way ∈ ways, ∀ c ∈ way, c.HoldsAt place := by
    refine h.conditions s hs ways ?_
    rw [Protocol.alternatives_of_point hconstruction, hways]
    rfl
  induction hd with
  | midpoint a b =>
      exact (eq_pointAt_midpoint_iff (hargument (by simp [Construction.arguments]))
        (hargument (by simp [Construction.arguments]))).2 (hconditions rfl)
  | shifted q a b =>
      exact (eq_pointAt_shifted_iff (hargument (by simp [Construction.arguments]))
        (hargument (by simp [Construction.arguments]))
        (hargument (by simp [Construction.arguments]))).2 (hconditions rfl)
  | symmetric q o =>
      exact (eq_pointAt_symmetric_iff (hargument (by simp [Construction.arguments]))
        (hargument (by simp [Construction.arguments]))).2 (hconditions rfl)
  | rotated q o =>
      exact (eq_pointAt_rotated_iff (hargument (by simp [Construction.arguments]))
        (hargument (by simp [Construction.arguments]))).2 (hconditions rfl)
  | foot q a b =>
      obtain ⟨hcross, hdot⟩ := Prod.ext_iff.1 ((Condition.holdsAt_foot _ _ _ _).1 (hconditions rfl))
      have hbase := hne _ List.mem_cons_self
      have hq := hargument (l := q) (by simp [Construction.arguments])
      have ha := hargument (l := a) (by simp [Construction.arguments])
      have hb := hargument (l := b) (by simp [Construction.arguments])
      unfold Rule.between
      rw [Rule.pointAt_pair]
      simp only [Expr.valueAt, Quantity.valueAt, Expr.one, hq, ha, hb] at hbase ⊢
      exact eq_of_dot_eq_zero hcross hdot hbase
  | @intersection l m u v a b c c' hl hm =>
      have hdenominator := hne _ List.mem_cons_self
      rw [Rule.pointAt_pair]
      simp only [Expr.valueAt, Quantity.valueAt] at hdenominator ⊢
      have hon {l u v : Label} {c : Context} (hl : (Context.line p l c).1 = .ok (u, v))
          (hset : l ∈ s.sets) : cross (place s.label - withSeconds p place u)
            (withSeconds p place v - withSeconds p place u) = 0 := by
        obtain ⟨n, t, -, ht, rfl, -⟩ := Context.span_eq_ok hl
        exact h.cross_eq_zero hp ht le_rfl (hlabels.lineEnds_of_span hp.ordered le_rfl hl) hs hset
      have hsets := Step.sets_of_intersection hconstruction
      exact eq_of_cross_eq_zero (hon hl (by simp [hsets])) (hon hm (by simp [hsets])) hdenominator
  | @onLine l u v c hl =>
      have hends : p.lineEnds place p.size l = some (withSeconds p place u, withSeconds p place v) :=
        hlabels.lineEnds_of_span hp.ordered le_rfl hl
      have hrandom := h.random s hs l (by rw [hconstruction]; rfl) _ hends
      rw [Rule.pointAt_between, hrandom]
      simp only [Expr.valueAt, Quantity.valueAt, hratio _ rfl]

end Rule

namespace Definition

open Context (HasLabels withSeconds)

variable {p : Protocol} {s : Step} {d : Definition} {place : Label → ℚ × ℚ} {ratios : Label → ℚ}
  {ratio : Quantity → ℚ}

/-- The second point of a line stands where its definition puts it. -/
theorem IsSecondOf.holdsAt (hd : d.IsSecondOf p s) (hlabels : HasLabels p) (hp : p.Ordered)
    (hs : s ∈ p.steps) : d.HoldsAt (withSeconds p place) ratio := by
  obtain ⟨through, line, a, b, n, c, hn, hspan, hpoint, hrule⟩ := hd.rule
  have hline : p.lineEnds place n line = some (withSeconds p place a, withSeconds p place b) :=
    hlabels.lineEnds_of_span hp hn.le hspan
  have hthrough : withSeconds p place through = place through := by
    obtain ⟨t, ht, rfl, -⟩ := hp.arguments s hs through (by
      rcases hrule with ⟨h, -⟩ | ⟨h, -⟩ <;> simp [h, Construction.arguments])
    exact hlabels.withSeconds_label ht
  rcases hrule with ⟨hlocus, hrule⟩ | ⟨hlocus, hrule⟩
  · have hends := Protocol.lineEnds_mono hn (Protocol.lineEnds_of_parallel (hp.get?_eq hs) hlocus hline)
    refine ⟨Rule.isDefined_of_numbers [(through, 1), (b, 1), (a, -1)] hrule (by norm_num) _, ?_⟩
    rw [hpoint, hlabels.withSeconds_second hs (Context.second?_of_directed (.inl hlocus)) hends, hrule,
      Rule.pointAt_shifted, hthrough]
  · have hends := Protocol.lineEnds_mono hn (Protocol.lineEnds_of_perpendicular (hp.get?_eq hs) hlocus hline)
    refine ⟨by rw [hrule]; trivial, ?_⟩
    rw [hpoint, hlabels.withSeconds_second hs (Context.second?_of_directed (.inr hlocus)) hends, hrule,
      Rule.pointAt_turn_one, hthrough]

/-- A constructed point stands where its definition puts it, at a placement that meets the conditions of
the figure and at which no denominator is zero. -/
theorem IsOf.holdsAt (hd : d.IsOf p s) (hlabels : HasLabels p) (hp : Appended p) (hs : s ∈ p.steps)
    (h : p.MeetsAt place ratios)
    (hratio : ∀ q ∈ d.parameter, Quantity.ratioAt ratio q = ratios d.point)
    (hne : ∀ e ∈ d.denominators, e.valueAt (Quantity.valueAt (withSeconds p place) ratio) ≠ 0) :
    d.HoldsAt (withSeconds p place) ratio := by
  obtain ⟨rule, hconstruction, hrule⟩ := hd.rule
  rw [hd.point] at hratio
  refine ⟨hrule.isDefined hne, ?_⟩
  rw [hd.point, hlabels.withSeconds_label hs]
  exact hrule.pointAt hconstruction hs hlabels hp h hratio hne

end Definition

namespace Context

variable {p : Protocol} {c : Context} {d : Definition} {place : Label → ℚ × ℚ} {ratios : Label → ℚ}

theorem StemsFrom.isDefined (hc : c.StemsFrom p) (hd : d ∈ c.definitions) (ν : Quantity → ℚ) :
    ∀ e ∈ d.denominators, e.IsDefined ν := by
  obtain ⟨s, -, ⟨-, rule, -, hrule⟩ | hsecond⟩ := hc.definitions d hd
  · exact hrule.isDefined_denominators ν
  · exact hsecond.denominators ▸ List.forall_mem_nil _

/-- Where a placement meets the conditions of a figure, the definitions hold whose denominators are not
zero. -/
theorem StemsFrom.holdsAt (hc : c.StemsFrom p) (hlabels : HasLabels p) (hp : Appended p)
    (h : p.MeetsAt place ratios) (hd : d ∈ c.definitions)
    (hne : ∀ e ∈ d.denominators,
      e.valueAt (Quantity.valueAt (withSeconds p place) (c.ratio ratios)) ≠ 0) :
    d.HoldsAt (withSeconds p place) (c.ratio ratios) := by
  obtain ⟨s, hs, hof | hsecond⟩ := hc.definitions d hd
  · exact hof.holdsAt hlabels hp hs h (fun q hq => hc.ratioAt_parameter hlabels hp hd hq) hne
  · exact hsecond.holdsAt hlabels hp.ordered hs

end Context

end Planimetry.Area
