import Planimetry.Proofs.Figure.History

/-! Figures under other names: what is built from entries with other labels is the same figure with these
labels, and the same entries are rejected. -/

namespace Planimetry

/-! ### Renaming -/

def PointRule.relabel (f : Label → Label) : PointRule → PointRule
  | .free => .free
  | .midpoint a b => .midpoint (f a) (f b)
  | .onLine l => .onLine (f l)
  | .onCircle c => .onCircle (f c)
  | .intersection l m => .intersection (f l) (f m)
  | .foot q a b => .foot (f q) (f a) (f b)
  | .shifted q a b => .shifted (f q) (f a) (f b)
  | .rotated q o => .rotated (f q) (f o)
  | .symmetric q o => .symmetric (f q) (f o)
  | .reflected q a b => .reflected (f q) (f a) (f b)
  | .circleCenter a b c => .circleCenter (f a) (f b) (f c)
  | .angleOfSixty => .angleOfSixty

def Locus.relabel (f : Label → Label) : Locus → Locus
  | .lineThrough a b => .lineThrough (f a) (f b)
  | .parallel q l => .parallel (f q) (f l)
  | .perpendicular q l => .perpendicular (f q) (f l)
  | .bisector a b => .bisector (f a) (f b)
  | .angleRay a v a1 o1 b1 => .angleRay (f a) (f v) (f a1) (f o1) (f b1)
  | .angleRayToSixty a v a1 o1 b1 a2 o2 b2 t =>
    .angleRayToSixty (f a) (f v) (f a1) (f o1) (f b1) (f a2) (f o2) (f b2) (f t)
  | .circleThrough o a => .circleThrough (f o) (f a)
  | .circleWithDiameter a b => .circleWithDiameter (f a) (f b)
  | .circumscribed a b c => .circumscribed (f a) (f b) (f c)

def Relation.relabel (f : Label → Label) : Relation → Relation
  | .trivial => .trivial
  | .identical a b => .identical (f a) (f b)
  | .collinear a b c => .collinear (f a) (f b) (f c)
  | .parallel a b c d => .parallel (f a) (f b) (f c) (f d)
  | .perpendicular a b c d => .perpendicular (f a) (f b) (f c) (f d)
  | .congruent a b c d => .congruent (f a) (f b) (f c) (f d)
  | .concyclic a b c d => .concyclic (f a) (f b) (f c) (f d)

def Construction.relabel (f : Label → Label) : Construction → Construction
  | .point rule => .point (rule.relabel f)
  | .set locus => .set (locus.relabel f)
  | .statement relation => .statement (relation.relabel f)

def Step.relabel (f : Label → Label) (s : Step) : Step :=
  { s with
    label := f s.label
    construction := s.construction.relabel f
    members := s.members.map f }

def Reason.relabel (f : Label → Label) : Reason → Reason
  | .unknownObject d => .unknownObject (f d)
  | .notEarlier d i b => .notEarlier (f d) i b
  | .wrongCategory r e d c => .wrongCategory r e (f d) c
  | .notDistinct ls => .notDistinct (ls.map f)
  | .bareLine b => .bareLine (f b)
  | r => r

/-- Renames the objects of a rejection by one map, and the rejected step by another. -/
def Rejection.relabel (f g : Label → Label) (r : Rejection) : Rejection :=
  { r with label := g r.label, reason := r.reason.relabel f }

/-- Renames the objects that play roles; the roles keep their names. -/
def Request.relabel (f : Label → Label) (r : Request) : Request :=
  { r with payload := r.payload.map fun a => (a.1, f a.2) }

def Entry.relabel (f : Label → Label) (e : Entry) : Entry :=
  { label := f e.label, request := e.request.relabel f }

/-- Renames the objects of a protocol by one map, and its statement by another. -/
def Protocol.relabel (f g : Label → Label) (p : Protocol) : Protocol :=
  { p with
    steps := p.steps.map (Step.relabel f)
    statement := p.statement.map fun s => { s.relabel f with label := g s.label } }

section Construction

variable {f : Label → Label} {c : Construction} {s : Step}

@[simp] theorem Construction.kind_relabel (f : Label → Label) (c : Construction) :
    (c.relabel f).kind = c.kind := by
  cases c with
  | point rule => cases rule <;> rfl
  | set locus => cases locus <;> rfl
  | statement relation => cases relation <;> rfl

@[simp] theorem Construction.arguments_relabel (f : Label → Label) (c : Construction) :
    (c.relabel f).arguments = c.arguments.map f := by
  cases c with
  | point rule => cases rule <;> rfl
  | set locus => cases locus <;> rfl
  | statement relation => cases relation <;> rfl

theorem Construction.ofKind_relabel (f : Label → Label) (k : Kind) (r : Label → Label) :
    (ofKind k r).relabel f = ofKind k fun role => f (r role) := by
  cases k <;> rfl

/-- A construction of a kind depends on the labels for its roles only. -/
theorem Construction.ofKind_congr {k : Kind} {r r' : Label → Label}
    (h : ∀ role ∈ k.roleNames, r role = r' role) : ofKind k r = ofKind k r' := by
  cases k <;> simp_all [ofKind, Kind.roleNames, Kind.spec, Kind.points]

theorem Construction.argument_relabel (f : Label → Label) {role : Label}
    (h : role ∈ c.kind.roleNames) : (c.relabel f).argument role = f (c.argument role) := by
  have hsome : ((c.kind.roleNames.zip c.arguments).lookup role).isSome = true := by
    have hlength : c.kind.roleNames.length ≤ c.arguments.length := by
      rw [c.length_arguments, Kind.roleNames, List.length_map]
    rw [List.lookup_isSome_iff]
    rw [← List.map_fst_zip hlength] at h
    obtain ⟨e, he, rfl⟩ := List.mem_map.1 h
    exact ⟨e, he, beq_self_eq_true _⟩
  obtain ⟨l, hl⟩ := Option.isSome_iff_exists.1 hsome
  have hrenamed := lookup_map_snd f (c.kind.roleNames.zip c.arguments) role
  rw [hl] at hrenamed
  unfold argument
  rw [kind_relabel, arguments_relabel, List.zip_map_right, hl]
  exact congr_arg (fun o => o.getD "") hrenamed

/-- The members, sets and different objects of a kind are given by roles. -/
theorem Kind.roles_spec (k : Kind) :
    (∀ r ∈ k.spec.members, r ∈ k.roleNames) ∧ (∀ r ∈ k.spec.onSets, r ∈ k.roleNames) ∧
      ∀ r ∈ k.spec.distinct, r ∈ k.roleNames := by
  cases k <;> decide

theorem Construction.map_argument_relabel (f : Label → Label) {roles : List Label}
    (h : ∀ r ∈ roles, r ∈ c.kind.roleNames) :
    roles.map (c.relabel f).argument = (roles.map c.argument).map f := by
  rw [List.map_map]
  exact List.map_congr_left fun r hr => argument_relabel f (h r hr)

@[simp] theorem Step.kind_relabel (f : Label → Label) (s : Step) : (s.relabel f).kind = s.kind :=
  s.construction.kind_relabel f

@[simp] theorem Step.category_relabel (f : Label → Label) (s : Step) :
    (s.relabel f).category = s.category :=
  congr_arg Kind.category (s.construction.kind_relabel f)

@[simp] theorem Step.isPoint_relabel (f : Label → Label) (s : Step) :
    (s.relabel f).isPoint = s.isPoint := by
  unfold Step.isPoint
  rw [Step.category_relabel]

@[simp] theorem Step.coordinates?_relabel (f : Label → Label) (s : Step) :
    (s.relabel f).coordinates? = s.coordinates? := by
  unfold Step.coordinates?
  rw [Step.isPoint_relabel]
  rfl

@[simp] theorem Step.isPlaced_relabel (f : Label → Label) (s : Step) :
    (s.relabel f).isPlaced = s.isPlaced := by
  unfold Step.isPlaced
  rw [Step.coordinates?_relabel]

theorem Step.founders_relabel (f : Label → Label) (s : Step) :
    (s.relabel f).founders = s.founders.map f := by
  unfold Step.founders
  rw [Step.kind_relabel]
  exact s.construction.map_argument_relabel f s.construction.kind.roles_spec.1

theorem Step.sets_relabel (f : Label → Label) (s : Step) : (s.relabel f).sets = s.sets.map f := by
  unfold Step.sets
  rw [Step.kind_relabel]
  exact s.construction.map_argument_relabel f s.construction.kind.roles_spec.2.1

end Construction

/-! ### Protocols -/

namespace Protocol

variable {f : Label → Label} (hf : f.Injective) (g : Label → Label) (p : Protocol) (s : Step)

@[simp] theorem size_relabel (f g : Label → Label) : (p.relabel f g).size = p.size :=
  List.length_map _

include hf in
theorem get?_relabel (l : Label) : (p.relabel f g).get? (f l) = (p.get? l).map (Step.relabel f) := by
  unfold get? relabel
  rw [← List.map_reverse, List.find?_map]
  congr 1
  refine List.find?_congr fun s _ => ?_
  exact decide_eq_decide.2 hf.eq_iff

include hf in
theorem position?_relabel (l : Label) : (p.relabel f g).position? (f l) = p.position? l := by
  unfold position? relabel
  rw [List.zipIdx_map, ← List.map_reverse, List.find?_map, Option.map_map]
  refine congr_arg₂ Option.map rfl (List.find?_congr fun s _ => ?_)
  exact decide_eq_decide.2 hf.eq_iff

include hf in
theorem contains_relabel (l : Label) : (p.relabel f g).contains (f l) = p.contains l := by
  unfold contains
  rw [get?_relabel hf, Option.isSome_map]

include hf in
theorem knownMembers_relabel (before : Int) :
    (p.relabel f g).knownMembers (s.relabel f) before = (p.knownMembers s before).map f := by
  unfold knownMembers
  refine (List.filter_map ..).trans ?_
  congr 1
  refine List.filter_congr fun l _ => ?_
  rw [Function.comp_apply, get?_relabel hf]
  cases p.get? l <;> rfl

include hf in
theorem roleFault?_relabel (before : Int) (role : Label) (expected : Expectation) (l : Label) :
    (p.relabel f g).roleFault? before role expected (f l) =
      (p.roleFault? before role expected l).map (Reason.relabel f) := by
  unfold roleFault?
  rw [get?_relabel hf]
  cases p.get? l with
  | none => rfl
  | some t =>
      simp only [Option.map_some, Step.category_relabel]
      have hindex : (t.relabel f).index = t.index := rfl
      rw [hindex]
      split
      next => rfl
      next => split <;> rfl

include hf in
theorem distinctFault?_relabel (c : Construction) :
    distinctFault? (c.relabel f) = (distinctFault? c).map (Reason.relabel f) := by
  unfold distinctFault?
  rw [Construction.kind_relabel, Construction.map_argument_relabel f c.kind.roles_spec.2.2]
  simp only [List.nodup_map_iff hf]
  split <;> rfl

include hf in
theorem kindFault?_relabel (c : Construction) :
    (p.relabel f g).kindFault? (c.relabel f) = (p.kindFault? c).map (Reason.relabel f) := by
  cases c with
  | point rule => rfl
  | statement relation => rfl
  | set locus =>
      cases locus with
      | parallel q l | perpendicular q l =>
          simp only [Construction.relabel, Locus.relabel, kindFault?, get?_relabel hf]
          cases p.get? l with
          | none => rfl
          | some base =>
              simp only [Option.map_some, knownMembers_relabel hf, size_relabel, List.length_map]
              split <;> rfl
      | angleRayToSixty a v a1 o1 b1 a2 o2 b2 t =>
          simp only [Construction.relabel, Locus.relabel, kindFault?, get?_relabel hf]
          cases p.get? t with
          | none => rfl
          | some angle =>
              simp only [Option.map_some, Step.kind_relabel]
              split <;> rfl
      | _ => rfl

include hf in
theorem fault?_relabel (c : Construction) (before : Int) :
    (p.relabel f g).fault? (c.relabel f) before = (p.fault? c before).map (Reason.relabel f) := by
  have hroles : (((c.relabel f).kind.spec.roles.zip (c.relabel f).arguments).findSome? fun r =>
      (p.relabel f g).roleFault? before r.1.1 r.1.2 r.2) =
      ((c.kind.spec.roles.zip c.arguments).findSome? fun r =>
        p.roleFault? before r.1.1 r.1.2 r.2).map (Reason.relabel f) := by
    rw [Construction.kind_relabel, Construction.arguments_relabel, List.zip_map_right,
      List.findSome?_map, List.map_findSome?]
    simp only [Function.comp_def, Prod.map, roleFault?_relabel hf, id]
  unfold fault?
  rw [hroles, distinctFault?_relabel hf, kindFault?_relabel hf]
  simp only [Option.orElse_eq_orElse, Option.orElse_eq_or, Option.map_or]

theorem modify_relabel (i : ℕ) {h h' : Step → Step}
    (hh : ∀ s, p.steps[i]? = some s → h' (s.relabel f) = (h s).relabel f) :
    (p.relabel f g).modify i h' = (p.modify i h).relabel f g := by
  unfold modify relabel
  congr 1
  refine List.ext_getElem? fun j => ?_
  simp only [List.getElem?_modify, List.getElem?_map]
  by_cases hij : i = j
  · subst hij
    cases hs : p.steps[i]? with
    | none => rfl
    | some s => simp [hh s hs]
  · simp [hij]

include hf in
theorem join_relabel (point : Label) (sets : List Label) :
    (p.relabel f g).join (f point) (sets.map f) = (p.join point sets).relabel f g := by
  unfold join
  induction sets generalizing p with
  | nil => rfl
  | cons set sets ih =>
      rw [List.map_cons, List.foldl_cons, List.foldl_cons, ← ih, position?_relabel hf]
      congr 1
      cases p.position? set with
      | none => rfl
      | some i =>
          refine modify_relabel g p i fun s _ => ?_
          have hmem : (s.members.map f).contains (f point) = s.members.contains point := by
            rw [Bool.eq_iff_iff, List.contains_iff_mem, List.contains_iff_mem,
              List.mem_map_of_injective hf]
          unfold Step.relabel
          dsimp only
          rw [hmem]
          split
          next => rfl
          next => simp only [List.map_append, List.map_singleton]

theorem take_relabel : { p.relabel f g with
      steps := (p.relabel f g).steps ++ [(p.relabel f g).taken (s.relabel f)] } =
    ({ p with steps := p.steps ++ [p.taken s] } : Protocol).relabel f g := by
  have htaken : (p.relabel f g).taken (s.relabel f) = (p.taken s).relabel f := by
    unfold taken
    rw [size_relabel]
    exact congr_arg (fun ms => { s.relabel f with index := p.size, members := ms })
      (s.founders_relabel f)
  unfold relabel
  rw [List.map_append, List.map_singleton, ← htaken]
  rfl

include hf in
/-- A renamed step is taken where the step is, or rejected for the same reason. -/
theorem append_relabel :
    (p.relabel f f).append (s.relabel f) =
      ((p.append s).map (relabel f f)).mapError (Reason.relabel f) := by
  unfold append setStatement
  have hfault : (p.relabel f f).fault? (s.relabel f).construction (p.relabel f f).size =
      (p.fault? s.construction p.size).map (Reason.relabel f) := by
    rw [size_relabel]
    exact fault?_relabel hf f p s.construction p.size
  have hlabel : (s.relabel f).label = f s.label := rfl
  rw [hfault, Step.category_relabel, hlabel, contains_relabel hf]
  split
  next =>
    rw [size_relabel]
    cases p.fault? s.construction p.size <;> rfl
  next =>
    split
    next => rfl
    next =>
      cases p.fault? s.construction p.size with
      | some r => rfl
      | none =>
          refine congr_arg Except.ok (Eq.trans ?_ (join_relabel hf f _ s.label s.sets))
          exact congr_arg₂ (fun q sets => join q (f s.label) sets) (take_relabel f p s)
            (s.sets_relabel f)

end Protocol

/-! ### Entries -/

/-- A step is made from other labels for the same roles, and rejected for the same roles. -/
theorem Step.make_relabel (f g : Label → Label) (l : Label) (kind : String)
    (payload : List (Label × Label)) :
    Step.make (g l) kind (payload.map fun a => (a.1, f a.2)) =
      ((Step.make l kind payload).map fun s => { s.relabel f with label := g s.label }).mapError
        (Rejection.relabel f g) := by
  unfold Step.make
  cases Kind.ofName? kind with
  | none => rfl
  | some k =>
      simp only [lookup_map_snd, Option.isNone_map]
      cases hmissing : k.roleNames.filter fun r => (payload.lookup r).isNone with
      | cons r rs => rfl
      | nil =>
          have hroles : (payload.map fun a => (a.1, f a.2)).map Prod.fst = payload.map Prod.fst :=
            List.map_map
          simp only [hroles]
          cases (payload.map Prod.fst).filter fun r => !k.roleNames.contains r with
          | cons r rs => rfl
          | nil =>
              have hsame : Construction.ofKind k (fun r => ((payload.lookup r).map f).getD "") =
                  (Construction.ofKind k fun r => (payload.lookup r).getD "").relabel f := by
                rw [Construction.ofKind_relabel]
                refine Construction.ofKind_congr fun role hrole => ?_
                have hsome := List.filter_eq_nil_iff.1 hmissing role hrole
                cases hl : payload.lookup role with
                | none => simp [hl] at hsome
                | some l => rfl
              simp only [hsame]
              rfl

namespace Protocol

variable {f : Label → Label} (hf : f.Injective) (p : Protocol)

include hf

theorem take_entry_relabel (e : Entry) :
    (p.relabel f f).take (e.relabel f) =
      ((p.take e).map (relabel f f)).mapError (Rejection.relabel f f) := by
  have hmake := Step.make_relabel f f e.label e.request.kind e.request.payload
  unfold take
  refine Eq.trans (congr_arg (· >>= _) hmake) ?_
  cases Step.make e.label e.request.kind e.request.payload with
  | error r => rfl
  | ok s =>
      have happend := append_relabel hf p s
      change ((p.relabel f f).append (s.relabel f)).mapError (rejection (s.relabel f)) = _
      rw [happend]
      change _ = (((p.append s).mapError (rejection s)).map (relabel f f)).mapError
        (Rejection.relabel f f)
      cases p.append s with
      | ok q => rfl
      | error r =>
          simp only [Except.map, Except.mapError, rejection, Step.kind_relabel]
          rfl

/-- The same entries are taken under other names, and the others rejected for the same reasons. -/
theorem takeAll_relabel (entries : List Entry) :
    (p.relabel f f).takeAll (entries.map (Entry.relabel f)) =
      ((p.takeAll entries).1.relabel f f, (p.takeAll entries).2.map (Rejection.relabel f f)) := by
  induction entries generalizing p with
  | nil => rfl
  | cons e es ih =>
      rw [List.map_cons]
      unfold takeAll
      rw [take_entry_relabel hf]
      cases p.take e with
      | ok q => exact ih q
      | error r =>
          simp only [Except.map, Except.mapError, ih, List.map_cons]

/-- The label of a statement stays. -/
theorem state_relabel (r : Request) :
    (p.relabel f f).state (r.relabel f) =
      ((p.state r).map (relabel f id)).mapError (Rejection.relabel f id) := by
  have hmake := Step.make_relabel f id "statement" r.kind r.payload
  unfold state
  refine Eq.trans (congr_arg (· >>= _) hmake) ?_
  cases Step.make "statement" r.kind r.payload with
  | error r => rfl
  | ok s =>
      change ((p.relabel f f).setStatement { s.relabel f with label := s.label }).mapError
        (rejection { s.relabel f with label := s.label }) =
          (((p.setStatement s).mapError (rejection s)).map (relabel f id)).mapError
            (Rejection.relabel f id)
      have hfault : (p.relabel f f).fault? (s.relabel f).construction p.size =
          (p.fault? s.construction p.size).map (Reason.relabel f) :=
        fault?_relabel hf f p s.construction p.size
      have hcategory : Step.category { s.relabel f with label := s.label } = s.category :=
        s.category_relabel f
      have hkind : Step.kind { s.relabel f with label := s.label } = s.kind := s.kind_relabel f
      unfold setStatement rejection
      rw [hcategory, size_relabel, hkind]
      dsimp only
      rw [hfault]
      split
      next => cases p.fault? s.construction p.size <;> rfl
      next => rfl

end Protocol

/-! ### Names of objects only -/

theorem Construction.relabel_congr {f g : Label → Label} {c : Construction}
    (h : ∀ l ∈ c.arguments, f l = g l) : c.relabel f = c.relabel g := by
  cases c with
  | point rule => cases rule <;> simp_all [relabel, PointRule.relabel, arguments]
  | set locus => cases locus <;> simp_all [relabel, Locus.relabel, arguments]
  | statement relation => cases relation <;> simp_all [relabel, Relation.relabel, arguments]

theorem Appended.members_statement {p : Protocol} (hp : Appended p) {s : Step}
    (hs : p.statement = some s) : s.members = [] := by
  induction hp generalizing s with
  | empty => cases hs
  | append hp h ih =>
      rcases Protocol.append_eq_ok h with ⟨-, -, rfl⟩ | ⟨-, -, -, rfl⟩
      · cases hs
        rfl
      · rw [Protocol.statement_join] at hs
        exact ih hs

/-- Names are those of the steps only. -/
theorem Appended.relabel_congr {p : Protocol} (hp : Appended p) {f f' : Label → Label}
    (h : ∀ s ∈ p.steps, f s.label = f' s.label) (g : Label → Label) :
    p.relabel f g = p.relabel f' g := by
  have hsteps : ∀ s ∈ p.steps, s.relabel f = s.relabel f' := by
    intro s hs
    have hconstruction : s.construction.relabel f = s.construction.relabel f' :=
      Construction.relabel_congr fun l hl => by
        obtain ⟨t, ht, rfl, -⟩ := hp.ordered.arguments s hs l hl
        exact h t ht
    have hmembers : s.members.map f = s.members.map f' := List.map_congr_left fun l hl => by
      obtain ⟨t, ht, rfl, -⟩ := hp.furnished.members s hs l hl
      exact h t ht
    unfold Step.relabel
    rw [hconstruction, hmembers, h s hs]
  have hstatement : ∀ s ∈ p.statement, ({ s.relabel f with label := g s.label } : Step) =
      { s.relabel f' with label := g s.label } := by
    intro s hs
    have hconstruction : s.construction.relabel f = s.construction.relabel f' :=
      Construction.relabel_congr fun l hl => by
        obtain ⟨-, hfault⟩ := hp.isFaultless s
          (List.mem_append_right _ (Option.mem_toList.2 hs))
        obtain ⟨t, ht, rfl, -⟩ := Protocol.exists_earlier_of_fault?_eq_none hfault hl
        exact h t ht
    unfold Step.relabel
    rw [hconstruction, hp.members_statement hs]
    rfl
  unfold Protocol.relabel
  rw [List.map_congr_left hsteps, Option.map_congr hstatement]

namespace Built

/-- What is built from entries and a statement under other names is faulty where it is, and else the same
protocol under these names; only a statement that stands apart from the entries keeps its label. -/
theorem ofEntries_relabel (hf : f.Injective) (entries : List Entry) (statement : Option Request) :
    ((ofEntries (entries.map (Entry.relabel f)) (statement.map (Request.relabel f))).diagnostics = [] ↔
      (ofEntries entries statement).diagnostics = []) ∧
    ((ofEntries entries statement).diagnostics = [] →
      (ofEntries (entries.map (Entry.relabel f)) (statement.map (Request.relabel f))).protocol =
        (ofEntries entries statement).protocol.relabel f (if statement.isSome then id else f)) := by
  have hbuild := Protocol.takeAll_relabel hf {} entries
  have hempty : Protocol.relabel f f {} = {} := rfl
  rw [hempty] at hbuild
  unfold ofEntries
  rw [hbuild]
  cases statement with
  | none => exact ⟨by simp [diagnostics], fun _ => rfl⟩
  | some r =>
      have hstate := Protocol.state_relabel hf (Protocol.takeAll {} entries).1 r
      simp only [Option.map_some, hstate]
      cases (Protocol.takeAll {} entries).1.state r with
      | ok q => exact ⟨by simp [diagnostics, Except.map, Except.mapError], fun _ => rfl⟩
      | error e => exact ⟨by simp [diagnostics, Except.map, Except.mapError], by simp [diagnostics]⟩

/-- A protocol built from entries comes from appending fresh steps. -/
theorem appended_ofEntries (entries : List Entry) (statement : Option Request) :
    Appended (ofEntries entries statement).protocol := by
  have htake (es : List Entry) {p : Protocol} (hp : Appended p) : Appended (p.takeAll es).1 := by
    induction es generalizing p with
    | nil => exact hp
    | cons e es ih =>
        unfold Protocol.takeAll
        cases he : p.take e with
        | error r => exact ih hp
        | ok q =>
            obtain ⟨construction, h⟩ := Protocol.exists_of_make_eq_ok he
            exact ih (hp.append h)
  have hsteps := htake entries (.empty 1 1)
  unfold ofEntries
  cases statement with
  | none => exact hsteps
  | some r =>
      dsimp only [Option.map_some]
      split
      next h => cases h
      next q h =>
        obtain ⟨construction, h⟩ :=
          Protocol.exists_of_make_eq_ok (e := ⟨"statement", r⟩) (Option.some.inj h)
        exact hsteps.append (Protocol.append_of_setStatement h)
      next => exact hsteps

end Built

end Planimetry
