import Planimetry.Proofs.Figure.History

/-! Rejections: a step that is rejected leaves no trace in a protocol that is edited in place, so that what
was accepted can be taken again, without any rejection. -/

namespace Planimetry

/-! ### Editing in place -/

/-- A protocol that is edited in place, and where each label finds its step. -/
structure Registry where
  protocol : Protocol := {}
  places : List (Label × ℕ) := []

/-- Why an edit ends early: a step is rejected, or a label that is looked up finds no step. -/
inductive Interruption where
  | rejected (reason : Reason)
  | absent (label : Label)

/-- A registry, and the step that is to enter it. -/
structure Draft where
  registry : Registry
  step : Step

/-- An edit that ends early keeps what it changed until then. -/
abbrev Edit := EStateM Interruption Draft

/-- The line or circle once it has a point as a member. -/
def Step.grow (point : Label) (s : Step) : Step :=
  if s.members.contains point then s else { s with members := s.members ++ [point] }

namespace Edit

def reject (r : Reason) : Edit Unit := throw (.rejected r)

/-- Rejects a step whose construction has a fault. -/
def check : Edit Unit := do
  let d ← get
  match d.registry.protocol.fault? d.step.construction d.registry.protocol.size with
  | some r => reject r
  | none => pure ()

/-- Gives the step the next index. -/
def number : Edit Unit := modify fun d => { d with step.index := d.registry.protocol.size }

/-- Gives a line or circle the points on which it is built. -/
def found : Edit Unit := modify fun d => { d with step.members := d.step.founders }

/-- Adds the step, and lets its label find it. -/
def enter : Edit Unit := do
  modify fun d => { d with registry.protocol.steps := d.registry.protocol.steps ++ [d.step] }
  modify fun d => { d with
    registry.places := (d.step.label, d.registry.protocol.size - 1) :: d.registry.places }

/-- Records the step as a member of a line or circle. -/
def join (owner : Label) : Edit Unit := do
  let d ← get
  match d.registry.places.lookup owner with
  | none => throw (.absent owner)
  | some i =>
    let grow := fun s : Step => s.grow d.step.label
    set { d with registry.protocol := d.registry.protocol.modify i grow }

def joinAll : List Label → Edit Unit
  | [] => pure ()
  | owner :: owners => do
    join owner
    joinAll owners

def setStatement : Edit Unit := do
  let d ← get
  if d.step.category = .statement then
    check
    number
    modify fun d => { d with registry.protocol.statement := some d.step }
  else reject .notAStatement

/-- Adds a step that is not a statement. -/
def insert : Edit Unit := do
  let d ← get
  if (d.registry.places.lookup d.step.label).isSome then reject .labelUsed
  else
    check
    number
    found
    enter
    joinAll d.step.sets

def append : Edit ℤ := do
  let d ← get
  if d.step.category = .statement then setStatement else insert
  let d ← get
  return d.step.index

/-- Adds a detached step without any check. -/
def addSeed : Edit Unit := do
  modify fun d => { d with step := d.step.detached }
  number
  enter

/-- The registry that an edit leaves, even if it ends early. -/
def left {α : Type} (edit : Edit α) (r : Registry) (s : Step) : Registry :=
  match edit.run ⟨r, s⟩ with
  | .ok _ d => d.registry
  | .error _ d => d.registry

end Edit

/-- What changes a protocol. -/
inductive Amendment
  | append (s : Step)
  | setStatement (s : Step)
  | addSeed (s : Step)
  | clear (freeIndex dependentIndex : Int)
  | nextFree
  | nextDependent
  | place (position : ℕ) (placement : Placement)

/-- The protocol after a call; a rejected step leaves it as it was. -/
def Protocol.amended (p : Protocol) : Amendment → Protocol
  | .append s => (p.append s).toOption.getD p
  | .setStatement s => (p.setStatement s).toOption.getD p
  | .addSeed s => p.addSeed s
  | .clear freeIndex dependentIndex => .fresh freeIndex dependentIndex
  | .nextFree => p.nextFree.2
  | .nextDependent => p.nextDependent.2
  | .place i placement => p.modify i fun s => { s with placement }

/-- An empty registry. -/
def Registry.fresh (freeIndex dependentIndex : Int) : Registry :=
  { protocol := .fresh freeIndex dependentIndex }

/-- The registry after a call; it keeps what an edit leaves. -/
def Registry.amended (r : Registry) : Amendment → Registry
  | .append s => Edit.append.left r s
  | .setStatement s => Edit.setStatement.left r s
  | .addSeed s => Edit.addSeed.left r s
  | .clear freeIndex dependentIndex => .fresh freeIndex dependentIndex
  | c => { r with protocol := r.protocol.amended c }

/-! ### Positions -/

namespace Protocol

variable {p q : Protocol} {s : Step} {l : Label}

theorem position?_eq (p : Protocol) (l : Label) : p.position? l =
    ((p.steps.map Step.label).zipIdx.reverse.find? fun s => s.1 == l).map Prod.snd := by
  unfold position?
  rw [List.zipIdx_map, ← List.map_reverse, List.find?_map, Option.map_map]
  rfl

/-- Where a label finds its step depends on the labels only. -/
theorem position?_of_labels (h : q.steps.map Step.label = p.steps.map Step.label) (l : Label) :
    q.position? l = p.position? l := by
  rw [position?_eq, position?_eq, h]

theorem position?_push (p : Protocol) (s : Step) (l : Label) :
    position? { p with steps := p.steps ++ [s] } l =
      if s.label = l then some p.size else p.position? l := by
  rw [position?_eq, position?_eq, List.map_append, List.zipIdx_append, List.reverse_append]
  by_cases h : s.label = l <;> simp [h, size]

/-- The position of a label leads to its step. -/
theorem get?_eq_bind (p : Protocol) (l : Label) : p.get? l = (p.position? l).bind (p.steps[·]?) := by
  have hget : p.get? l =
      (p.steps.zipIdx.reverse.find? fun s => s.1.label == l).map Prod.fst := by
    unfold get?
    conv_lhs => rw [← List.zipIdx_map_fst 0 p.steps]
    rw [← List.map_reverse, List.find?_map]
    rfl
  rw [hget, position?]
  cases hfind : p.steps.zipIdx.reverse.find? fun s => s.1.label == l with
  | none => rfl
  | some si =>
      have hmem := List.mem_reverse.1 (List.mem_of_find?_eq_some hfind)
      exact (List.mem_zipIdx_iff_getElem?.1 hmem).symm

theorem isSome_position? (p : Protocol) (l : Label) : (p.position? l).isSome = p.contains l := by
  unfold contains
  rw [get?_eq_bind]
  cases h : p.position? l with
  | none => rfl
  | some i =>
      obtain ⟨s, hs, -⟩ := position?_eq_some h
      rw [Option.bind_some, hs]
      rfl

theorem steps_setStatement (h : p.setStatement s = .ok q) : q.steps = p.steps := by
  unfold setStatement at h
  split at h
  · split at h
    · cases h
    · cases h
      rfl
  · cases h

end Protocol

theorem Step.label_grow (point : Label) (s : Step) : (s.grow point).label = s.label := by
  unfold grow
  split <;> rfl

/-! ### What edits do -/

/-- Labels find the steps that a search finds. -/
def Registry.IsIndexed (r : Registry) : Prop := ∀ l, r.places.lookup l = r.protocol.position? l

/-- The registry with a step added. -/
def Registry.push (r : Registry) (s : Step) : Registry where
  protocol := { r.protocol with steps := r.protocol.steps ++ [s] }
  places := (s.label, r.protocol.size) :: r.places

theorem Registry.IsIndexed.push {r : Registry} (hr : r.IsIndexed) (s : Step) :
    (r.push s).IsIndexed := by
  intro l
  unfold Registry.push
  rw [Protocol.position?_push, List.lookup_cons, hr l]
  by_cases h : l = s.label
  · simp [h]
  · rw [if_neg (Ne.symm h), beq_false_of_ne h]

theorem Registry.IsIndexed.of_labels {r : Registry} (hr : r.IsIndexed) {p : Protocol}
    (h : p.steps.map Step.label = r.protocol.steps.map Step.label) :
    IsIndexed { r with protocol := p } := fun l => (hr l).trans (Protocol.position?_of_labels h l).symm

/-- The draft once its step has led to a protocol. -/
def Registry.entered (r : Registry) (s : Step) (p : Protocol) : Draft :=
  if s.category = .statement then ⟨{ r with protocol := p }, { s with index := r.protocol.size }⟩
  else ⟨⟨p, (s.label, r.protocol.size) :: r.places⟩, r.protocol.taken s⟩

namespace Edit

variable {r : Registry} {s : Step}

@[simp] theorem run_reject (e : Reason) (d : Draft) : (reject e).run d = .error (.rejected e) d := rfl

@[simp] theorem run_check (r : Registry) (s : Step) : check.run ⟨r, s⟩ =
    match r.protocol.fault? s.construction r.protocol.size with
    | some e => .error (.rejected e) ⟨r, s⟩
    | none => .ok () ⟨r, s⟩ := by
  unfold check
  rw [EStateM.run_bind, EStateM.run_get]
  dsimp only
  cases r.protocol.fault? s.construction r.protocol.size <;> rfl

@[simp] theorem run_number (r : Registry) (s : Step) :
    number.run ⟨r, s⟩ = .ok () ⟨r, { s with index := r.protocol.size }⟩ := rfl

@[simp] theorem run_found (r : Registry) (s : Step) :
    found.run ⟨r, s⟩ = .ok () ⟨r, { s with members := s.founders }⟩ := rfl

@[simp] theorem run_enter (r : Registry) (s : Step) : enter.run ⟨r, s⟩ = .ok () ⟨r.push s, s⟩ := by
  simp [enter, Registry.push, Protocol.size]

/-- A statement that is rejected changes nothing. -/
theorem run_setStatement (r : Registry) (s : Step) : setStatement.run ⟨r, s⟩ =
    match r.protocol.setStatement s with
    | .error e => .error (.rejected e) ⟨r, s⟩
    | .ok p => .ok () ⟨{ r with protocol := p }, { s with index := r.protocol.size }⟩ := by
  unfold setStatement Protocol.setStatement
  by_cases h : s.category = .statement
  · cases hfault : r.protocol.fault? s.construction r.protocol.size <;> simp [h, hfault]
  · simp [h]

theorem run_join {owner : Label} {i : ℕ} (h : r.places.lookup owner = some i) :
    (join owner).run ⟨r, s⟩ =
      .ok () ⟨{ r with protocol := r.protocol.modify i (Step.grow s.label) }, s⟩ := by
  unfold join
  simp [h]

/-- A point becomes a member of each line and circle on which it is constructed. -/
theorem run_joinAll {owners : List Label} (hr : r.IsIndexed)
    (howners : ∀ l ∈ owners, (r.protocol.position? l).isSome = true) :
    (joinAll owners).run ⟨r, s⟩ = .ok () ⟨{ r with protocol := r.protocol.join s.label owners }, s⟩ := by
  induction owners generalizing r with
  | nil => rfl
  | cons owner owners ih =>
      obtain ⟨i, hi⟩ := Option.isSome_iff_exists.1 (howners owner List.mem_cons_self)
      have hlabels : (r.protocol.modify i (Step.grow s.label)).steps.map Step.label =
          r.protocol.steps.map Step.label :=
        Protocol.map_modify_of_eq Step.label i fun t _ => Step.label_grow _ t
      have hlater : ∀ l ∈ owners,
          ((r.protocol.modify i (Step.grow s.label)).position? l).isSome = true := fun l hl => by
        rw [Protocol.position?_of_labels hlabels]
        exact howners l (List.mem_cons_of_mem _ hl)
      unfold joinAll Protocol.join
      rw [EStateM.run_bind, run_join ((hr owner).trans hi), List.foldl_cons, hi]
      exact ih (hr.of_labels hlabels) hlater

theorem run_insert (hr : r.IsIndexed) (hstatement : s.category ≠ .statement) : insert.run ⟨r, s⟩ =
    match r.protocol.append s with
    | .error e => .error (.rejected e) ⟨r, s⟩
    | .ok p => .ok () ⟨⟨p, (s.label, r.protocol.size) :: r.places⟩, r.protocol.taken s⟩ := by
  unfold insert Protocol.append
  rw [EStateM.run_bind, EStateM.run_get, if_neg hstatement]
  dsimp only
  rw [hr, Protocol.isSome_position?]
  by_cases hlabel : r.protocol.contains s.label = true
  · rw [if_pos hlabel, if_pos hlabel, run_reject]
  · rw [if_neg hlabel, if_neg hlabel, EStateM.run_bind, run_check]
    cases hfault : r.protocol.fault? s.construction r.protocol.size with
    | some e => rfl
    | none =>
        have howners : ∀ l ∈ s.sets,
            ((r.push (r.protocol.taken s)).protocol.position? l).isSome = true := by
          intro l hl
          obtain ⟨t, ht, rfl, -⟩ := Protocol.exists_earlier_of_fault?_eq_none hfault
            (Protocol.mem_arguments_of_mem_sets hl)
          rw [Protocol.isSome_position?]
          exact Protocol.get?_isSome (List.mem_append_left _ ht)
        dsimp only
        rw [EStateM.run_bind, run_number]
        dsimp only
        rw [EStateM.run_bind, run_found]
        dsimp only
        rw [EStateM.run_bind, run_enter]
        exact run_joinAll (s := r.protocol.taken s) (hr.push _) howners

/-- A step that is rejected changes nothing. -/
theorem run_append (hr : r.IsIndexed) (s : Step) : append.run ⟨r, s⟩ =
    match r.protocol.append s with
    | .error e => .error (.rejected e) ⟨r, s⟩
    | .ok p => .ok r.protocol.size (r.entered s p) := by
  unfold append Registry.entered
  by_cases h : s.category = .statement
  · have happend : r.protocol.append s = r.protocol.setStatement s := if_pos h
    cases hp : r.protocol.setStatement s <;> simp [h, happend, hp, run_setStatement]
  · cases hp : r.protocol.append s <;> simp [h, hp, run_insert hr h, Protocol.taken]

theorem append_eq_error {e : Interruption} {d : Draft} (hr : r.IsIndexed) :
    append.run ⟨r, s⟩ = .error e d ↔
      d = ⟨r, s⟩ ∧ ∃ reason, e = .rejected reason ∧ r.protocol.append s = .error reason := by
  rw [run_append hr]
  cases r.protocol.append s with
  | error reason => simp [eq_comm, and_comm]
  | ok p => simp

theorem setStatement_eq_error {e : Interruption} {d : Draft} :
    setStatement.run ⟨r, s⟩ = .error e d ↔
      d = ⟨r, s⟩ ∧ ∃ reason, e = .rejected reason ∧ r.protocol.setStatement s = .error reason := by
  rw [run_setStatement]
  cases r.protocol.setStatement s with
  | error reason => simp [eq_comm, and_comm]
  | ok p => simp

end Edit

namespace Registry

variable {r : Registry}

theorem isIndexed_fresh (freeIndex dependentIndex : Int) : (fresh freeIndex dependentIndex).IsIndexed :=
  fun _ => rfl

theorem protocol_entered (r : Registry) (s : Step) (p : Protocol) :
    (r.entered s p).registry.protocol = p := by
  unfold entered
  split <;> rfl

theorem isIndexed_entered {s : Step} {p : Protocol} (hr : r.IsIndexed)
    (h : r.protocol.append s = .ok p) : (r.entered s p).registry.IsIndexed := by
  unfold entered
  rcases Protocol.append_eq_ok h with ⟨hstatement, -, rfl⟩ | ⟨hstatement, -, -, rfl⟩
  · rw [if_pos hstatement]
    exact hr.of_labels rfl
  · rw [if_neg hstatement]
    exact (hr.push (r.protocol.taken s)).of_labels (Protocol.map_join _ (fun _ _ => rfl) _)

theorem left_append (hr : r.IsIndexed) (s : Step) :
    (Edit.append.left r s).protocol = (r.protocol.append s).toOption.getD r.protocol ∧
      (Edit.append.left r s).IsIndexed := by
  unfold Edit.left
  rw [Edit.run_append hr]
  cases h : r.protocol.append s with
  | error e => exact ⟨rfl, hr⟩
  | ok p => exact ⟨protocol_entered r s p, isIndexed_entered hr h⟩

theorem left_setStatement (hr : r.IsIndexed) (s : Step) :
    (Edit.setStatement.left r s).protocol = (r.protocol.setStatement s).toOption.getD r.protocol ∧
      (Edit.setStatement.left r s).IsIndexed := by
  unfold Edit.left
  rw [Edit.run_setStatement]
  cases h : r.protocol.setStatement s with
  | error e => exact ⟨rfl, hr⟩
  | ok p => exact ⟨rfl, hr.of_labels (congr_arg _ (Protocol.steps_setStatement h))⟩

/-- Editing in place leads to the protocols that calls lead to. -/
theorem amended_eq (hr : r.IsIndexed) (c : Amendment) :
    (r.amended c).protocol = r.protocol.amended c ∧ (r.amended c).IsIndexed := by
  cases c with
  | append s => exact left_append hr s
  | setStatement s => exact left_setStatement hr s
  | addSeed s =>
      have hleft : r.amended (.addSeed s) = r.push { s.detached with index := r.protocol.size } := by
        simp [Registry.amended, Edit.left, Edit.addSeed]
      rw [hleft]
      exact ⟨rfl, hr.push _⟩
  | clear freeIndex dependentIndex => exact ⟨rfl, isIndexed_fresh _ _⟩
  | nextFree => exact ⟨rfl, hr.of_labels rfl⟩
  | nextDependent => exact ⟨rfl, hr.of_labels rfl⟩
  | place i placement =>
      exact ⟨rfl, hr.of_labels (Protocol.map_modify_of_eq Step.label i fun _ _ => rfl)⟩

theorem foldl_amended (hr : r.IsIndexed) (calls : List Amendment) :
    (calls.foldl Registry.amended r).protocol = calls.foldl Protocol.amended r.protocol ∧
      (calls.foldl Registry.amended r).IsIndexed := by
  induction calls generalizing r with
  | nil => exact ⟨rfl, hr⟩
  | cons c calls ih =>
      obtain ⟨hprotocol, hindexed⟩ := amended_eq hr c
      rw [List.foldl_cons, List.foldl_cons, ← hprotocol]
      exact ih hindexed

/-- A registry holds a protocol: labels find its steps, and an edit ends early just where the protocol
rejects the step, and then leaves registry and step as they were. -/
structure Represents (r : Registry) (p : Protocol) : Prop where
  protocol : r.protocol = p
  places : ∀ l, (r.places.lookup l).bind (p.steps[·]?) = p.get? l
  append : ∀ (s : Step) (e : Interruption) (d : Draft), Edit.append.run ⟨r, s⟩ = .error e d ↔
    d = ⟨r, s⟩ ∧ ∃ reason, e = .rejected reason ∧ p.append s = .error reason
  setStatement : ∀ (s : Step) (e : Interruption) (d : Draft),
    Edit.setStatement.run ⟨r, s⟩ = .error e d ↔
      d = ⟨r, s⟩ ∧ ∃ reason, e = .rejected reason ∧ p.setStatement s = .error reason

theorem IsIndexed.represents (hr : r.IsIndexed) : r.Represents r.protocol :=
  { protocol := rfl
    places := fun l => by rw [hr l, Protocol.get?_eq_bind]
    append := fun _ _ _ => Edit.append_eq_error hr
    setStatement := fun _ _ _ => Edit.setStatement_eq_error }

/-- Whatever is called on an empty registry, it holds the protocol that the calls lead to. -/
theorem represents_foldl (freeIndex dependentIndex : Int) (calls : List Amendment) :
    (calls.foldl Registry.amended (fresh freeIndex dependentIndex)).Represents
      (calls.foldl Protocol.amended (.fresh freeIndex dependentIndex)) := by
  obtain ⟨hprotocol, hindexed⟩ := foldl_amended (isIndexed_fresh freeIndex dependentIndex) calls
  have hrepresents := hindexed.represents
  rw [hprotocol] at hrepresents
  exact hrepresents

end Registry

/-! ### Taking again what was accepted -/

namespace Protocol

/-- The entries that are taken when all are offered in order. -/
def accepted (p : Protocol) : List Entry → List Entry
  | [] => []
  | e :: es => match p.take e with
    | .ok p' => e :: accepted p' es
    | .error _ => accepted p es

theorem takeAll_accepted (p : Protocol) (es : List Entry) :
    p.takeAll (p.accepted es) = ((p.takeAll es).1, []) := by
  induction es generalizing p with
  | nil => rfl
  | cons e es ih =>
      cases h : p.take e with
      | ok p' => simp only [accepted, takeAll, h, ih]
      | error r => simp only [accepted, takeAll, h, ih]

/-- Each entry is either accepted or reported. -/
theorem length_accepted (p : Protocol) (es : List Entry) :
    (p.accepted es).length + (p.takeAll es).2.length = es.length := by
  induction es generalizing p with
  | nil => rfl
  | cons e es ih =>
      cases h : p.take e with
      | ok p' =>
          simp only [accepted, takeAll, h, List.length_cons, ← ih p']
          omega
      | error r =>
          simp only [accepted, takeAll, h, List.length_cons, ← ih p]
          omega

theorem accepted_sublist (p : Protocol) (es : List Entry) : (p.accepted es).Sublist es := by
  induction es generalizing p with
  | nil => exact .slnil
  | cons e es ih =>
      unfold accepted
      split
      next => exact (ih _).cons_cons e
      next => exact (ih p).cons e

end Protocol

namespace Built

theorem rejected_ofEntries (entries : List Entry) (statement : Option Request) :
    (ofEntries entries statement).rejected = (Protocol.takeAll {} entries).2 := by
  unfold ofEntries
  cases statement with
  | none => rfl
  | some r => cases h : (Protocol.takeAll {} entries).1.state r <;> simp [h]

/-- What was accepted makes the same protocol again, with no rejections. -/
theorem ofEntries_accepted (entries : List Entry) (statement : Option Request) :
    ofEntries (Protocol.accepted {} entries)
      (if (ofEntries entries statement).statementRejected.isNone then statement else none) =
        ⟨(ofEntries entries statement).protocol, [], none⟩ := by
  unfold ofEntries
  rw [Protocol.takeAll_accepted]
  cases statement with
  | none => rfl
  | some r => cases h : (Protocol.takeAll {} entries).1.state r <;> simp [h]

end Built

/-- Rejected steps leave no trace: in a protocol that is edited in place, whatever was called before, they
change neither protocol nor step; and the entries that were accepted, which are all that were not reported,
make the same protocol again without any report. -/
theorem no_trace_of_rejection :
    (∀ (freeIndex dependentIndex : Int) (calls : List Amendment),
      (calls.foldl Registry.amended (.fresh freeIndex dependentIndex)).Represents
        (calls.foldl Protocol.amended (.fresh freeIndex dependentIndex))) ∧
    ∀ (entries : List Entry) (statement : Option Request),
      let built := Built.ofEntries entries statement
      let accepted := Protocol.accepted {} entries
      accepted.Sublist entries ∧ accepted.length + built.rejected.length = entries.length ∧
        Built.ofEntries accepted (if built.statementRejected.isNone then statement else none) =
          ⟨built.protocol, [], none⟩ := by
  constructor
  · exact Registry.represents_foldl
  · intro entries statement
    refine ⟨Protocol.accepted_sublist {} entries, ?_, Built.ofEntries_accepted entries statement⟩
    rw [Built.rejected_ofEntries]
    exact Protocol.length_accepted {} entries

end Planimetry
