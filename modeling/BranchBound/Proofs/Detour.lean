import BranchBound.Proofs.Echo
import BranchBound.Proofs.Quiescence

/-! # Backtracking leaves no trace

From an engine at rest a level is opened, whatever is done above it is done, refutations included, and the
level is left again.  Then the engine is as if nothing had happened (`Course.leaves_no_trace`): whatever is
done next gives the same answers and leaves the same domains and trailed integers.

While it is away, an engine would return to what it was (`Engine.Detour`).  What it comes back to is not the
engine that it left, as circuits forget what they have noted; but what they had noted at rest waited in
vain, so that the two echo each other (`Detour.echoes`), and nobody can tell them apart
(`Echoes.trace_eq`). -/
namespace BranchBound

/-! ## Trails -/

namespace Trail
variable {α : Type} {r t : Trail α} {k : Nat}

/-- The changes of the current level, then those of the levels below. -/
def segments (t : Trail α) : List (List α) := t.recent :: t.below

theorem segments_unwind (n : Nat) (recent : List α) (below : List (List α)) :
    (unwind n recent below).2.segments <:+ recent :: below := by
  induction n generalizing recent below with
  | zero => exact List.suffix_rfl
  | succ n ih =>
    cases below with
    | nil => exact List.suffix_rfl
    | cons segment below => exact (ih segment below).trans (List.suffix_cons recent _)

theorem segments_back (t : Trail α) (k : Nat) : (t.back k).segments <:+ t.segments :=
  segments_unwind _ _ _

/-- What lies below the level that is returned to is still there. -/
theorem below_back (h : r.segments <:+ t.below) (hr : r.level < k) (hk : k ≤ t.level) :
    r.segments <:+ (t.back k).below := by
  refine List.suffix_of_suffix_length_le (h.trans (List.suffix_cons t.recent _))
    ((List.suffix_cons _ _).trans (segments_back t k)) ?_
  change r.level + 1 ≤ (t.back k).level
  rw [level_back hk]
  exact hr

/-- Returning to a trail that lies below finds it. -/
theorem back_eq (h : r.segments <:+ t.below) : t.back r.level = r := by
  have lt : r.level < t.level := h.length_le
  have same : (t.back r.level).segments.length = r.segments.length :=
    congrArg (· + 1) (level_back (Nat.le_of_lt lt))
  -- both are what is left of the segments of `t`, and there are as many
  have eq : (t.back r.level).segments = r.segments :=
    (List.suffix_of_suffix_length_le (segments_back t r.level)
      (h.trans (List.suffix_cons t.recent _)) (Nat.le_of_eq same)).eq_of_length same
  obtain ⟨recent, below⟩ := List.cons.inj eq
  rw [show t.back r.level = ⟨(t.back r.level).recent, (t.back r.level).below⟩ from rfl, recent, below]

end Trail

namespace Engine

/-! ## What operations answer -/

/-- What an operation answers. -/
inductive Answer
  | done
  | changed (changed : Bool)
  | halted (cause : Halt)
  | failed (cause : Failure)
  | impossible (cause : Fault)
  deriving Repr, DecidableEq

namespace Answer

def ofNarrowing : EStateM.Result Halt Store Bool → Answer
  | .ok b _ => .changed b
  | .error cause _ => .halted cause

def ofPropagation {π : Type} : EStateM.Result Failure (Engine π) Unit → Answer
  | .ok _ _ => .done
  | .error cause _ => .failed cause

def ofExcept {α : Type} : Except Fault α → Answer
  | .ok _ => .done
  | .error cause => .impossible cause

end Answer

section
variable {π : Type} [Propagator π]

def answer (e : Engine π) : Operation π → Answer
  | .declare lower upper => .ofExcept (e.declare lower upper)
  | .post p => .ofExcept (e.post p)
  | .setLower v x => .ofNarrowing (Store.setLower v x e.store)
  | .setUpper v x => .ofNarrowing (Store.setUpper v x e.store)
  | .remove v x => .ofNarrowing (Store.remove v x e.store)
  | .assign v x => .ofNarrowing (Store.assign v x e.store)
  | .narrow v first last => .ofNarrowing (Store.narrow v first last e.store)
  | .propagate => .ofPropagation e.propagate
  | .restore k => .ofExcept (e.restore k)
  | .assignCell _ _ | .checkpoint => .done

/-- The engine after an operation; one that is not possible changes nothing. -/
def performed (e : Engine π) (op : Operation π) : Engine π :=
  (History.perform { engine := e } op).engine

/-- What operations answer in turn, each with the space that it leaves. -/
def trace (e : Engine π) : List (Operation π) → List (Answer × Space)
  | [] => []
  | op :: ops => (e.answer op, (e.performed op).space) :: (e.performed op).trace ops

/-- An operation adds nothing: it narrows, propagates, opens a level or returns to one. -/
def Operation.isPlain : Operation π → Bool
  | .declare _ _ | .post _ | .assignCell _ _ => false
  | _ => true

/-- An operation does not return to level `k` or below. -/
def Operation.staysAbove (k : Nat) : Operation π → Bool
  | .restore target => k < target
  | _ => true

/-- What plain operations are. -/
inductive Operation.Kind : Operation π → Prop
  | narrow {op : Operation π} {f : Store.Narrowing} (lawful : f.Lawful)
    (answer : ∀ e : Engine π, e.answer op = .ofNarrowing (f e.store))
    (performed : ∀ e : Engine π, e.performed op = e.narrowed f) : Kind op
  | propagate : Kind .propagate
  | checkpoint : Kind .checkpoint
  | restore (k : Nat) : Kind (.restore k)

theorem Operation.kind {op : Operation π} (h : op.isPlain) : op.Kind := by
  cases op with
  | declare | post | assignCell => cases h
  | setLower => exact .narrow (.of_keeps fun _ => Store.keeps_setLower) (fun _ => rfl) fun _ => rfl
  | setUpper => exact .narrow (.of_keeps fun _ => Store.keeps_setUpper) (fun _ => rfl) fun _ => rfl
  | remove => exact .narrow (.of_keeps fun _ => Store.keeps_remove) (fun _ => rfl) fun _ => rfl
  | assign => exact .narrow (.of_keeps fun _ => Store.keeps_assign) (fun _ => rfl) fun _ => rfl
  | narrow => exact .narrow (.of_keeps fun _ => Store.keeps_narrow) (fun _ => rfl) fun _ => rfl
  | propagate => exact .propagate
  | checkpoint => exact .checkpoint
  | restore k => exact .restore k

theorem performed_restore_of_ok {e e' : Engine π} {k : Nat} (h : e.restore k = .ok e') :
    e.performed (.restore k) = e' := by
  unfold performed History.perform
  dsimp only
  rw [h]

theorem performed_restore_of_error {e : Engine π} {k : Nat} {cause : Fault}
    (h : e.restore k = .error cause) : e.performed (.restore k) = e := by
  unfold performed History.perform
  dsimp only
  rw [h]

theorem restore_of_level_le {e : Engine π} {k : Nat} (h : e.level ≤ k) :
    e.restore k = .error .mismatch := by
  unfold restore
  rw [if_pos h]
  rfl

theorem exists_restore {e : Engine π} {k : Nat} (he : e.Valid) (hk : k < e.level) :
    ∃ e', e.restore k = .ok e' := by
  cases hr : e.restore k with
  | ok e' => exact ⟨e', rfl⟩
  | error cause => exact absurd hr (restore_ne_error he hk cause)

end

/-! ## Engines that cannot be told apart -/

variable {a b e e' g g' : Engine Constraint} {op : Operation Constraint} {k : Nat}

namespace Echoes

theorem narrowed {f : Store.Narrowing} (h : Echoes a b) (hf : f.Lawful) :
    Echoes (a.narrowed f) (b.narrowed f) := by
  have same : b.store = a.store := congrArg Space.store h.space_eq
  have withStore {store : Store} (hn : a.store.Narrows store) :
      Echoes (a.withStore store) (b.withStore store) := {
    inOrder := h.inOrder.withStore hn
    inOrder' := h.inOrder'.withStore (same ▸ hn)
    space_eq := congrArg (fun s : Space => { s with store }) h.space_eq
    watchList_eq := h.watchList_eq
    lanes_eq := h.lanes_eq
    numPropagators_eq := h.numPropagators_eq
    burdened := fun id p q hp hq => (h.burdened id p q hp hq).congr fun _ _ _ _ => rfl }
  have narrows := hf a.store h.inOrder.valid.space.store
  unfold Engine.narrowed
  rw [same]
  cases hr : f a.store <;> rw [hr] at narrows <;> exact withStore narrows

theorem checkpoint (h : Echoes a b) : Echoes a.checkpoint b.checkpoint where
  inOrder := h.inOrder.checkpoint
  inOrder' := h.inOrder'.checkpoint
  space_eq := congrArg Space.checkpoint h.space_eq
  watchList_eq := h.watchList_eq
  lanes_eq := h.lanes_eq
  numPropagators_eq := h.numPropagators_eq
  burdened id p q hp hq := (h.burdened id p q hp hq).congr fun _ _ _ _ => rfl

theorem outline_eq (h : Echoes a b) : b.outline = a.outline := by
  funext id
  unfold outline
  cases hp : a.propagator? id with
  | none => rw [h.known.mp hp]
  | some p =>
    obtain ⟨q, hq, burdened⟩ := h.exists_partner hp
    rw [hq]
    exact congrArg some burdened.synchronise_eq

/-- Whoever returns forgets what waited in vain. -/
theorem restored {a' b' : Engine Constraint} (h : Echoes a b) (ha : a.restore k = .ok a')
    (hb : b.restore k = .ok b') : Echoes a' b' := by
  obtain ⟨-, space, watchList, queue, size⟩ := restored_eq h.inOrder.valid ha
  obtain ⟨-, space', watchList', queue', size'⟩ := restored_eq h.inOrder'.valid hb
  have forgotten := (propagator?_of_restore h.inOrder.valid ha).2
  have forgotten' := (propagator?_of_restore h.inOrder'.valid hb).2
  refine ⟨h.inOrder.restore ha, h.inOrder'.restore hb, ?_, ?_, ?_, ?_, fun id p q hp hq => ?_⟩
  · rw [space, space', store, store, h.space_eq]
  · rw [watchList, watchList', h.watchList_eq]
  · rw [queue, queue']
    exact congrArg (List.map fun _ => []) h.lanes_eq
  · rw [size, size', h.numPropagators_eq]
  · rw [forgotten] at hp
    rw [forgotten', h.outline_eq, hp] at hq
    exact Option.some.inj hq ▸ .same p

/-- **An operation does the same to engines that echo each other.** -/
theorem performed (h : Echoes a b) (plain : op.isPlain) :
    b.answer op = a.answer op ∧ Echoes (a.performed op) (b.performed op) := by
  have level : b.level = a.level := congrArg Space.level h.space_eq
  cases Operation.kind plain with
  | narrow lawful answer performed =>
    rw [answer, answer, performed, performed, show b.store = a.store from congrArg Space.store h.space_eq]
    exact ⟨rfl, h.narrowed lawful⟩
  | propagate =>
    have alike := h.propagate
    change Answer.ofPropagation b.propagate = Answer.ofPropagation a.propagate ∧
      Echoes a.propagated b.propagated
    unfold propagated
    generalize a.propagate = x, b.propagate = y at alike
    cases alike with
    | ok echoes => exact ⟨rfl, echoes⟩
    | error echoes => exact ⟨rfl, echoes⟩
  | checkpoint => exact ⟨rfl, h.checkpoint⟩
  | restore k =>
    change Answer.ofExcept (b.restore k) = Answer.ofExcept (a.restore k) ∧ _
    rcases Nat.lt_or_ge k a.level with hk | hk
    · obtain ⟨a', ha⟩ := exists_restore h.inOrder.valid hk
      obtain ⟨b', hb⟩ := exists_restore h.inOrder'.valid (level.symm ▸ hk)
      rw [performed_restore_of_ok ha, performed_restore_of_ok hb, ha, hb]
      exact ⟨rfl, h.restored ha hb⟩
    · have ha := restore_of_level_le hk
      have hb : b.restore k = _ := restore_of_level_le (level.symm ▸ hk)
      rw [performed_restore_of_error ha, performed_restore_of_error hb, ha, hb]
      exact ⟨rfl, h⟩

/-- **Engines that echo each other cannot be told apart.** -/
theorem trace_eq {ops : List (Operation Constraint)} (h : Echoes a b) (plain : ∀ op ∈ ops, op.isPlain) :
    b.trace ops = a.trace ops := by
  induction ops generalizing a b with
  | nil => rfl
  | cons op ops ih =>
    obtain ⟨answer, echoes⟩ := h.performed (plain op List.mem_cons_self)
    unfold trace
    rw [answer, echoes.space_eq, ih echoes fun op' hop => plain op' (List.mem_cons_of_mem op hop)]

end Echoes

/-! ## Detours -/

/-- The engine `g` is away from `e`: where it would return to is where `e` is. -/
structure Detour (e g : Engine Constraint) : Prop where
  inOrder : g.InOrder
  rewind_eq : g.space.rewind e.level = e.space.bare
  segments_store : e.store.trail.segments <:+ g.store.trail.below
  segments_cells : e.space.cells.trail.segments <:+ g.space.cells.trail.below
  outline_eq : g.outline = e.outline
  watchList_eq : g.watchList = e.watchList
  numPropagators_eq : g.numPropagators = e.numPropagators

namespace Detour

theorem level_lt (h : Detour e g) : e.level < g.level := h.segments_store.length_le

/-- A detour starts with a level that is opened. -/
theorem start (h : e.InOrder) : Detour e e.checkpoint where
  inOrder := h.checkpoint
  rewind_eq := (Space.rewind_checkpoint e.level).trans (Space.rewind_of_le h.valid.space (Nat.le_refl _))
  segments_store := List.suffix_rfl
  segments_cells := List.suffix_rfl
  outline_eq := rfl
  watchList_eq := rfl
  numPropagators_eq := rfl

theorem keeps (h : Detour e g) (inOrder : g'.InOrder) (keeps : g.Keeps g') (same : g'.outline = g.outline) :
    Detour e g' where
  inOrder := inOrder
  rewind_eq := (keeps.below.rewind_eq e.level h.level_lt).trans h.rewind_eq
  segments_store := keeps.below.below_store.symm ▸ h.segments_store
  segments_cells := keeps.below.below_cells.symm ▸ h.segments_cells
  outline_eq := same.trans h.outline_eq
  watchList_eq := keeps.watchList_eq.trans h.watchList_eq
  numPropagators_eq := keeps.numPropagators_eq.trans h.numPropagators_eq

theorem propagated (h : Detour e g) : Detour e g.propagated := by
  have inOrder := h.inOrder.propagate
  have same := h.inOrder.outline_propagate
  have run := Run.propagate h.inOrder.valid .start (.inl rfl)
  unfold Engine.propagated
  cases hr : g.propagate with
  | ok _ g' =>
    rw [hr] at inOrder same run
    exact h.keeps inOrder run.2 same
  | error f g' =>
    rw [hr] at inOrder same run
    exact h.keeps inOrder run.2.1 same

theorem checkpoint (h : Detour e g) : Detour e g.checkpoint where
  inOrder := h.inOrder.checkpoint
  rewind_eq := (Space.rewind_checkpoint e.level).trans h.rewind_eq
  segments_store := h.segments_store.trans (List.suffix_cons g.store.trail.recent _)
  segments_cells := h.segments_cells.trans (List.suffix_cons g.space.cells.trail.recent _)
  outline_eq := h.outline_eq
  watchList_eq := h.watchList_eq
  numPropagators_eq := h.numPropagators_eq

/-- Returning to a level above leaves it away. -/
theorem restored (h : Detour e g) (he : e.Valid) (hk : e.level < k) (hr : g.restore k = .ok g') :
    Detour e g' := by
  have back := Engine.restored h.inOrder.valid hr
  obtain ⟨lt, space, watchList, -, size⟩ := restored_eq h.inOrder.valid hr
  have cells : k ≤ g.space.cells.trail.level :=
    Nat.le_of_lt (Nat.lt_of_lt_of_eq lt h.inOrder.valid.space.level_cells.symm)
  refine ⟨h.inOrder.restore hr, ?_, ?_, ?_, ?_, ?_, ?_⟩
  · rw [back.space.rewind_eq _ (Nat.le_of_lt hk), h.rewind_eq]
  · unfold store
    rw [space]
    exact Trail.below_back h.segments_store hk (Nat.le_of_lt lt)
  · rw [space]
    exact Trail.below_back h.segments_cells (Nat.lt_of_le_of_lt (Nat.le_of_eq he.space.level_cells) hk) cells
  · rw [(propagator?_of_restore h.inOrder.valid hr).1, h.outline_eq]
  · rw [watchList, h.watchList_eq]
  · rw [size, h.numPropagators_eq]

/-- **Nothing that is done above the level ends a detour.** -/
theorem performed (h : Detour e g) (he : e.Valid) (plain : op.isPlain) (above : op.staysAbove e.level) :
    Detour e (g.performed op) := by
  cases Operation.kind plain with
  | @narrow _ f lawful _ performed =>
    rw [performed]
    obtain ⟨store, narrows, eq⟩ := exists_narrowed_eq h.inOrder.valid lawful
    rw [eq]
    exact h.keeps (h.inOrder.withStore narrows) (keeps_withStore h.inOrder.valid narrows) rfl
  | propagate => exact h.propagated
  | checkpoint => exact h.checkpoint
  | restore k =>
    cases hr : g.restore k with
    | ok g' =>
      rw [performed_restore_of_ok hr]
      exact h.restored he (of_decide_eq_true above) hr
    | error cause =>
      rw [performed_restore_of_error hr]
      exact h

theorem foldl_performed {ops : List (Operation Constraint)} (h : Detour e g) (he : e.Valid)
    (away : ∀ op ∈ ops, op.isPlain ∧ op.staysAbove e.level) : Detour e (ops.foldl Engine.performed g) := by
  -- one operation after another, each from an engine that is away
  induction ops generalizing g with
  | nil => exact h
  | cons op ops ih =>
    obtain ⟨plain, above⟩ := away op List.mem_cons_self
    exact ih (h.performed he plain above) fun op' hop => away op' (List.mem_cons_of_mem op hop)

/-- At the end of a detour the space is what it was. -/
theorem space_eq (h : Detour e g) (he : e.Valid) (silent : e.store.events = [])
    (hr : g.restore e.level = .ok e') : e'.space = e.space := by
  obtain ⟨-, space, -⟩ := restored_eq h.inOrder.valid hr
  have domains : g.store.domainsAt e.level = e.store.domains := congrArg (·.store.domains) h.rewind_eq
  have values : g.space.cells.valuesAt e.level = e.space.cells.values :=
    congrArg (·.cells.values) h.rewind_eq
  have store : g.store.trail.back e.level = e.store.trail := Trail.back_eq h.segments_store
  have cells : g.space.cells.trail.back e.level = e.space.cells.trail := by
    rw [show e.level = e.space.cells.trail.level from he.space.level_cells.symm]
    exact Trail.back_eq h.segments_cells
  rw [space, domains, values, store, cells, ← silent]
  rfl

/-- **At the end of a detour, what the engine was echoes what it is.** -/
theorem echoes (h : Detour e g) (he : Course .quiet e) (hr : g.restore e.level = .ok e') :
    Echoes e' e := by
  obtain ⟨silent, nobody⟩ := he.rest rfl
  have inOrder := he.made.inOrder
  have space := h.space_eq inOrder.valid silent hr
  obtain ⟨-, -, watchList, queue, size⟩ := restored_eq h.inOrder.valid hr
  have inOrder' := h.inOrder.restore hr
  refine ⟨inOrder', inOrder, space.symm, ?_, ?_, ?_, fun id p q hp hq => ?_⟩
  · rw [watchList, h.watchList_eq]
  · -- the lanes are empty at rest and after a return; the table of who waits may have become longer
    have idle : e'.queue.pop = none := queue ▸ Queue.pop_clear g.queue
    rw [inOrder.valid.queue.lanes_eq_of_pop nobody, inOrder'.valid.queue.lanes_eq_of_pop idle]
  · rw [size, h.numPropagators_eq]
  · rw [(propagator?_of_restore h.inOrder.valid hr).2, h.outline_eq, outline, hq] at hp
    rw [← Option.some.inj hp]
    -- what is left of the notes is empty, and what there was at rest waits in vain
    cases q with
    | circuit c =>
      refine .vain (c := { c with pending := [] }) fun i hi => ?_
      rw [space]
      exact he.inVain hq i hi
    | _ => exact .same _

end Detour

/-- **Backtracking leaves no trace.**  After a detour from an engine at rest, all that can be done gives the same
answers and leaves the same spaces as it would have without. -/
theorem Course.leaves_no_trace {detour ops : List (Operation Constraint)} (h : Course .quiet e)
    (away : ∀ op ∈ detour, op.isPlain ∧ op.staysAbove e.level) (plain : ∀ op ∈ ops, op.isPlain) :
    ∃ e', (detour.foldl performed e.checkpoint).restore e.level = .ok e' ∧ e'.space = e.space ∧
      e'.trace ops = e.trace ops := by
  have inOrder := h.made.inOrder
  have astray := (Detour.start inOrder).foldl_performed inOrder.valid away
  obtain ⟨e', hr⟩ := exists_restore astray.inOrder.valid astray.level_lt
  have echoes := astray.echoes h hr
  exact ⟨e', hr, echoes.space_eq.symm, (echoes.trace_eq plain).symm⟩

/-! ## A sample -/

/-- A cycle through four nodes. -/
def square : Engine Constraint :=
  (do
    let e ← ({} : Engine Constraint).declare 0 3
    let e ← e.declare 0 3
    let e ← e.declare 0 3
    let e ← e.declare 0 3
    e.post (.circuit { predecessors := #[0, 1, 2, 3] }) : Except Fault (Engine Constraint)).toOption.getD {}

/-- One node remains that node 0 can come before; the circuit puts it there, and notes in vain that it did. -/
def cornered : Engine Constraint :=
  ((square.propagated.checkpoint.narrowed (Store.remove 2 0)).narrowed (Store.remove 3 0)).propagated

theorem Course.narrowed {f : Store.Narrowing} {m : Mode} (h : Course m e) (hm : m.Idle) (hf : f.Lawful) :
    Course .free (e.narrowed f) := by
  obtain ⟨store, narrows, eq⟩ := exists_narrowed_eq h.made.valid hf
  rw [eq]
  exact h.narrow hm narrows

theorem Course.propagated {m : Mode} (h : Course m e) (hm : m.Idle) (done : e.answer .propagate = .done) :
    Course .quiet e.propagated := by
  change Answer.ofPropagation e.propagate = .done at done
  unfold Engine.propagated
  cases hr : e.propagate with
  | ok _ e' => exact h.propagate hm hr
  | error f e' =>
    rw [hr] at done
    cases done

theorem course_cornered : Course .quiet cornered := by
  have four : Course .free square :=
    .post (p := .circuit { predecessors := #[0, 1, 2, 3] }) (@Course.declare _ _ _ _ _ 0 3
      (@Course.declare _ _ _ _ _ 0 3 (@Course.declare _ _ _ _ _ 0 3 (@Course.declare _ _ _ _ _ 0 3 .empty
        (.inl rfl) rfl) (.inl rfl) rfl) (.inl rfl) rfl) (.inl rfl) rfl) (.inl rfl) rfl
  have opened := (four.propagated (.inl rfl) (by decide +kernel)).checkpoint
  have first := opened.narrowed (.inr rfl) (.of_keeps fun _ hs => Store.keeps_remove (v := 2) (x := 0) hs)
  have second := first.narrowed (.inl rfl) (.of_keeps fun _ hs => Store.keeps_remove (v := 3) (x := 0) hs)
  exact second.propagated (.inl rfl) (by decide +kernel)

/-- Two arcs close a cycle that misses a node; from a level further down another arc is tried instead. -/
def astray : List (Operation Constraint) :=
  [.checkpoint, .assign 0 3, .assign 3 1, .propagate, .restore 2, .remove 0 3, .propagate]

/-- An arc is tried, another one does not go with it, and the first level is returned to. -/
def onwards : List (Operation Constraint) :=
  [.assign 0 2, .propagate, .checkpoint, .assign 3 2, .restore 0, .remove 1 0, .propagate]

theorem leaves_no_trace_cornered : Course .quiet cornered ∧
    .failed (.refuted (some 0) .emptyDomain) ∈ (cornered.checkpoint.trace astray).map Prod.fst ∧
    ∃ e', (astray.foldl performed cornered.checkpoint).restore cornered.level = .ok e' ∧
      e'.space = cornered.space ∧ e'.trace onwards = cornered.trace onwards :=
  ⟨course_cornered, by decide +kernel, course_cornered.leaves_no_trace (by decide +kernel) (by decide)⟩

end Engine
end BranchBound
