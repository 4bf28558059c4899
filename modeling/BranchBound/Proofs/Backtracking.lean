import BranchBound.Proofs.Constraint
import BranchBound.Proofs.Construction

/-! # Backtracking is exact

Whatever is done to an engine, level after level can be given back: returning to level `k` finds every
variable and every trailed integer that was there when level `k` was last left exactly as it was
(`restore_exact`), and nothing is pending and nobody waits.

What is done to an engine is an `Engine.Operation`; it may be refused, it may refute the domains, and
it may itself return to a lower level.  A `History` performs operations and keeps, for every open
level, a copy of the engine that the level was left with.  The invariant is that what level `k`
*would* be rewound to is an extension of that copy (`Engine.Extends`): variables and cells may have
been added since, and nothing that was there differs. -/
namespace BranchBound

namespace Cells
variable {c : Cells} {i k : Nat} {x y : Int}

theorem get?_foldl_undo {values values' : Arena Int} (h : values.get? i = values'.get? i)
    (changes : List CellChange) :
    (changes.foldl undo values).get? i = (changes.foldl undo values').get? i := by
  induction changes generalizing values values' with
  | nil => exact h
  | cons change changes ih =>
    refine ih ?_
    simp only [undo, Arena.get?_set, h]

theorem size_foldl_undo (values : Arena Int) (changes : List CellChange) :
    (changes.foldl undo values).size = values.size := by
  induction changes generalizing values with
  | nil => rfl
  | cons change changes ih => rw [List.foldl_cons, ih, undo, Arena.size_set]

/-- A cell that is allocated changes no other cell, at no level. -/
theorem valuesAt_grow (h : (c.valuesAt k).get? i = some y) :
    ((c.grow x).valuesAt k).get? i = some y := by
  have lt : i < c.values.size := by
    rw [← size_foldl_undo c.values (c.trail.undone k)]
    exact (Array.getElem?_eq_some_iff.mp h).1
  have same : (c.values.push x).get? i = c.values.get? i := by
    rw [Arena.get?_push, if_neg (Nat.ne_of_lt lt)]
  exact (get?_foldl_undo same (c.trail.undone k)).trans h

theorem valuesAt_foldl_grow (initial : List Int) (h : (c.valuesAt k).get? i = some y) :
    ((initial.foldl grow c).valuesAt k).get? i = some y := by
  induction initial generalizing c with
  | nil => exact h
  | cons x initial ih => exact ih (valuesAt_grow h)

end Cells

namespace Store
variable {s : Store}

/-! ## Narrowings, refused or not -/

/-- A narrowing that does nothing else, whatever it answers. -/
def Narrowing.Lawful (f : Narrowing) : Prop :=
  ∀ s : Store, s.Valid → Ends (f s) (fun _ t => s.Narrows t) (fun _ t => s.Narrows t)

theorem Narrowing.Lawful.of_keeps {f : Narrowing} {v : Var} {keep : Store → Int → Prop}
    (h : ∀ s : Store, s.Valid → Keeps s v (keep s) f) : f.Lawful := fun s hs =>
  (h s hs).mono (fun _ _ hn => hn.narrows) fun _ _ hr => hr.eq ▸ .refl

end Store

namespace Engine
variable {π : Type}

/-! ## What would be returned to -/

section
variable {e e' : Engine π}

/-- Nothing that is in a space differs in the other, which may have more. -/
structure Extends (s t : Space) : Prop where
  domain : ∀ v d, s.store.domain? v = some d → t.store.domain? v = some d
  cell : ∀ i x, s.cells.get? i = some x → t.cells.get? i = some x

theorem Extends.refl {s : Space} : Extends s s := ⟨fun _ _ h => h, fun _ _ h => h⟩

theorem Extends.trans {s t u : Space} (h : Extends s t) (h' : Extends t u) : Extends s u :=
  ⟨fun v d hd => h'.domain v d (h.domain v d hd), fun i x hx => h'.cell i x (h.cell i x hx)⟩

/-- What leaves an engine at its level and loses nothing at the levels below. -/
structure Retains (e e' : Engine π) : Prop where
  valid : e'.Valid
  level_eq : e'.level = e.level
  below : ∀ k, k < e.level → Extends (e.space.rewind k) (e'.space.rewind k)

theorem Keeps.retains (h : e.Keeps e') : e.Retains e' :=
  ⟨h.valid, h.below.level_eq, fun k hk => h.below.rewind_eq k hk ▸ .refl⟩

theorem retains_declare {lower upper : Int} (he : e.Valid) (h : e.declare lower upper = .ok e') :
    e.Retains e' := by
  have valid := he.declare h
  obtain ⟨-, rfl⟩ := declare_eq_ok h
  exact ⟨valid, rfl, fun k _ => ⟨he.space.grows_rewind _ k, fun _ _ hx => hx⟩⟩

/-- The engine after a narrowing, which may have been refused. -/
def narrowed (e : Engine π) (f : Store.Narrowing) : Engine π :=
  match f e.store with
  | .ok _ store | .error _ store => e.withStore store

/-- The engine after an assignment to a trailed integer. -/
def assignCell (e : Engine π) (i : Nat) (x : Int) : Engine π :=
  { e with space := { e.space with cells := e.space.cells.assign i x } }

theorem exists_narrowed_eq {f : Store.Narrowing} (he : e.Valid) (hf : f.Lawful) :
    ∃ store, e.store.Narrows store ∧ e.narrowed f = e.withStore store := by
  have narrows := hf e.store he.space.store
  unfold narrowed
  split <;> rename_i hr <;> rw [hr] at narrows
  · exact ⟨_, narrows, rfl⟩
  · exact ⟨_, narrows, rfl⟩

/-- A narrowing from outside is a step of a run, also if it is refused. -/
theorem Run.narrowed [Propagator π] [LawfulPropagator π] {f : Store.Narrowing} {e₀ : Engine π} {m : Mode}
    (h₀ : e₀.Valid) (h : e₀.Run m e) (hm : m.Idle) (hf : f.Lawful) : e₀.Run .free (e.narrowed f) := by
  obtain ⟨store, narrows, eq⟩ := exists_narrowed_eq (h.inside h₀).valid hf
  rw [eq]
  exact h.narrow hm narrows

theorem retains_narrowed {f : Store.Narrowing} (he : e.Valid) (hf : f.Lawful) :
    e.Retains (e.narrowed f) := by
  obtain ⟨store, narrows, eq⟩ := exists_narrowed_eq he hf
  rw [eq]
  exact (keeps_withStore he narrows).retains

theorem retains_assignCell (he : e.Valid) (i : Nat) (x : Int) : e.Retains (e.assignCell i x) := by
  have narrows : e.space.Narrows (fun _ => True) (e.assignCell i x).space := .assign .refl trivial
  exact ⟨⟨narrows.valid he.space, he.queue⟩, narrows.level_eq,
    fun k hk => narrows.rewind_eq he.space hk ▸ .refl⟩

end

/-! ## Copies of the levels that are left -/

/-- An engine, with the engines that it was when its open levels were last left, the highest level
first. -/
structure History (π : Type) where
  engine : Engine π := {}
  left : List (Engine π) := []

namespace History

/-- The engine that it was when level `k`, which is open, was last left. -/
def leftAt? (r : History π) (k : Nat) : Option (Engine π) := r.left.reverse[k]?

variable {r : History π} {e' : Engine π} {k : Nat}

/-- For every open level there is a copy of the engine, which the level would return to. -/
structure Sound (r : History π) : Prop where
  valid : r.engine.Valid
  length_left : r.left.length = r.engine.level
  level_leftAt : ∀ k before, r.leftAt? k = some before → before.level = k
  extends_leftAt : ∀ k before, r.leftAt? k = some before →
    Extends before.space (r.engine.space.rewind k)

theorem leftAt?_lt {before : Engine π} (h : r.leftAt? k = some before) : k < r.left.length := by
  have := (List.getElem?_eq_some_iff.mp h).1
  rwa [List.length_reverse] at this

theorem sound_empty : ({} : History π).Sound :=
  ⟨valid_empty, rfl, fun _ _ h => (Nat.not_lt_zero _ (leftAt?_lt h)).elim,
    fun _ _ h => (Nat.not_lt_zero _ (leftAt?_lt h)).elim⟩

theorem Sound.retains (h : r.Sound) (hr : r.engine.Retains e') : Sound { r with engine := e' } where
  valid := hr.valid
  length_left := h.length_left.trans hr.level_eq.symm
  level_leftAt := h.level_leftAt
  extends_leftAt k before hk :=
    (h.extends_leftAt k before hk).trans (hr.below k (h.length_left ▸ leftAt?_lt hk))

theorem Sound.toOption (h : r.Sound) {o : Except Fault (Engine π)}
    (ho : ∀ e', o = .ok e' → r.engine.Retains e') :
    Sound { r with engine := o.toOption.getD r.engine } := by
  cases o with
  | ok e' => exact h.retains (ho e' rfl)
  | error _ => exact h

/-- Opening a level copies what it would return to. -/
theorem Sound.checkpoint (h : r.Sound) : Sound ⟨r.engine.checkpoint, r.engine :: r.left⟩ := by
  have lookup (k : Nat) (before : Engine π)
      (hk : leftAt? ⟨r.engine.checkpoint, r.engine :: r.left⟩ k = some before) :
      r.leftAt? k = some before ∨ (k = r.engine.level ∧ before = r.engine) := by
    unfold leftAt? at hk
    rw [List.reverse_cons, List.getElem?_append, List.length_reverse, h.length_left] at hk
    split at hk
    · exact .inl hk
    · obtain ⟨hlt, rfl⟩ := List.getElem?_eq_some_iff.mp hk
      rw [List.length_singleton] at hlt
      exact .inr ⟨by omega, List.getElem_singleton hlt⟩
  refine ⟨⟨h.valid.space.checkpoint, h.valid.queue⟩, ?_, fun k before hk => ?_, fun k before hk => ?_⟩
  · rw [List.length_cons, h.length_left]
    exact Space.level_checkpoint.symm
  · rcases lookup k before hk with hk | ⟨rfl, rfl⟩
    · exact h.level_leftAt k before hk
    · rfl
  · change Extends before.space (r.engine.space.checkpoint.rewind k)
    rw [Space.rewind_checkpoint]
    rcases lookup k before hk with hk | ⟨rfl, rfl⟩
    · exact h.extends_leftAt k before hk
    · rw [Space.rewind_of_le h.valid.space (k := r.engine.level) (Nat.le_refl _)]
      exact ⟨fun _ _ hd => hd, fun _ _ hx => hx⟩

end History

/-! ## Operations -/

/-- What can be done to an engine. -/
inductive Operation (π : Type)
  | declare (lower upper : Int)
  | post (p : π)
  | setLower (v : Var) (x : Int)
  | setUpper (v : Var) (x : Int)
  | remove (v : Var) (x : Int)
  | assign (v : Var) (x : Int)
  | narrow (v : Var) (first last : Int)
  | assignCell (i : Nat) (x : Int)
  | propagate
  | checkpoint
  | restore (level : Nat)

variable [Propagator π] {e e' : Engine π} {k : Nat}

/-- The engine after propagation, which may have refuted its domains. -/
def propagated (e : Engine π) : Engine π :=
  match e.propagate with
  | .ok _ e' | .error _ e' => e'

/-- Whether propagation ends well can be decided by running it. -/
theorem propagate_eq_of_isSome
    (h : (EStateM.run' (Engine.propagate : EStateM Failure (Engine π) Unit) e).isSome = true) :
    e.propagate = .ok () e.propagated := by
  obtain ⟨_, e', he⟩ := exists_ok_of_run' h
  unfold propagated
  rw [he]

theorem retains_post {p : π} (he : e.Valid) (h : e.post p = .ok e') : e.Retains e' := by
  have valid := he.post h
  obtain ⟨-, watchList, -, rfl⟩ := post_eq_ok h
  exact ⟨valid, rfl, fun k _ => ⟨fun _ _ hd => hd, fun _ _ hx => Cells.valuesAt_foldl_grow _ hx⟩⟩

theorem keeps_propagated [LawfulPropagator π] (he : e.Valid) : e.Keeps e.propagated := by
  have run := Run.propagate he .start (.inl rfl)
  unfold propagated
  split <;> rename_i hr <;> rw [hr] at run
  · exact run.2
  · exact run.2.1

namespace History
variable {r : History π}

/-- Performs an operation; one that is not possible changes nothing. -/
def perform (r : History π) : Operation π → History π
  | .declare lower upper => { r with engine := (r.engine.declare lower upper).toOption.getD r.engine }
  | .post p => { r with engine := (r.engine.post p).toOption.getD r.engine }
  | .setLower v x => { r with engine := r.engine.narrowed (Store.setLower v x) }
  | .setUpper v x => { r with engine := r.engine.narrowed (Store.setUpper v x) }
  | .remove v x => { r with engine := r.engine.narrowed (Store.remove v x) }
  | .assign v x => { r with engine := r.engine.narrowed (Store.assign v x) }
  | .narrow v first last => { r with engine := r.engine.narrowed (Store.narrow v first last) }
  | .assignCell i x => { r with engine := r.engine.assignCell i x }
  | .propagate => { r with engine := r.engine.propagated }
  | .checkpoint => ⟨r.engine.checkpoint, r.engine :: r.left⟩
  | .restore k =>
    match r.engine.restore k with
    | .ok engine => ⟨engine, r.left.drop (r.left.length - k)⟩
    | .error _ => r

/-- Performs operations in turn, from nothing. -/
def after (ops : List (Operation π)) : History π := ops.foldl perform {}

/-- Returning to a level changes nothing about the levels below it. -/
theorem Sound.restore (h : r.Sound) (hr : r.engine.restore k = .ok e') :
    Sound ⟨e', r.left.drop (r.left.length - k)⟩ := by
  have back := restored h.valid hr
  have lt : k < r.left.length := h.length_left ▸ back.space.lt_level
  have lookup (j : Nat) (before : Engine π)
      (hj : leftAt? ⟨e', r.left.drop (r.left.length - k)⟩ j = some before) :
      j < k ∧ r.leftAt? j = some before := by
    have hlt := leftAt?_lt hj
    rw [List.length_drop] at hlt
    have below : j < k := by omega
    unfold leftAt? at hj ⊢
    rw [List.reverse_drop, Nat.sub_sub_self (Nat.le_of_lt lt), List.getElem?_take_of_lt below] at hj
    exact ⟨below, hj⟩
  refine ⟨back.valid, ?_, fun j before hj => ?_, fun j before hj => ?_⟩
  · rw [List.length_drop, Nat.sub_sub_self (Nat.le_of_lt lt)]
    exact back.space.level_eq.symm
  · exact h.level_leftAt j before (lookup j before hj).2
  · obtain ⟨below, hj⟩ := lookup j before hj
    rw [back.space.rewind_eq j (Nat.le_of_lt below)]
    exact h.extends_leftAt j before hj

/-- **Every operation keeps the copies right.** -/
theorem Sound.perform [LawfulPropagator π] (h : r.Sound) (op : Operation π) :
    (r.perform op).Sound := by
  have narrowed {f : Store.Narrowing} (hf : f.Lawful) : Sound { r with engine := r.engine.narrowed f } :=
    h.retains (retains_narrowed h.valid hf)
  cases op with
  | declare lower upper => exact h.toOption fun _ => retains_declare h.valid
  | post p => exact h.toOption fun _ => retains_post h.valid
  | setLower v x => exact narrowed (.of_keeps fun _ => Store.keeps_setLower)
  | setUpper v x => exact narrowed (.of_keeps fun _ => Store.keeps_setUpper)
  | remove v x => exact narrowed (.of_keeps fun _ => Store.keeps_remove)
  | assign v x => exact narrowed (.of_keeps fun _ => Store.keeps_assign)
  | narrow v first last => exact narrowed (.of_keeps fun _ => Store.keeps_narrow)
  | assignCell i x => exact h.retains (retains_assignCell h.valid i x)
  | propagate => exact h.retains (keeps_propagated h.valid).retains
  | checkpoint => exact h.checkpoint
  | restore k =>
    unfold History.perform
    dsimp only
    split
    · rename_i hr
      exact h.restore hr
    · exact h

theorem sound_after [LawfulPropagator π] (ops : List (Operation π)) : (after ops).Sound := by
  suffices ∀ r : History π, r.Sound → (ops.foldl perform r).Sound from this {} sound_empty
  induction ops with
  | nil => exact fun _ h => h
  | cons op ops ih => exact fun r h => ih _ (h.perform op)

end History

/-! ## Returning -/

/-- An engine is at level `k` as another was: what was there is there again, nothing is pending and
nobody waits. -/
structure Regains (before : Engine π) (k : Nat) (e : Engine π) : Prop where
  domain : ∀ v, v < before.store.numVars → e.store.domain? v = before.store.domain? v
  cell : ∀ i, i < before.space.cells.values.size →
    e.space.cells.get? i = before.space.cells.get? i
  level_store : e.store.trail.level = k
  level_cells : e.space.cells.trail.level = k
  pending : e.store.pending = []
  idle : ∀ id, e.queue.isWaiting id = false
  queue : e.queue.isEmpty = true

omit [Propagator π] in
theorem Restored.regains {before : Engine π} (h : e.Restored k e') (hq : e'.queue = e.queue.clear)
    (hb : Extends before.space (e.space.rewind k)) : before.Regains k e' where
  domain v hv := by
    rw [Store.domain?_eq_some hv]
    exact (congrArg (fun s : Space => s.store.domain? v) h.space.bare_eq).trans
      (hb.domain v _ (Store.domain?_eq_some hv))
  cell i hi := by
    have here : before.space.cells.get? i = some before.space.cells.values.items[i] :=
      Array.getElem?_eq_getElem hi
    rw [here]
    exact (congrArg (fun s : Space => s.cells.get? i) h.space.bare_eq).trans (hb.cell i _ here)
  level_store := h.space.level_eq
  level_cells := h.valid.space.level_cells.trans h.space.level_eq
  pending := congrArg List.reverse h.space.events_eq
  idle id := by
    rw [hq]
    cases hw : e.queue.waiting.items[id]? <;>
      simp [Queue.isWaiting, Queue.clear, Arena.map, Arena.get?, hw]
  queue := by
    rw [hq]
    simp [Queue.isEmpty, Queue.clear]

/-- **Backtracking restores exactly.**  Whatever was done, every level below the current one can be
returned to, and what was there when the level was last left is then as it was. -/
theorem restore_exact [LawfulPropagator π] (ops : List (Operation π)) {k : Nat}
    (hk : k < (History.after ops).engine.level) :
    ∃ before e', (History.after ops).leftAt? k = some before ∧ before.level = k ∧
      (History.after ops).engine.restore k = .ok e' ∧ before.Regains k e' := by
  have sound := History.sound_after ops
  obtain ⟨before, hbefore⟩ : ∃ before, (History.after ops).leftAt? k = some before := by
    have : k < (History.after ops).left.reverse.length := by
      rwa [List.length_reverse, sound.length_left]
    exact ⟨_, List.getElem?_eq_getElem this⟩
  refine ⟨before, ?_⟩
  cases hr : (History.after ops).engine.restore k with
  | error cause => exact absurd hr (restore_ne_error sound.valid hk cause)
  | ok e' =>
    have back := restored sound.valid hr
    have queue : e'.queue = (History.after ops).engine.queue.clear := by
      obtain ⟨space, -, rfl⟩ := restore_eq_ok sound.valid hr
      exact (foldl_synchronise _ _).2.1
    exact ⟨e', hbefore, sound.level_leftAt k before hbefore, rfl,
      back.regains queue (sound.extends_leftAt k before hbefore)⟩

/-! ## A sample -/

/-- A cycle through three nodes; at level 2 propagation refutes a cycle through two of them, and
after the return to level 1 another variable is declared. -/
def detours : List (Operation Constraint) :=
  [.declare 0 2, .declare 0 2, .declare 0 2, .post (.circuit { predecessors := #[0, 1, 2] }),
    .propagate, .checkpoint, .assign 1 2, .checkpoint, .assign 2 1, .propagate, .restore 1,
    .declare 0 9, .setLower 3 4, .propagate, .checkpoint, .narrow 3 5 6, .remove 0 1]

theorem restore_exact_detours : 0 < (History.after detours).engine.level ∧
    ∃ before e', (History.after detours).leftAt? 0 = some before ∧ before.level = 0 ∧
      (History.after detours).engine.restore 0 = .ok e' ∧ before.Regains 0 e' :=
  have opened : 0 < (History.after detours).engine.level := by decide +kernel
  ⟨opened, restore_exact detours opened⟩

end Engine
end BranchBound
