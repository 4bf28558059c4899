import BranchBound.Model
import BranchBound.Proofs.Engine

/-! # Engines that can be made

An engine is made from nothing by declaring variables, posting propagators, narrowing, propagating,
opening levels and returning to them, in any order (`Engine.Made`).  **Every engine that can be made
is valid** (`Made.valid`). -/
namespace BranchBound

namespace Store
variable {s : Store} {d : Domain} {k : Nat}

theorem undo_push {domains : Arena Domain} {c : Change} (h : c.var < domains.size) :
    undo (domains.push d) c = (undo domains c).push d := by
  have size := size_undo domains c
  refine Arena.ext_get? fun w => ?_
  rw [Arena.get?_push, size]
  have beyond (hw : w = domains.size) : c.var ≠ w := Nat.ne_of_lt (hw ▸ h)
  cases c <;>
  · simp only [undo, Arena.get?_modify, Arena.get?_push]
    split
    · rename_i hvw
      split
      · rename_i hw
        exact absurd hvw (beyond hw)
      · rfl
    · rfl

/-- A variable that is declared was there at every level. -/
theorem domainsAt_push (hs : ∀ c ∈ s.trail.undone k, c.var < s.numVars) :
    ({ s with domains := s.domains.push d } : Store).domainsAt k = (s.domainsAt k).push d := by
  have undone (cs : List Change) (domains : Arena Domain) (h : ∀ c ∈ cs, c.var < domains.size) :
      cs.foldl undo (domains.push d) = (cs.foldl undo domains).push d := by
    induction cs generalizing domains with
    | nil => rfl
    | cons c cs ih =>
      rw [List.foldl_cons, List.foldl_cons, undo_push (h c List.mem_cons_self)]
      refine ih _ fun c' hc' => ?_
      rw [size_undo]
      exact h c' (List.mem_cons_of_mem c hc')
  exact undone _ _ hs

end Store

namespace Space
variable {s : Space}

theorem Valid.undone_lt (hs : s.Valid) (k : Nat) :
    ∀ c ∈ s.store.trail.undone k, c.var < s.store.numVars := fun c hc =>
  hs.changed_lt c (Trail.undone_append_back s.store.trail k ▸ List.mem_append_left _ hc)

/-- A variable can be declared at any level. -/
theorem Valid.push {d : Domain} (hs : s.Valid) (hd : d.Valid) :
    Valid ⟨{ s.store with domains := s.store.domains.push d }, s.cells⟩ := by
  have pushed (domains : Arena Domain) (hdomains : ∀ v d', domains.get? v = some d' → d'.Valid)
      (v : Var) (d' : Domain) (hv : (domains.push d).get? v = some d') : d'.Valid := by
    rw [Arena.get?_push] at hv
    split at hv
    · exact Option.some.inj hv ▸ hd
    · exact hdomains v d' hv
  refine ⟨pushed _ hs.store, fun k hk => ?_, hs.level_cells, fun c hc => ?_⟩
  · intro v d' hv
    change (Store.domainsAt { s.store with domains := s.store.domains.push d } k).get? v = _ at hv
    rw [Store.domainsAt_push (hs.undone_lt k)] at hv
    exact pushed _ (hs.earlier k hk) v d' hv
  · have := hs.changed_lt c hc
    change _ < (s.store.domains.push d).size
    rw [Arena.size_push]
    exact Nat.lt_succ_of_lt this

/-- A variable that is declared makes no difference at any level. -/
theorem Valid.grows_rewind (hs : s.Valid) (d : Domain) (k : Nat) : (s.rewind k).store.Grows
    (Space.rewind ⟨{ s.store with domains := s.store.domains.push d }, s.cells⟩ k).store := by
  intro v d' hd
  have lt : v < (s.store.domainsAt k).size := (Array.getElem?_eq_some_iff.mp hd).1
  change Arena.get? (Store.domainsAt { s.store with domains := s.store.domains.push d } k) v = some d'
  rw [Store.domainsAt_push (hs.undone_lt k), Arena.get?_push, if_neg (Nat.ne_of_lt lt)]
  exact hd

end Space

theorem Cells.get?_foldl_grow (initial : List Int) (c : Cells) (i : Nat) :
    (initial.foldl Cells.grow c).get? i =
      if i < c.values.size then c.get? i else initial[i - c.values.size]? := by
  induction initial generalizing c with
  | nil =>
    split
    · rfl
    · simp only [List.foldl_nil, List.getElem?_nil]
      exact Array.getElem?_eq_none (by unfold Arena.size at *; omega)
  | cons x initial ih =>
    rw [List.foldl_cons, ih, Cells.get?_grow, Cells.grow, Arena.size_push]
    split
    · split
      · rename_i heq
        rw [if_neg (by omega), heq, Nat.sub_self]
        rfl
      · rw [if_pos (by omega)]
    · rw [if_neg (by omega), show i - c.values.size = (i - (c.values.size + 1)) + 1 by omega,
        List.getElem?_cons_succ]

/-- What is grown has its first values. -/
theorem Cells.value_foldl_grow {initial : List Int} {c : Cells} {k : Nat} {x : Int} (h : initial[k]? = some x) :
    (initial.foldl Cells.grow c).value (c.values.size + k) = x := by
  unfold Cells.value
  rw [Cells.get?_foldl_grow, if_neg (by omega), Nat.add_sub_cancel_left, h]
  rfl

/-- What was there before has the value that it had. -/
theorem Cells.value_foldl_grow_of_lt {c : Cells} {i : Nat} (initial : List Int) (h : i < c.values.size) :
    (initial.foldl Cells.grow c).value i = c.value i := by
  unfold Cells.value
  rw [Cells.get?_foldl_grow, if_pos h]

theorem Cells.size_foldl_grow (initial : List Int) (c : Cells) :
    (initial.foldl Cells.grow c).values.size = c.values.size + initial.length := by
  induction initial generalizing c with
  | nil => rfl
  | cons x initial ih =>
    rw [List.foldl_cons, ih, Cells.grow, Arena.size_push, List.length_cons]
    omega

theorem Cells.size_le_foldl_grow (initial : List Int) (c : Cells) :
    c.values.size ≤ (initial.foldl Cells.grow c).values.size := by
  rw [size_foldl_grow]
  exact Nat.le_add_right _ _

namespace Engine
variable {π : Type} {e e' : Engine π}

/-! ## Declarations -/

theorem declare_eq_ok {lower upper : Int} (h : e.declare lower upper = .ok e') :
    lower ≤ upper ∧ e' = { e with
      space := { e.space with
        store := { e.store with domains := e.store.domains.push (.ofRange lower upper) } }
      watchList := e.watchList.grow } := by
  unfold declare Store.declare at h
  split at h
  · rename_i hle
    cases h
    exact ⟨hle, rfl⟩
  · cases h

/-- A variable that is declared makes no difference to those that are there. -/
theorem grows_declare {lower upper : Int} (h : e.declare lower upper = .ok e') : e.store.Grows e'.store := by
  obtain ⟨-, rfl⟩ := declare_eq_ok h
  intro v d hv
  have lt : v < e.store.domains.size := Store.lt_numVars_of hv
  change (e.store.domains.push (.ofRange lower upper)).get? v = some d
  rw [Arena.get?_push, if_neg (Nat.ne_of_lt lt)]
  exact hv

theorem valid_of_push {d : Domain} (h : e.Valid) (hd : d.Valid) :
    Valid { e with
      space := { e.space with store := { e.store with domains := e.store.domains.push d } }
      watchList := e.watchList.grow } :=
  ⟨h.space.push hd, h.queue⟩

theorem Valid.declare {lower upper : Int} (h : e.Valid) (hd : e.declare lower upper = .ok e') :
    e'.Valid := by
  obtain ⟨hle, rfl⟩ := declare_eq_ok hd
  exact valid_of_push h (Domain.valid_ofRange hle)

/-! ## Posting -/

theorem level_foldl_grow (initial : List Int) (c : Cells) :
    (initial.foldl Cells.grow c).trail = c.trail := by
  induction initial generalizing c with
  | nil => rfl
  | cons x initial ih => exact ih (c.grow x)

variable [Propagator π] {p : π}

/-- The engine in which a propagator was posted, with its watchers. -/
def withPosted (e : Engine π) (p : π) (watchList : WatchList) : Engine π :=
  { e with
    space := { e.space with cells := (Propagator.cells p).foldl Cells.grow e.space.cells }
    watchList
    posted := e.posted.push {
      propagator := Propagator.attach p e.space.cells.values.size e.store
      scope := scopeOf (Propagator.watches p)
      cells := List.range' e.space.cells.values.size (Propagator.cells p).length }
    queue := e.queue.enqueue e.numPropagators (Propagator.priority p).lane }

theorem post_eq_ok (h : e.post p = .ok e') :
    Propagator.fits p = true ∧ ∃ watchList,
      (Propagator.watches p).zipIdx.foldlM
        (fun w ((v, events), position) => w.watch ⟨e.numPropagators, position⟩ v events)
        e.watchList = .ok watchList ∧
      e' = e.withPosted p watchList := by
  unfold post at h
  cases hf : Propagator.fits p with
  | false => rw [hf] at h; cases h
  | true =>
    rw [hf] at h
    dsimp only [Bool.not_true, Bool.false_eq_true, if_false] at h
    refine ⟨rfl, ?_⟩
    cases hw : (Propagator.watches p).zipIdx.foldlM
        (fun w ((v, events), position) => w.watch ⟨e.numPropagators, position⟩ v events)
        e.watchList with
    | error cause =>
      rw [hw] at h
      cases h
    | ok watchList =>
      rw [hw] at h
      cases h
      exact ⟨watchList, rfl, rfl⟩

theorem numPropagators_withPosted (watchList : WatchList) :
    (e.withPosted p watchList).numPropagators = e.numPropagators + 1 := Arena.size_push _ _

theorem Valid.post (h : e.Valid) (hp : e.post p = .ok e') : e'.Valid := by
  obtain ⟨-, watchList, -, rfl⟩ := post_eq_ok hp
  refine ⟨⟨h.space.store, h.space.earlier, ?_, h.space.changed_lt⟩, ?_⟩
  · change ((Propagator.cells p).foldl Cells.grow e.space.cells).trail.level = _
    rw [level_foldl_grow]
    exact h.space.level_cells
  · rw [numPropagators_withPosted]
    exact (h.queue.mono (Nat.le_succ _)).enqueue (Priority.lane_lt _) (Nat.lt_succ_self _)

/-! ## Everything that can be made -/

/-- The engines that can be made. -/
inductive Made : Engine π → Prop
  | empty : Made {}
  | declare {e e' : Engine π} {lower upper : Int} (h : Made e)
    (hd : e.declare lower upper = .ok e') : Made e'
  | post {e e' : Engine π} {p : π} (h : Made e) (hp : e.post p = .ok e') : Made e'
  | narrow {e : Engine π} {store : Store} (h : Made e) (hn : e.store.Narrows store) :
    Made (e.withStore store)
  | propagate {e e' : Engine π} (h : Made e) (hp : e.propagate = .ok () e') : Made e'
  | refuted {e e' : Engine π} {f : Failure} (h : Made e) (hp : e.propagate = .error f e') : Made e'
  | checkpoint {e : Engine π} (h : Made e) : Made e.checkpoint
  | restore {e e' : Engine π} {k : Nat} (h : Made e) (hr : e.restore k = .ok e') : Made e'

/-- **Every engine that can be made is valid.** -/
theorem Made.valid [LawfulPropagator π] (h : Made e) : e.Valid := by
  induction h with
  | empty => exact valid_empty
  | declare _ hd ih => exact ih.declare hd
  | post _ hp ih => exact ih.post hp
  | narrow _ hn ih => exact (keeps_withStore ih hn).valid
  | propagate _ hp ih =>
    exact ((Run.propagate ih .start (.inl rfl)).of_ok hp).2.valid
  | refuted _ hp ih =>
    exact ((Run.propagate ih .start (.inl rfl)).of_error hp).2.1.valid
  | checkpoint _ ih => exact ⟨ih.space.checkpoint, ih.queue⟩
  | restore _ hr ih => exact (restored ih hr).valid

end Engine
end BranchBound
