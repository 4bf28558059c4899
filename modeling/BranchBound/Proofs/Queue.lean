import BranchBound.Engine.Queue
import Mathlib.Data.List.Nodup
import Mathlib.Data.List.Perm.Subperm

/-! # Who waits

A queue is seen through the list of those who wait, the next in turn first (`Queue.waits`).  It is
valid if everyone in that list is there once, is known to wait and is counted, and if the heap has
the lanes that are not empty (`Heap.Lists`).  Then the lane on top of the heap is the first one that is not
empty, so **what has its turn is the head of the list** (`Valid.waits_of_pop`), and nothing has its
turn exactly if nothing waits (`Valid.pop_eq_none_iff`).  Enqueuing adds to the list.  So no more
than all propagators ever wait (`Valid.length_le`). -/
namespace BranchBound

/-! ## The heap of the lanes -/

/-- The heap has every lane that is not empty, once. -/
structure Heap.Lists (h : Heap) (lanes : List (List Nat)) : Prop where
  mem_iff : ∀ k, k ∈ h.items ↔ ∃ id lane, lanes[k]? = some (id :: lane)
  nodup : h.items.Nodup

namespace Heap.Lists
variable {h h' : Heap} {lanes : List (List Nat)} {lane : List Nat} {id k first : Nat}

theorem empty (none : ∀ lane ∈ lanes, lane = []) : ({} : Heap).Lists lanes where
  mem_iff k := by
    refine iff_of_false List.not_mem_nil ?_
    rintro ⟨id, lane, hk⟩
    cases none _ (List.mem_of_getElem? hk)
  nodup := List.nodup_nil

/-- A lane that somebody enters is listed, unless it is already. -/
theorem enter (hl : h.Lists lanes) (hk : k < lanes.length) :
    (if lanes[k]? = some [] then h.push k else h).Lists (lanes.modify k (· ++ [id])) where
  mem_iff i := by
    by_cases hi : k = i
    · subst i
      have entered : ∃ other rest, lanes[k] ++ [id] = other :: rest :=
        List.exists_cons_of_ne_nil (by simp)
      rw [List.getElem?_modify_eq, List.getElem?_eq_getElem hk]
      refine iff_of_true ?_ (by simpa using entered)
      split
      · exact List.mem_cons_self
      · rename_i occupied
        obtain ⟨other, rest, some⟩ := List.exists_cons_of_ne_nil fun empty => occupied (congrArg some empty)
        exact (hl.mem_iff k).mpr ⟨other, rest, (List.getElem?_eq_getElem hk).trans (congrArg _ some)⟩
    · rw [List.getElem?_modify_ne _ _ hi, ← hl.mem_iff]
      split
      · exact List.mem_cons.trans (or_iff_right (Ne.symm hi))
      · rfl
  nodup := by
    split
    · rename_i empty
      refine List.nodup_cons.mpr ⟨fun listed => ?_, hl.nodup⟩
      obtain ⟨other, rest, some⟩ := (hl.mem_iff k).mp listed
      rw [empty] at some
      cases some
    · exact hl.nodup

/-- A lane that the last one leaves is not listed any more. -/
theorem leave (hl : h.Lists lanes) (top : h.top? = some first) (head : lanes[first]? = some (id :: lane)) :
    (if lane.isEmpty then h.pop else h).Lists (lanes.set first lane) where
  mem_iff i := by
    obtain ⟨hfirst, -⟩ := List.getElem?_eq_some_iff.mp head
    by_cases hi : first = i
    · subst i
      rw [List.getElem?_set_self hfirst]
      cases lane with
      | nil =>
        rw [List.isEmpty_nil, if_pos rfl, items_pop top]
        exact iff_of_false (fun listed => (hl.nodup.mem_erase_iff.mp listed).1 rfl) (by simp)
      | cons other rest =>
        exact iff_of_true ((hl.mem_iff first).mpr ⟨id, _, head⟩) ⟨other, rest, rfl⟩
    · rw [List.getElem?_set_ne hi, ← hl.mem_iff]
      split
      · rw [items_pop top, hl.nodup.mem_erase_iff]
        exact and_iff_right (Ne.symm hi)
      · rfl
  nodup := by
    split
    · rw [items_pop top]
      exact hl.nodup.erase first
    · exact hl.nodup

/-- **On top of the heap is the first lane that is not empty.** -/
theorem top?_eq_some_iff (hl : h.Lists lanes) : h.top? = some first ↔
    (∃ id lane, lanes[first]? = some (id :: lane)) ∧ ∀ k < first, ∀ lane, lanes[k]? = some lane → lane = [] := by
  rw [Heap.top?_eq_some_iff, hl.mem_iff]
  refine and_congr_right fun _ => ⟨fun least k hk lane hlane => ?_, fun empty k listed => ?_⟩
  · cases lane with
    | nil => rfl
    | cons id lane => exact absurd (least k ((hl.mem_iff k).mpr ⟨id, lane, hlane⟩)) (Nat.not_le.mpr hk)
  · obtain ⟨id, lane, hlane⟩ := (hl.mem_iff k).mp listed
    refine Nat.le_of_not_lt fun hk => ?_
    cases empty k hk _ hlane

theorem top?_eq_none_iff (hl : h.Lists lanes) : h.top? = none ↔ lanes.flatten = [] := by
  rw [Heap.top?_eq_none_iff, List.flatten_eq_nil_iff, List.eq_nil_iff_forall_not_mem]
  constructor
  · intro none lane hlane
    obtain ⟨k, hk⟩ := List.getElem?_of_mem hlane
    cases lane with
    | nil => rfl
    | cons id lane => exact absurd ((hl.mem_iff k).mpr ⟨id, lane, hk⟩) (none k)
  · intro empty k listed
    obtain ⟨id, lane, hk⟩ := (hl.mem_iff k).mp listed
    cases empty _ (List.mem_of_getElem? hk)

/-- What is on top is read off the lanes. -/
theorem top?_eq (hl : h.Lists lanes) (hl' : h'.Lists lanes) : h.top? = h'.top? :=
  Option.ext fun _ => hl.top?_eq_some_iff.trans hl'.top?_eq_some_iff.symm

end Heap.Lists

namespace Queue

/-- Those who wait, the next in turn first. -/
def waits (q : Queue) : List Nat := q.lanes.flatten

/-- Everyone who waits is one of the first `n`, waits once, is known to wait and is counted, and the heap has the
lanes that are not empty. -/
structure Valid (q : Queue) (n : Nat) : Prop where
  lanes : q.lanes.length = Priority.numLanes
  nodup : q.waits.Nodup
  mem_iff : ∀ id, id ∈ q.waits ↔ q.isWaiting id = true
  lt : ∀ id ∈ q.waits, id < n
  count : q.count = q.waits.length
  occupied : q.occupied.Lists q.lanes

variable {q q' : Queue} {id other lane first n : Nat} {lanes : List (List Nat)} {rest : List Nat}

theorem length_eq (q : Queue) : q.length = q.waits.length := by
  unfold length waits
  induction q.lanes with
  | nil => rfl
  | cons lane lanes ih =>
    rw [List.map_cons, sumNat, ih, List.flatten_cons, List.length_append]

/-- No more than all propagators wait. -/
theorem Valid.length_le (h : q.Valid n) : q.length ≤ n := by
  have sub : q.waits ⊆ List.range n := fun id hid => List.mem_range.mpr (h.lt id hid)
  have := (List.subperm_of_subset h.nodup sub).length_le
  rwa [List.length_range, ← length_eq] at this

theorem Valid.mono {m : Nat} (h : q.Valid m) (hmn : m ≤ n) : q.Valid n :=
  { h with lt := fun id hid => Nat.lt_of_lt_of_le (h.lt id hid) hmn }

/-- A queue is empty exactly if nobody waits. -/
theorem Valid.isEmpty_iff (h : q.Valid n) : q.isEmpty = true ↔ q.waits = [] := by
  unfold isEmpty
  rw [beq_iff_eq, h.count, List.length_eq_zero_iff]

theorem valid_empty : ({} : Queue).Valid n where
  lanes := rfl
  nodup := by simp [waits]
  mem_iff id := by simp [waits, isWaiting, Arena.get?]
  lt id h := by simp [waits] at h
  count := by simp [waits]
  occupied := .empty fun lane h => List.eq_of_mem_replicate h

/-! ## Enqueuing -/

theorem perm_flatten_modify (h : lane < lanes.length) :
    (lanes.modify lane (· ++ [id])).flatten.Perm (id :: lanes.flatten) := by
  induction lanes generalizing lane with
  | nil => exact absurd h (Nat.not_lt_zero lane)
  | cons first lanes ih =>
    cases lane with
    | zero =>
      rw [List.modify_zero_cons, List.flatten_cons, List.flatten_cons, List.append_assoc]
      exact List.perm_middle
    | succ lane =>
      rw [List.modify_succ_cons, List.flatten_cons, List.flatten_cons]
      exact ((ih (Nat.lt_of_succ_lt_succ h)).append_left first).trans List.perm_middle

theorem isWaiting_enqueue :
    (q.enqueue id lane).isWaiting other = (decide (other = id) || q.isWaiting other) := by
  unfold enqueue
  split
  · rename_i h
    by_cases ho : other = id
    · subst other; simp [h]
    · simp [ho]
  · unfold isWaiting
    rw [Arena.get?_set, Arena.get?_accommodate]
    by_cases ho : other = id
    · subst other
      simp only [decide_true, Bool.true_or, if_true]
      split
      · rename_i hlt
        have : q.waiting.get? id = some q.waiting.items[id] := Array.getElem?_eq_getElem hlt
        simp [this]
      · simp
    · have missing (h : ¬ other < q.waiting.size) : q.waiting.get? other = none :=
        Array.getElem?_eq_none (Nat.le_of_not_lt h)
      simp only [if_neg (Ne.symm ho), ho, decide_false, Bool.false_or]
      split
      · rfl
      · rename_i h
        rw [missing h]
        split <;> rfl

theorem waits_enqueue_of_waiting (h : q.isWaiting id = true) :
    (q.enqueue id lane).waits = q.waits := by
  simp [enqueue, h]

theorem perm_waits_enqueue (h : q.isWaiting id = false) (hl : lane < q.lanes.length) :
    (q.enqueue id lane).waits.Perm (id :: q.waits) := by
  unfold enqueue
  rw [h]
  exact perm_flatten_modify hl

/-- **Enqueuing adds one who waits.** -/
theorem mem_waits_enqueue (hq : q.Valid n) (hl : lane < Priority.numLanes) :
    other ∈ (q.enqueue id lane).waits ↔ other = id ∨ other ∈ q.waits := by
  cases h : q.isWaiting id with
  | true =>
    rw [waits_enqueue_of_waiting h]
    have := (hq.mem_iff id).mpr h
    exact ⟨.inr, fun ho => ho.elim (fun ho => ho ▸ this) fun ho => ho⟩
  | false =>
    rw [(perm_waits_enqueue h (hq.lanes.symm ▸ hl)).mem_iff, List.mem_cons]

theorem Valid.enqueue (hq : q.Valid n) (hl : lane < Priority.numLanes) (hid : id < n) :
    (q.enqueue id lane).Valid n where
  lanes := by
    unfold Queue.enqueue
    split
    · exact hq.lanes
    · rw [List.length_modify]
      exact hq.lanes
  nodup := by
    cases h : q.isWaiting id with
    | true =>
      rw [waits_enqueue_of_waiting h]
      exact hq.nodup
    | false =>
      have fresh : id ∉ q.waits := fun hm => by simp [(hq.mem_iff id).mp hm] at h
      rw [(perm_waits_enqueue h (hq.lanes.symm ▸ hl)).nodup_iff, List.nodup_cons]
      exact ⟨fresh, hq.nodup⟩
  mem_iff other := by
    rw [mem_waits_enqueue hq hl, isWaiting_enqueue, hq.mem_iff, Bool.or_eq_true,
      decide_eq_true_eq]
  lt other ho := by
    rcases (mem_waits_enqueue hq hl).mp ho with rfl | ho
    · exact hid
    · exact hq.lt other ho
  count := by
    cases h : q.isWaiting id with
    | true =>
      rw [waits_enqueue_of_waiting h, Queue.enqueue, if_pos h]
      exact hq.count
    | false =>
      rw [(perm_waits_enqueue h (hq.lanes.symm ▸ hl)).length_eq, List.length_cons, ← hq.count,
        Queue.enqueue, h]
      rfl
  occupied := by
    unfold Queue.enqueue
    split
    · exact hq.occupied
    · exact hq.occupied.enter (hq.lanes.symm ▸ hl)

/-! ## Turns -/

/-- The head of the first lane that is not empty is the head of all. -/
theorem flatten_of_first (head : lanes[first]? = some (id :: rest))
    (before : ∀ k < first, ∀ lane, lanes[k]? = some lane → lane = []) :
    lanes.flatten = id :: (lanes.set first rest).flatten := by
  induction lanes generalizing first with
  | nil => cases head
  | cons lane lanes ih =>
    cases first with
    | zero =>
      obtain rfl := Option.some.inj head
      rfl
    | succ first =>
      obtain rfl : lane = [] := before 0 (Nat.succ_pos first) lane rfl
      exact ih head fun k hk => before (k + 1) (Nat.succ_lt_succ hk)

/-- **The head of those who wait has its turn.** -/
theorem Valid.waits_of_pop (hq : q.Valid n) (h : q.pop = some (id, q')) : q.waits = id :: q'.waits := by
  obtain ⟨first, rest, top, head, rfl⟩ := eq_of_pop h
  exact flatten_of_first head (hq.occupied.top?_eq_some_iff.mp top).2

/-- **Nothing has its turn exactly if nothing waits.** -/
theorem Valid.pop_eq_none_iff (hq : q.Valid n) : q.pop = none ↔ q.waits = [] := by
  unfold waits
  rw [← hq.occupied.top?_eq_none_iff]
  cases top : q.occupied.top? with
  | none => simp [Queue.pop, top]
  | some first =>
    obtain ⟨⟨id, rest, head⟩, -⟩ := hq.occupied.top?_eq_some_iff.mp top
    simp [Queue.pop, top, head]

/-- What is on top of the heap is a lane that has a head, who is known to wait and is counted. -/
theorem Valid.head (hq : q.Valid n) (top : q.occupied.top? = some first) :
    ∃ id rest, q.lanes[first]? = some (id :: rest) ∧ q.waiting.get? id = some true ∧ 0 < q.count := by
  obtain ⟨⟨id, rest, head⟩, -⟩ := hq.occupied.top?_eq_some_iff.mp top
  have waits : id ∈ q.waits := List.mem_flatten.mpr ⟨_, List.mem_of_getElem? head, List.mem_cons_self⟩
  refine ⟨id, rest, head, ?_, hq.count ▸ List.length_pos_of_mem waits⟩
  have known := (hq.mem_iff id).mp waits
  unfold isWaiting at known
  cases entry : q.waiting.get? id with
  | none => simp [entry] at known
  | some flag =>
    rw [entry] at known
    exact congrArg some known

theorem Valid.length_of_pop (hq : q.Valid n) (h : q.pop = some (id, q')) : q.length = q'.length + 1 := by
  rw [length_eq, length_eq, hq.waits_of_pop h, List.length_cons]

theorem isWaiting_of_pop (h : q.pop = some (id, q')) :
    q'.isWaiting other = (decide (other ≠ id) && q.isWaiting other) := by
  obtain ⟨first, rest, -, -, rfl⟩ := eq_of_pop h
  unfold isWaiting
  dsimp only
  rw [Arena.get?_set]
  by_cases ho : other = id
  · subst other
    cases q.waiting.get? id <;> simp
  · rw [if_neg (Ne.symm ho)]
    simp [ho]

theorem Valid.pop (hq : q.Valid n) (h : q.pop = some (id, q')) : q'.Valid n ∧ id < n := by
  have waits := hq.waits_of_pop h
  have nodup := hq.nodup
  rw [waits, List.nodup_cons] at nodup
  have lt : id < n := hq.lt id (waits ▸ List.mem_cons_self)
  have known (other : Nat) : other ∈ q'.waits ↔ q'.isWaiting other = true := by
    rw [isWaiting_of_pop h, Bool.and_eq_true, decide_eq_true_eq, ← hq.mem_iff, waits, List.mem_cons]
    constructor
    · intro ho
      exact ⟨fun heq => nodup.1 (heq ▸ ho), .inr ho⟩
    · rintro ⟨hne, ho⟩
      exact ho.resolve_left hne
  obtain ⟨first, rest, top, head, rfl⟩ := eq_of_pop h
  refine ⟨⟨?_, nodup.2, known, fun other ho => ?_, ?_, hq.occupied.leave top head⟩, lt⟩
  · rw [List.length_set]
    exact hq.lanes
  · exact hq.lt other (waits ▸ List.mem_cons_of_mem id ho)
  · have count := hq.count
    rw [waits, List.length_cons] at count
    exact Nat.sub_eq_of_eq_add count

theorem waits_clear (q : Queue) : q.clear.waits = [] := by
  unfold waits clear
  simp

/-- If it is nobody's turn, all lanes are empty. -/
theorem Valid.lanes_eq_of_pop (hq : q.Valid n) (h : q.pop = none) :
    q.lanes = List.replicate Priority.numLanes [] := by
  rw [hq.pop_eq_none_iff, waits, List.flatten_eq_nil_iff] at h
  exact List.eq_replicate_iff.mpr ⟨hq.lanes, h⟩

theorem Valid.clear (hq : q.Valid n) : q.clear.Valid n where
  lanes := by rw [Queue.clear, List.length_map, hq.lanes]
  nodup := by rw [waits_clear]; exact List.nodup_nil
  mem_iff id := by
    rw [waits_clear]
    cases h : q.waiting.items[id]? <;> simp [isWaiting, Queue.clear, Arena.map, Arena.get?, h]
  lt id h := by rw [waits_clear] at h; cases h
  count := by rw [waits_clear]; rfl
  occupied := .empty fun lane h => by
    obtain ⟨-, -, rfl⟩ := List.mem_map.mp h
    rfl

end Queue
end BranchBound
