import BranchBound.Proofs.Queue
import Mathlib.Data.List.Induction
import Mathlib.Data.Nat.Find

/-! # The order of service

A queue is asked to enqueue, to pop and to be cleared, in any order (`Queue.Request`), and everything that was done
is taken down together with the answer (`Queue.Act`, `Queue.Record`).  What the queue should answer can be read off
these acts alone.  An act by which somebody was enqueued is pending as long as this propagator was neither popped nor
cleared (`Queue.Pending`); of the pending acts of a propagator only the first counts (`Queue.Ticket`).  It is the turn
of the propagator whose ticket has the first priority, and among these the first ticket (`Queue.First`).

The tickets are the places in a single line, which everybody enters at its end and leaves from anywhere
(`Queue.line`, `Queue.mem_line`).  **The lanes of a queue are what this line is when it is sorted by
priority** (`Queue.Serves`), whatever was done to it.  With the invariant of the heap, the counter and the table
(`Queue.Valid`) it follows that **a queue serves by priority, and within a priority who came first**
(`Queue.served_in_order`). -/
namespace BranchBound
namespace Queue

/-! ## What is done to a queue -/

/-- What a queue can be asked for. -/
inductive Request
  | enqueue (id : Nat) (priority : Priority)
  | pop
  | clear
  deriving Repr, DecidableEq

/-- What was done to a queue. -/
inductive Act
  | enqueued (id : Nat) (priority : Priority)
  /-- Somebody had its turn, or nobody. -/
  | popped (turn : Option Nat)
  | cleared
  deriving Repr, DecidableEq

/-- What was asked for. -/
def Act.request : Act → Request
  | .enqueued id priority => .enqueue id priority
  | .popped _ => .pop
  | .cleared => .clear

/-- A queue, and what was done to it since it was new. -/
structure Record where
  acts : List Act := []
  queue : Queue := {}
  deriving Repr, DecidableEq

namespace Record

def serve (r : Record) : Request → Record
  | .enqueue id priority => ⟨r.acts ++ [.enqueued id priority], r.queue.enqueue id priority.lane⟩
  | .pop =>
    match r.queue.pop with
    | none => ⟨r.acts ++ [.popped none], r.queue⟩
    | some (id, queue) => ⟨r.acts ++ [.popped (some id)], queue⟩
  | .clear => ⟨r.acts ++ [.cleared], r.queue.clear⟩

/-- A new queue after some requests. -/
def after (requests : List Request) : Record := requests.foldl serve {}

end Record

/-! ## What is pending -/

/-- Somebody does not wait any more: it was its turn, or everybody was sent away. -/
def Act.Frees (id : Nat) : Act → Prop
  | .enqueued _ _ => False
  | .popped turn => turn = some id
  | .cleared => True

variable {acts : List Act} {a : Act} {i j id other : Nat} {p p' : Priority}

theorem Act.not_frees_enqueued : ¬(Act.enqueued other p).Frees id := fun h => h

/-- The `i`-th act enqueued a propagator, which was neither popped nor cleared since. -/
structure Pending (acts : List Act) (i id : Nat) (p : Priority) : Prop where
  enqueued : acts[i]? = some (.enqueued id p)
  since : ∀ j a, i < j → acts[j]? = some a → ¬a.Frees id

/-- The `i`-th act is the first pending one by which a propagator was enqueued. -/
structure Ticket (acts : List Act) (i id : Nat) (p : Priority) : Prop extends Pending acts i id p where
  least : ∀ j p', Pending acts j id p' → i ≤ j

/-- No ticket has a priority before that of the `i`-th act, and none of the same priority is older. -/
structure First (acts : List Act) (i id : Nat) (p : Priority) : Prop extends Ticket acts i id p where
  ahead : ∀ j other p', Ticket acts j other p' → p.lane < p'.lane ∨ p.lane = p'.lane ∧ i ≤ j

/-- Whose turn it is after some acts, if it is anybody's. -/
def Due (acts : List Act) : Option Nat → Prop
  | none => ∀ i id p, ¬Pending acts i id p
  | some id => ∃ i p, First acts i id p

theorem Pending.lt (h : Pending acts i id p) : i < acts.length :=
  (List.getElem?_eq_some_iff.mp h.enqueued).1

/-- Who is enqueued and not freed since has a ticket. -/
theorem Pending.exists_ticket (h : Pending acts i id p) : ∃ j p', Ticket acts j id p' := by
  classical
  have pending : ∃ j p', Pending acts j id p' := ⟨i, p, h⟩
  obtain ⟨p', found⟩ := Nat.find_spec pending
  exact ⟨Nat.find pending, p', found, fun j p' hj => Nat.find_min' pending ⟨p', hj⟩⟩

/-- It is the turn of one at most. -/
theorem First.unique (h : First acts i id p) (h' : First acts j other p') : id = other := by
  have same : i = j := by
    have := h.ahead j other p' h'.toTicket
    have := h'.ahead i id p h.toTicket
    omega
  subst j
  have enqueued := h'.enqueued
  rw [h.enqueued] at enqueued
  cases enqueued
  rfl

theorem Due.unique {turn turn' : Option Nat} (h : Due acts turn) (h' : Due acts turn') : turn = turn' := by
  cases turn with
  | none =>
    cases turn' with
    | none => rfl
    | some id' =>
      obtain ⟨i, p, first⟩ := h'
      exact absurd first.toPending (h i id' p)
  | some id =>
    obtain ⟨i, p, first⟩ := h
    cases turn' with
    | none => exact absurd first.toPending (h' i id p)
    | some id' =>
      obtain ⟨j, p', first'⟩ := h'
      rw [first.unique first']

theorem getElem?_concat_eq_some {b : Act} :
    (acts ++ [a])[i]? = some b ↔ acts[i]? = some b ∨ i = acts.length ∧ a = b := by
  rcases Nat.lt_trichotomy i acts.length with lt | rfl | gt
  · rw [List.getElem?_append_left lt]
    exact (or_iff_left fun h => Nat.ne_of_lt lt h.1).symm
  · simp
  · have le := Nat.le_of_lt gt
    refine iff_of_false (fun h => ?_) ?_
    · have := (List.getElem?_eq_some_iff.mp h).1
      rw [List.length_append, List.length_singleton] at this
      omega
    · rintro (h | ⟨rfl, -⟩)
      · exact absurd (List.getElem?_eq_some_iff.mp h).1 (Nat.not_lt.mpr le)
      · exact absurd gt (Nat.lt_irrefl _)

/-- What is pending after one more act was pending and is not freed, or is this act. -/
theorem pending_concat : Pending (acts ++ [a]) i id p ↔
    Pending acts i id p ∧ ¬a.Frees id ∨ i = acts.length ∧ a = .enqueued id p := by
  constructor
  · rintro ⟨enqueued, since⟩
    rcases getElem?_concat_eq_some.mp enqueued with old | ⟨rfl, rfl⟩
    · have lt := (List.getElem?_eq_some_iff.mp old).1
      have kept := since acts.length a lt (getElem?_concat_eq_some.mpr (.inr ⟨rfl, rfl⟩))
      exact .inl ⟨⟨old, fun j b hj hb => since j b hj (getElem?_concat_eq_some.mpr (.inl hb))⟩, kept⟩
    · exact .inr ⟨rfl, rfl⟩
  · rintro (⟨⟨enqueued, since⟩, kept⟩ | ⟨rfl, rfl⟩)
    · refine ⟨getElem?_concat_eq_some.mpr (.inl enqueued), fun j b hj hb => ?_⟩
      rcases getElem?_concat_eq_some.mp hb with old | ⟨-, rfl⟩
      · exact since j b hj old
      · exact kept
    · refine ⟨getElem?_concat_eq_some.mpr (.inr ⟨rfl, rfl⟩), fun j b hj hb => ?_⟩
      rcases getElem?_concat_eq_some.mp hb with old | ⟨rfl, -⟩
      · exact absurd (List.getElem?_eq_some_iff.mp old).1 (Nat.not_lt.mpr (Nat.le_of_lt hj))
      · exact absurd hj (Nat.lt_irrefl _)

/-- A ticket after one more act was a ticket and is not freed, or is this act, if nothing else was pending. -/
theorem ticket_concat : Ticket (acts ++ [a]) i id p ↔
    Ticket acts i id p ∧ ¬a.Frees id ∨
      i = acts.length ∧ a = .enqueued id p ∧ ∀ j p', ¬Pending acts j id p' := by
  constructor
  · rintro ⟨pending, least⟩
    rcases pending_concat.mp pending with ⟨old, kept⟩ | ⟨rfl, rfl⟩
    · exact .inl ⟨⟨old, fun j p' hj => least j p' (pending_concat.mpr (.inl ⟨hj, kept⟩))⟩, kept⟩
    · refine .inr ⟨rfl, rfl, fun j p' hj => ?_⟩
      have le := least j p' (pending_concat.mpr (.inl ⟨hj, Act.not_frees_enqueued⟩))
      exact absurd hj.lt (Nat.not_lt.mpr le)
  · rintro (⟨ticket, kept⟩ | ⟨rfl, rfl, new⟩)
    · refine ⟨pending_concat.mpr (.inl ⟨ticket.toPending, kept⟩), fun j p' hj => ?_⟩
      rcases pending_concat.mp hj with ⟨old, -⟩ | ⟨rfl, -⟩
      · exact ticket.least j p' old
      · exact Nat.le_of_lt ticket.lt
    · refine ⟨pending_concat.mpr (.inr ⟨rfl, rfl⟩), fun j p' hj => ?_⟩
      rcases pending_concat.mp hj with ⟨old, -⟩ | ⟨rfl, -⟩
      · exact absurd old (new j p')
      · exact Nat.le_refl _

/-! ## The line -/

/-- A place in the line: by which act it was taken, by whom, and how urgent it is. -/
structure Place where
  number : Nat
  holder : Nat
  priority : Priority
  deriving Repr, DecidableEq

/-- What the `n`-th act makes of the line. -/
def Act.rearrange (n : Nat) (line : List Place) : Act → List Place
  | .enqueued id priority =>
    if ∃ place ∈ line, place.holder = id then line else line ++ [⟨n, id, priority⟩]
  | .popped turn => line.filter fun place => some place.holder ≠ turn
  | .cleared => []

/-- Those who wait in the order in which they came, whatever their priority. -/
def line (acts : List Act) : List Place :=
  acts.zipIdx.foldl (fun line (act, n) => act.rearrange n line) []

theorem line_concat (acts : List Act) (a : Act) :
    line (acts ++ [a]) = a.rearrange acts.length (line acts) := by
  simp [line, List.zipIdx_append]

/-- If the places are the tickets, those for whom something is pending have one. -/
theorem exists_place_iff {l : List Place}
    (tickets : ∀ {place}, place ∈ l ↔ Ticket acts place.number place.holder place.priority) :
    (∃ place ∈ l, place.holder = id) ↔ ∃ i p, Pending acts i id p := by
  constructor
  · rintro ⟨place, hplace, rfl⟩
    exact ⟨_, _, (tickets.mp hplace).toPending⟩
  · rintro ⟨i, p, pending⟩
    obtain ⟨j, p', ticket⟩ := pending.exists_ticket
    exact ⟨⟨j, id, p'⟩, tickets.mpr ticket, rfl⟩

/-- **The places in the line are the tickets.** -/
theorem mem_line {place : Place} :
    place ∈ line acts ↔ Ticket acts place.number place.holder place.priority := by
  induction acts using List.reverseRecOn generalizing place with
  | nil => exact iff_of_false List.not_mem_nil fun ticket => absurd ticket.lt (Nat.not_lt_zero _)
  | append_singleton acts a ih =>
    rw [line_concat, ticket_concat, ← ih]
    cases a with
    | enqueued id p =>
      have kept : ¬(Act.enqueued id p).Frees place.holder := Act.not_frees_enqueued
      rw [and_iff_left kept]
      simp only [Act.rearrange]
      by_cases known : ∃ place ∈ line acts, place.holder = id
      · rw [if_pos known]
        refine ⟨.inl, fun h => h.resolve_right ?_⟩
        rintro ⟨-, entered, new⟩
        cases entered
        obtain ⟨j, p', pending⟩ := (exists_place_iff ih).mp known
        exact new j p' pending
      · rw [if_neg known, List.mem_append, List.mem_singleton]
        refine or_congr_right ⟨?_, ?_⟩
        · rintro rfl
          exact ⟨rfl, rfl, fun j p' pending => known ((exists_place_iff ih).mpr ⟨j, p', pending⟩)⟩
        · rintro ⟨number, entered, -⟩
          cases place
          cases number
          cases entered
          rfl
    | popped turn =>
      simp only [Act.rearrange, Act.Frees, List.mem_filter]
      refine ⟨fun ⟨stands, left⟩ => .inl ⟨stands, ?_⟩, ?_⟩
      · rintro rfl
        simp at left
      · rintro (⟨stands, stays⟩ | ⟨-, entered, -⟩)
        · exact ⟨stands, decide_eq_true (Ne.symm stays)⟩
        · cases entered
    | cleared =>
      refine iff_of_false List.not_mem_nil ?_
      rintro (⟨-, stays⟩ | ⟨-, entered, -⟩)
      · exact stays trivial
      · cases entered

/-- Places are taken one after the other. -/
theorem pairwise_line (acts : List Act) : (line acts).Pairwise fun t u => t.number < u.number := by
  induction acts using List.reverseRecOn with
  | nil => exact .nil
  | append_singleton acts a ih =>
    rw [line_concat]
    cases a with
    | enqueued id p =>
      simp only [Act.rearrange]
      split
      · exact ih
      · refine List.pairwise_append.mpr ⟨ih, List.pairwise_singleton _ _, fun t ht u hu => ?_⟩
        rw [List.mem_singleton.mp hu]
        exact (mem_line.mp ht).lt
    | popped turn => exact ih.filter _
    | cleared => exact .nil

/-! ## The lanes -/

variable {q q' : Queue} {l : List Place} {n k : Nat}

/-- The lanes hold the line, each lane those of its priority. -/
def Serves (q : Queue) (l : List Place) : Prop :=
  ∀ k < Priority.numLanes, q.lanes[k]? = some ((l.filter (·.priority.lane = k)).map Place.holder)

theorem serves_empty : ({} : Queue).Serves [] := fun _ hk => List.getElem?_replicate_of_lt hk

/-- Those wait who have a place in the line. -/
theorem Serves.mem_waits (h : q.Serves l) (hq : q.Valid n) : id ∈ q.waits ↔ ∃ place ∈ l, place.holder = id := by
  unfold waits
  rw [List.mem_flatten]
  constructor
  · rintro ⟨lane, hlane, hid⟩
    obtain ⟨k, hk⟩ := List.getElem?_of_mem hlane
    have lt : k < Priority.numLanes := hq.lanes ▸ (List.getElem?_eq_some_iff.mp hk).1
    obtain rfl := Option.some.inj (hk.symm.trans (h k lt))
    obtain ⟨place, hplace, rfl⟩ := List.mem_map.mp hid
    exact ⟨place, List.mem_of_mem_filter hplace, rfl⟩
  · rintro ⟨place, hplace, rfl⟩
    refine ⟨_, List.mem_of_getElem? (h place.priority.lane (Priority.lane_lt _)), ?_⟩
    exact List.mem_map_of_mem (List.mem_filter.mpr ⟨hplace, by simp⟩)

theorem Serves.enqueue (h : q.Serves l) (hq : q.Valid n) (m : Nat) :
    (q.enqueue id p.lane).Serves ((Act.enqueued id p).rearrange m l) := by
  have waiting : q.isWaiting id = true ↔ ∃ place ∈ l, place.holder = id :=
    (hq.mem_iff id).symm.trans (h.mem_waits hq)
  unfold Queue.enqueue
  simp only [Act.rearrange]
  by_cases known : q.isWaiting id = true
  · rw [if_pos known, if_pos (waiting.mp known)]
    exact h
  · rw [if_neg known, if_neg fun place => known (waiting.mpr place)]
    intro k hk
    show (q.lanes.modify p.lane (· ++ [id]))[k]? = _
    rw [List.filter_append, List.map_append]
    by_cases here : p.lane = k
    · subst k
      rw [List.getElem?_modify_eq, h _ hk]
      simp
    · rw [List.getElem?_modify_ne _ _ here, h _ hk]
      simp [here]

/-- Who has its turn leaves its lane and the line, and nobody else does. -/
theorem Serves.pop (h : q.Serves l) (hq : q.Valid n) (turn : q.pop = some (id, q')) (m : Nat) :
    q'.Serves ((Act.popped (some id)).rearrange m l) := by
  have waits := hq.waits_of_pop turn
  have nodup := hq.nodup
  rw [waits, List.nodup_cons] at nodup
  obtain ⟨first, rest, -, head, rfl⟩ := eq_of_pop turn
  intro k hk
  show (q.lanes.set first rest)[k]? = _
  have gone : ∀ lane, (q.lanes.set first rest)[k]? = some lane → lane.filter (· ≠ id) = lane := by
    intro lane hlane
    refine List.filter_eq_self.mpr fun other hother => decide_eq_true fun same => nodup.1 ?_
    exact List.mem_flatten.mpr ⟨lane, List.mem_of_getElem? hlane, same ▸ hother⟩
  have left : ((l.filter fun place => some place.holder ≠ some id).filter (·.priority.lane = k)).map Place.holder =
      ((l.filter (·.priority.lane = k)).map Place.holder).filter (· ≠ id) := by
    rw [List.filter_map, List.filter_comm]
    simp [Function.comp_def]
  simp only [Act.rearrange]
  rw [left]
  have held := h k hk
  by_cases here : first = k
  · subst k
    have lt := (List.getElem?_eq_some_iff.mp head).1
    rw [List.getElem?_set_self lt] at gone ⊢
    rw [← Option.some.inj (head.symm.trans held), List.filter_cons_of_neg (by simp), gone rest rfl]
  · rw [List.getElem?_set_ne here] at gone ⊢
    rw [gone _ held]
    exact held

theorem Serves.clear (hq : q.Valid n) (m : Nat) : q.clear.Serves (Act.cleared.rearrange m l) := by
  intro k hk
  show (q.lanes.map fun _ => [])[k]? = _
  rw [List.getElem?_map, List.getElem?_eq_getElem (hq.lanes.symm ▸ hk)]
  rfl

/-- **Who has its turn has the first place of the first priority.** -/
theorem Serves.front (h : q.Serves l) (hq : q.Valid n) (ordered : l.Pairwise fun t u => t.number < u.number)
    (turn : q.pop = some (id, q')) : ∃ place ∈ l, place.holder = id ∧ ∀ other ∈ l,
      place.priority.lane < other.priority.lane ∨
        place.priority.lane = other.priority.lane ∧ place.number ≤ other.number := by
  obtain ⟨first, rest, top, head, -⟩ := eq_of_pop turn
  obtain ⟨-, before⟩ := hq.occupied.top?_eq_some_iff.mp top
  have lt : first < Priority.numLanes := hq.lanes ▸ (List.getElem?_eq_some_iff.mp head).1
  have held := Option.some.inj (head.symm.trans (h first lt))
  obtain ⟨place, places, split, rfl, -⟩ := List.map_eq_cons_iff.mp held.symm
  have mem : place ∈ l.filter (·.priority.lane = first) := split ▸ List.mem_cons_self
  obtain ⟨hplace, lane⟩ := List.mem_filter.mp mem
  have lane : place.priority.lane = first := of_decide_eq_true lane
  refine ⟨place, hplace, rfl, fun other hother => ?_⟩
  rw [lane]
  rcases Nat.lt_trichotomy first other.priority.lane with later | same | earlier
  · exact .inl later
  · have among : other ∈ place :: places := split ▸ List.mem_filter.mpr ⟨hother, decide_eq_true same.symm⟩
    have sorted := ordered.filter (·.priority.lane = first)
    rw [split, List.pairwise_cons] at sorted
    rcases List.mem_cons.mp among with rfl | among
    · exact .inr ⟨same, Nat.le_refl _⟩
    · exact .inr ⟨same, Nat.le_of_lt (sorted.1 other among)⟩
  · -- a lane before the first one that is not empty has nobody
    have nobody := before _ earlier _ (h _ (Priority.lane_lt _))
    have : other ∈ l.filter (·.priority.lane = other.priority.lane) := List.mem_filter.mpr ⟨hother, by simp⟩
    rw [List.map_eq_nil_iff.mp nobody] at this
    cases this

/-- Those wait for whom something is pending. -/
theorem Serves.isWaiting_iff (h : q.Serves (line acts)) (hq : q.Valid n) :
    q.isWaiting id = true ↔ ∃ i p, Pending acts i id p := by
  rw [← hq.mem_iff, h.mem_waits hq]
  exact exists_place_iff mem_line

/-- **Whose turn it is can be read off the acts.** -/
theorem Serves.due (h : q.Serves (line acts)) (hq : q.Valid n) : Due acts (q.pop.map Prod.fst) := by
  cases turn : q.pop with
  | none =>
    intro i id p pending
    have waits := (hq.mem_iff id).mpr ((h.isWaiting_iff hq).mpr ⟨i, p, pending⟩)
    rw [hq.pop_eq_none_iff.mp turn] at waits
    cases waits
  | some next =>
    obtain ⟨id, q'⟩ := next
    obtain ⟨place, hplace, rfl, ahead⟩ := h.front hq (pairwise_line acts) turn
    refine ⟨place.number, place.priority, mem_line.mp hplace, fun j other p' ticket => ?_⟩
    exact ahead ⟨j, other, p'⟩ (mem_line.mpr ticket)

/-! ## All along -/

/-- The queue is valid and its lanes hold the line, and whoever was popped had its turn. -/
structure Record.Sound (r : Record) : Prop where
  valid : ∃ n, r.queue.Valid n
  serves : r.queue.Serves (line r.acts)
  popped : ∀ k turn, r.acts[k]? = some (.popped turn) → Due (r.acts.take k) turn

namespace Record
variable {r : Record}

theorem sound_new : ({} : Record).Sound :=
  ⟨⟨0, valid_empty⟩, serves_empty, fun k turn h => by simp at h⟩

/-- What has to be shown of one more act. -/
theorem Sound.acted (h : r.Sound) (valid : ∃ n, q'.Valid n)
    (serves : q'.Serves (a.rearrange r.acts.length (line r.acts)))
    (due : ∀ turn, a = .popped turn → Due r.acts turn) : Sound ⟨r.acts ++ [a], q'⟩ where
  valid := valid
  serves := by
    rw [line_concat]
    exact serves
  popped k turn hk := by
    rcases getElem?_concat_eq_some.mp hk with old | ⟨rfl, acted⟩
    · have lt := (List.getElem?_eq_some_iff.mp old).1
      rw [List.take_append_of_le_length (Nat.le_of_lt lt)]
      exact h.popped k turn old
    · rw [List.take_left]
      exact due turn acted

/-- **One request keeps a record sound.** -/
theorem Sound.serve (h : r.Sound) (request : Request) : (r.serve request).Sound := by
  obtain ⟨n, valid⟩ := h.valid
  cases request with
  | enqueue id p =>
    have known : id < max n (id + 1) := by omega
    have valid' := (valid.mono (Nat.le_max_left n (id + 1))).enqueue (Priority.lane_lt p) known
    exact h.acted ⟨_, valid'⟩ (h.serves.enqueue valid _) fun turn acted => by cases acted
  | pop =>
    have due := h.serves.due valid
    unfold Record.serve
    cases turn : r.queue.pop with
    | none =>
      rw [turn] at due
      refine h.acted h.valid ?_ fun turn' acted => ?_
      · simp only [Act.rearrange]
        rw [List.filter_eq_self.mpr (by simp)]
        exact h.serves
      · cases acted
        exact due
    | some next =>
      rw [turn] at due
      refine h.acted ⟨n, (valid.pop turn).1⟩ (h.serves.pop valid turn _) fun turn' acted => ?_
      cases acted
      exact due
  | clear => exact h.acted ⟨n, valid.clear⟩ (.clear valid _) fun turn acted => by cases acted

theorem sound_foldl (h : r.Sound) (requests : List Request) : (requests.foldl serve r).Sound := by
  induction requests generalizing r with
  | nil => exact h
  | cons request requests ih => exact ih (h.serve request)

/-- What was done is what was asked for. -/
theorem request_acts_foldl (r : Record) (requests : List Request) :
    (requests.foldl serve r).acts.map Act.request = r.acts.map Act.request ++ requests := by
  induction requests generalizing r with
  | nil => simp
  | cons request requests ih =>
    have served : (r.serve request).acts.map Act.request = r.acts.map Act.request ++ [request] := by
      cases request with
      | enqueue | clear => simp [serve, Act.request]
      | pop =>
        unfold serve
        cases r.queue.pop <;> simp [Act.request]
    rw [List.foldl_cons, ih, served, List.append_assoc, List.singleton_append]

end Record

/-! ## The order of service -/

/-- What a queue answers after some acts, and has answered so far. -/
structure Fair (acts : List Act) (q : Queue) : Prop where
  /-- Those wait who were enqueued and neither popped nor cleared since. -/
  isWaiting_iff : ∀ id, q.isWaiting id = true ↔ ∃ i p, Pending acts i id p
  isEmpty_iff : q.isEmpty = true ↔ ∀ i id p, ¬Pending acts i id p
  pop_eq_none_iff : q.pop = none ↔ q.isEmpty = true
  /-- Of those, the next is the first of the first priority, by the first time that it was enqueued. -/
  due : ∀ turn, q.pop.map Prod.fst = turn ↔ Due acts turn
  /-- So it was whenever the queue was asked. -/
  popped : ∀ k turn, acts[k]? = some (.popped turn) → Due (acts.take k) turn
  /-- Nobody has its turn again unless it was enqueued again. -/
  once : ∀ i j id : Nat, i < j → acts[i]? = some (.popped (some id)) → acts[j]? = some (.popped (some id)) →
    ∃ k p, i < k ∧ k < j ∧ acts[k]? = some (.enqueued id p)
  /-- There is a lane for every priority. -/
  enqueue?_eq : ∀ id p, q.enqueue? id (Priority.lane p) = .ok (q.enqueue id p.lane)
  /-- The lane on top of the heap has a head, who is in the table and counted. -/
  head : ∀ first, q.occupied.top? = some first →
    ∃ id rest, q.lanes[first]? = some (id :: rest) ∧ q.waiting.get? id = some true ∧ 0 < q.count

/-- **A queue serves by priority, and within a priority who came first**, whatever is done to it. -/
theorem served_in_order (requests : List Request) :
    (Record.after requests).acts.map Act.request = requests ∧
      Fair (Record.after requests).acts (Record.after requests).queue := by
  have sound : (Record.after requests).Sound := Record.sound_foldl Record.sound_new requests
  refine ⟨Record.request_acts_foldl {} requests, ?_⟩
  generalize Record.after requests = r at sound
  obtain ⟨⟨n, valid⟩, serves, popped⟩ := sound
  have due := serves.due valid
  have pop_eq_none_iff : r.queue.pop = none ↔ r.queue.isEmpty = true :=
    valid.pop_eq_none_iff.trans valid.isEmpty_iff.symm
  refine ⟨fun id => serves.isWaiting_iff valid, ?_, pop_eq_none_iff, fun turn => ⟨?_, due.unique⟩, popped, ?_,
    ?_, fun first => valid.head⟩
  · rw [← pop_eq_none_iff]
    constructor
    · intro nobody
      rw [nobody] at due
      exact due
    · intro nothing
      have nobody : Due r.acts none := nothing
      exact Option.map_eq_none_iff.mp (due.unique nobody)
  · rintro rfl
    exact due
  · intro i j id before first again
    obtain ⟨k, p, ticket⟩ := popped j (some id) again
    have earlier : k < j := by
      have := ticket.lt
      rw [List.length_take] at this
      omega
    have enqueued := ticket.enqueued
    rw [List.getElem?_take_of_lt earlier] at enqueued
    refine ⟨k, p, ?_, earlier, enqueued⟩
    rcases Nat.lt_trichotomy i k with later | rfl | sooner
    · exact later
    · rw [first] at enqueued
      cases enqueued
    · -- the ticket would have been given up when it was the turn of its holder
      have taken := (List.getElem?_take_of_lt before).trans first
      exact absurd rfl (ticket.since i _ sooner taken)
  · intro id p
    unfold enqueue?
    rw [valid.lanes, decide_eq_true (Priority.lane_lt p), Bool.or_true, if_pos rfl]

example : (Record.after [.enqueue 3 .low, .enqueue 1 .veryLow, .enqueue 2 .low, .enqueue 1 .high, .enqueue 0 .high,
      .pop, .pop, .pop, .pop, .pop]).acts.drop 5 =
    [.popped (some 0), .popped (some 3), .popped (some 2), .popped (some 1), .popped none] := by
  decide

end Queue
end BranchBound
