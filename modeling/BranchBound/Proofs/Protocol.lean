import BranchBound.Proofs.Incumbent
import BranchBound.Proofs.Protocol.Steps

/-! # Interleavings make no difference

What a portfolio comes to in a number of rounds can be said without any interleaving (`Protocol.after`): in
each round every worker searches below the bound of the incumbent, and the solutions of all are merged in
the order of the workers.  Whatever the interleaving, its parties are at a *stage* on the way from one
round to the next (`Protocol.Stage`): between two rounds, in a round, or beyond.  Coming to the barrier leads
from one stage to the next only when all have come, and every other step stays within the stage.

So **the protocol has no races and never gets stuck** (`protocol_race_free`): every worker searches each
round below the bound of the rounds before, each report is taken once and before the next is left, somebody
can always go on, nobody searches after the verdict, and what is reported does not depend on the
interleaving. -/
namespace BranchBound
namespace Protocol
variable {numWorkers : Nat} {ω α : Type}

/-! ## Rounds without interleaving -/

/-- What the workers are and what they came to, between two rounds. -/
structure Pause (numWorkers : Nat) (ω α : Type) where
  states : Fin numWorkers → ω
  incumbent : Incumbent α := {}
  /-- All incumbents so far. -/
  improvements : List (Reported α) := []
  statistics : Fin numWorkers → Statistics := fun _ => {}

section
variable (P : Protocol numWorkers ω α)

/-- What comes after a round of all workers. -/
def following (p : Pause numWorkers ω α) : Pause numWorkers ω α :=
  let results i := P.search (p.states i) p.incumbent.bound
  let (improvements, incumbent) :=
    p.incumbent.merge ((List.finRange numWorkers).flatMap fun i => (results i).1.solutions)
  { states := fun i => (results i).2
    incumbent
    improvements := p.improvements ++ improvements
    statistics := fun i => (results i).1.statistics }

/-- What comes after so many rounds. -/
def after : Nat → Pause numWorkers ω α
  | 0 => { states := P.start }
  | k + 1 => P.following (after k)

/-- The bound of a round. -/
def bound (k : Nat) : Option Int := (P.after k).incumbent.bound

/-- What a worker reports of a round. -/
def report (k : Nat) (i : Fin numWorkers) : Report α := (P.search ((P.after k).states i) (P.bound k)).1

/-- What the workers have come to in a round. -/
def verdict? (k : Nat) : Option Verdict :=
  Portfolio.verdict? (P.limits (k + 1)) ((List.finRange numWorkers).map fun i => (P.report k i).status)

/-- There is a verdict after so many rounds, and none before. -/
structure Ends (k : Nat) (verdict : Verdict) : Prop where
  last : ∃ j, k = j + 1 ∧ P.verdict? j = some verdict
  before : ∀ j, j + 1 < k → P.verdict? j = none

/-- What the coordinator tells the workers for a round. -/
def controlOf (k : Nat) : Control := { bound := P.bound k }

/-- The solutions that some workers report of a round. -/
def solutionsOf (k : Nat) (workers : List (Fin numWorkers)) : List (Reported α) :=
  workers.flatMap fun i => (P.report k i).solutions

/-- The solutions that are reported in so many rounds, in the order of the rounds and of the workers. -/
def solutionsBefore (k : Nat) : List (Reported α) :=
  (List.range k).flatMap fun j => P.solutionsOf j (List.finRange numWorkers)

/-- What happens to the reports of a worker in so many rounds: each is left and taken, in turn. -/
def history (i : Fin numWorkers) (k : Nat) : List (Event numWorkers α) :=
  (List.range k).flatMap fun j => [.wrote i (P.report j i), .took i (P.report j i)]

end

/-! ## What is seen of a system -/

namespace Event

def read? (i : Fin numWorkers) : Event numWorkers α → Option Control
  | .read j control => if j = i then some control else none
  | _ => none

def searched? (i : Fin numWorkers) : Event numWorkers α → Option (Option Int)
  | .searched j bound => if j = i then some bound else none
  | _ => none

/-- Whether it happens where a worker leaves its reports. -/
def atSlot (i : Fin numWorkers) : Event numWorkers α → Bool
  | .wrote j _ | .took j _ => j = i
  | _ => false

def published? : Event numWorkers α → Option (Option Int)
  | .published bound => some bound
  | _ => none

def merged? : Event numWorkers α → Option (Reported α)
  | .merged solution _ => some solution
  | _ => none

def improved? : Event numWorkers α → Option (Reported α)
  | .merged solution true => some solution
  | _ => none

end Event

namespace System
variable (s : System numWorkers ω α) (i : Fin numWorkers)

/-- What a worker has read. -/
def reads : List Control := s.log.filterMap (Event.read? i)

/-- The bounds below which a worker has searched. -/
def searches : List (Option Int) := s.log.filterMap (Event.searched? i)

/-- What has happened to the reports of a worker. -/
def slotLog : List (Event numWorkers α) := s.log.filter (Event.atSlot i)

/-- The bounds that the coordinator has told. -/
def published : List (Option Int) := s.log.filterMap Event.published?

/-- The solutions that were merged into the incumbent. -/
def merged : List (Reported α) := s.log.filterMap Event.merged?

/-- The incumbents that were reported. -/
def improvements : List (Reported α) := s.log.filterMap Event.improved?

end System

/-- What is seen of a worker. -/
structure View (numWorkers : Nat) (ω α : Type) where
  place : Worker.Place α
  state : ω
  reads : List Control
  searches : List (Option Int)
  slot : Report α
  slotLog : List (Event numWorkers α)

/-- What is seen of the coordinator. -/
structure Desk (numWorkers : Nat) (α : Type) where
  place : Portfolio.Place numWorkers α
  control : Control
  incumbent : Incumbent α
  statistics : Fin numWorkers → Statistics
  numRounds : Nat
  published : List (Option Int)
  merged : List (Reported α)
  improvements : List (Reported α)

namespace System
variable (s : System numWorkers ω α)

/-- A worker that was released is seen where it goes on. -/
def view (i : Fin numWorkers) : View numWorkers ω α where
  place := s.barrier.seen (some i) (s.workers i) (s.workers i).next?
  state := s.states i
  reads := s.reads i
  searches := s.searches i
  slot := s.slots i
  slotLog := s.slotLog i

/-- So is the coordinator. -/
def desk : Desk numWorkers α where
  place := s.barrier.seen none s.coordinator s.coordinator.next?
  control := s.control
  incumbent := s.incumbent
  statistics := s.statistics
  numRounds := s.numRounds
  published := s.published
  merged := s.merged
  improvements := s.improvements

end System

/-! ## Stages -/

section
variable (P : Protocol numWorkers ω α)

/-- How often a worker has read and searched. -/
structure Worked (read searched : Nat) (i : Fin numWorkers) (v : View numWorkers ω α) : Prop where
  state : v.state = (P.after searched).states i
  reads : v.reads = (List.range read).map P.controlOf
  searches : v.searches = (List.range searched).map P.bound

/-- A worker has left its report of a round, and nobody has taken it. -/
structure Left (k : Nat) (i : Fin numWorkers) (v : View numWorkers ω α) : Prop where
  slot : v.slot = P.report k i
  slotLog : v.slotLog = P.history i k ++ [.wrote i (P.report k i)]

/-- A worker in a round. -/
def Working (k : Nat) (i : Fin numWorkers) (v : View numWorkers ω α) : Prop :=
  match v.place with
  | .reading => P.Worked k k i v ∧ v.slotLog = P.history i k
  | .searching bound => bound = P.bound k ∧ P.Worked (k + 1) k i v ∧ v.slotLog = P.history i k
  | .reporting report => report = P.report k i ∧ P.Worked (k + 1) (k + 1) i v ∧ v.slotLog = P.history i k
  | .reported => P.Worked (k + 1) (k + 1) i v ∧ P.Left k i v
  | _ => False

/-- A worker after the last round. -/
def Leaving (k : Nat) (i : Fin numWorkers) (v : View numWorkers ω α) : Prop :=
  match v.place with
  | .reading => P.Worked k k i v
  | .stopped => v.searches = (List.range k).map P.bound ∧
    ∃ control, control.finished = true ∧ v.reads = (List.range k).map P.controlOf ++ [control]
  | _ => False

/-- The coordinator has merged so many rounds, and there is no verdict. -/
structure Ready (k : Nat) (d : Desk numWorkers α) : Prop where
  incumbent : d.incumbent = (P.after k).incumbent
  merged : d.merged = P.solutionsBefore k
  improvements : d.improvements = (P.after k).improvements
  statistics : d.statistics = (P.after k).statistics
  numRounds : d.numRounds = k
  going : ∀ j, j < k → P.verdict? j = none
  unfinished : d.control.finished = false

/-- The coordinator merges a round: some solutions are left, and the reports of some workers. -/
structure Merging (k : Nat) (solutions : List (Reported α)) (left : List (Fin numWorkers))
    (statuses : List Status) (d : Desk numWorkers α) : Prop where
  incumbent : (d.incumbent.merge solutions).2 = (P.after (k + 1)).incumbent
  merged : d.merged ++ solutions = P.solutionsBefore (k + 1)
  improvements : d.improvements ++ (d.incumbent.merge solutions).1 = (P.after (k + 1)).improvements
  statuses_eq : statuses ++ left.map (fun i => (P.report k i).status) =
    (List.finRange numWorkers).map fun i => (P.report k i).status
  statistics : ∀ i, i ∉ left → d.statistics i = (P.report k i).statistics
  nodup : left.Nodup
  going : ∀ j, j < k → P.verdict? j = none
  unfinished : d.control.finished = false
  published : d.published = (List.range (k + 1)).map P.bound

/-- The coordinator has come to a verdict. -/
structure Settled (k : Nat) (verdict : Verdict) (d : Desk numWorkers α) : Prop where
  ends : P.Ends k verdict
  merged : d.merged = P.solutionsBefore k
  improvements : d.improvements = (P.after k).improvements
  statistics : d.statistics = (P.after k).statistics
  published : d.published = (List.range k).map P.bound

/-- The reports of a round have been taken, except for those that are left. -/
structure Taken (k : Nat) (left : List (Fin numWorkers)) (views : Fin numWorkers → View numWorkers ω α) :
    Prop where
  present : ∀ i, i ∈ left → P.Left k i (views i)
  gone : ∀ i, i ∉ left → (views i).slotLog = P.history i (k + 1)

/-- All reports of so many rounds have been taken. -/
def Emptied (k : Nat) (views : Fin numWorkers → View numWorkers ω α) : Prop :=
  ∀ i, (views i).slotLog = P.history i k

/-- The coordinator between two rounds. -/
def Attending (k : Nat) (d : Desk numWorkers α) (views : Fin numWorkers → View numWorkers ω α) : Prop :=
  match d.place with
  | .asking => P.Ready k d ∧ d.published = (List.range k).map P.bound ∧ P.Emptied k views
  | .publishing bound => bound = P.bound k ∧ P.Ready k d ∧
    d.published = (List.range k).map P.bound ∧ P.Emptied k views
  | .published => d.control.bound = P.bound k ∧ P.Ready k d ∧
    d.published = (List.range (k + 1)).map P.bound ∧ P.Emptied k views
  | .counting => ∃ j, k = j + 1 ∧ d.numRounds = j ∧
    P.Merging j (P.solutionsOf j (List.finRange numWorkers)) (List.finRange numWorkers) [] d ∧
    P.Taken j (List.finRange numWorkers) views
  | .collecting left statuses => ∃ j, k = j + 1 ∧ d.numRounds = k ∧
    P.Merging j (P.solutionsOf j left) left statuses d ∧ P.Taken j left views
  | .merging i report rest left statuses => ∃ j, k = j + 1 ∧ d.numRounds = k ∧ report = P.report j i ∧
    P.Merging j (rest ++ P.solutionsOf j left) (i :: left) statuses d ∧ P.Taken j left views
  | .finishing verdict => P.Settled k verdict d ∧ P.Emptied k views
  | .finished verdict => d.control.finished = true ∧ P.Settled k verdict d ∧ P.Emptied k views
  | _ => False

/-- Where all parties are together. -/
inductive Stage (d : Desk numWorkers α) (views : Fin numWorkers → View numWorkers ω α) : Prop
  | between (k : Nat) (coordinator : P.Attending k d views)
    (workers : ∀ i, (views i).place = .starting ∧ P.Worked k k i (views i))
  | within (k : Nat) (place : d.place = .idle) (ready : P.Ready k d) (control : d.control = P.controlOf k)
    (published : d.published = (List.range (k + 1)).map P.bound) (workers : ∀ i, P.Working k i (views i))
  | beyond (k : Nat) {verdict : Verdict} (place : d.place = .done verdict) (control : d.control.finished = true)
    (settled : P.Settled k verdict d) (emptied : P.Emptied k views) (workers : ∀ i, P.Leaving k i (views i))

/-- The invariant of all interleavings. -/
structure Inv (s : System numWorkers ω α) : Prop where
  barrier : s.barrier.Sound
  workers : ∀ i, s.barrier.inside (some i) ≠ none → (s.workers i).next? ≠ none
  coordinator : s.barrier.inside none ≠ none → s.coordinator.next? ≠ none
  stage : P.Stage s.desk s.view

end

/-! ## Coming to the barrier -/

/-- A worker goes on where it waits. -/
def View.goOn (v : View numWorkers ω α) : View numWorkers ω α :=
  { v with place := v.place.next?.getD v.place }

/-- The coordinator goes on where it waits. -/
def Desk.goOn (d : Desk numWorkers α) : Desk numWorkers α := { d with place := d.place.next?.getD d.place }

namespace System
variable {s : System numWorkers ω α} {p : Party numWorkers}

theorem place_of_outside {i : Fin numWorkers} (h : ¬ s.barrier.Released (some i)) :
    (s.view i).place = s.workers i := Barrier.seen_of_free h

theorem desk_place_of_outside (h : ¬ s.barrier.Released none) : s.desk.place = s.coordinator :=
  Barrier.seen_of_free h

/-- Nobody goes anywhere else when a party begins to wait. -/
theorem seen_entered (outside : s.barrier.inside p = none) :
    (s.withBarrier (s.barrier.entered p)).view = s.view ∧
      (s.withBarrier (s.barrier.entered p)).desk = s.desk := by
  constructor
  · funext i
    unfold view withBarrier Barrier.seen
    simp only [Barrier.released_entered_iff outside]
    rfl
  · unfold desk withBarrier Barrier.seen
    simp only [Barrier.released_entered_iff outside]
    rfl

/-- A party that goes on late was seen there before. -/
theorem seen_left (released : s.barrier.Released p) :
    (goOn p (s.withBarrier (s.barrier.left p))).view = s.view ∧
      (goOn p (s.withBarrier (s.barrier.left p))).desk = s.desk := by
  cases p with
  | none =>
    refine ⟨funext fun j => ?_, ?_⟩
    · simp [withBarrier, view, Barrier.seen, goOn, Barrier.released_left_iff, reads, searches, slotLog]
    · simp [withBarrier, desk, Barrier.seen, goOn, Barrier.released_left_iff, released, published, merged,
        improvements]
  | some i =>
    refine ⟨funext fun j => ?_, ?_⟩
    · by_cases same : j = i
      · subst same
        simp [withBarrier, view, Barrier.seen, goOn, move, Barrier.released_left_iff, released, reads,
          searches, slotLog]
      · simp [withBarrier, view, Barrier.seen, goOn, move, Barrier.released_left_iff, same, reads,
          searches, slotLog]
    · simp [withBarrier, desk, Barrier.seen, goOn, move, Barrier.released_left_iff, published, merged,
        improvements]

/-- All go on together when the last party comes. -/
theorem seen_turned (outside : s.barrier.inside p = none) (others : ∀ q, q ≠ p → s.barrier.Waits q) :
    (∀ i, (goOn p (s.withBarrier s.barrier.turned)).view i = (s.view i).goOn) ∧
      (goOn p (s.withBarrier s.barrier.turned)).desk = s.desk.goOn := by
  have free (q : Party numWorkers) : ¬ s.barrier.Released q := by
    by_cases same : q = p
    · subst same
      exact (Barrier.outside_iff.mp outside).2
    · exact fun released => released.2 (others q same)
  cases p with
  | none =>
    refine ⟨fun j => ?_, ?_⟩
    · simp [withBarrier, view, Barrier.seen, View.goOn, goOn, Barrier.released_turned_iff outside others,
        free, reads, searches, slotLog]
    · simp [withBarrier, desk, Barrier.seen, Desk.goOn, goOn, Barrier.released_turned_iff outside others,
        free, published, merged, improvements]
  | some i =>
    refine ⟨fun j => ?_, ?_⟩
    · by_cases same : j = i
      · subst same
        simp [withBarrier, view, Barrier.seen, View.goOn, goOn, move,
          Barrier.released_turned_iff outside others, free, reads, searches,
          slotLog]
      · simp [withBarrier, view, Barrier.seen, View.goOn, goOn, move,
          Barrier.released_turned_iff outside others, free, same, reads,
          searches, slotLog]
    · simp [withBarrier, desk, Barrier.seen, Desk.goOn, goOn, move,
        Barrier.released_turned_iff outside others, free, published,
        merged, improvements]

end System

section
variable {P : Protocol numWorkers ω α} {s s' : System numWorkers ω α} {p : Party numWorkers}
  {d : Desk numWorkers α} {views : Fin numWorkers → View numWorkers ω α} {i : Fin numWorkers} {k : Nat}

/-! ### What belongs to a stage, by place -/

section
variable {v : View numWorkers ω α}

theorem working_of_reading (place : v.place = .reading) :
    P.Working k i v ↔ P.Worked k k i v ∧ v.slotLog = P.history i k := by
  unfold Working
  rw [place]

theorem working_of_searching {bound : Option Int} (place : v.place = .searching bound) :
    P.Working k i v ↔ bound = P.bound k ∧ P.Worked (k + 1) k i v ∧ v.slotLog = P.history i k := by
  unfold Working
  rw [place]

theorem working_of_reporting {report : Report α} (place : v.place = .reporting report) : P.Working k i v ↔
    report = P.report k i ∧ P.Worked (k + 1) (k + 1) i v ∧ v.slotLog = P.history i k := by
  unfold Working
  rw [place]

theorem working_of_reported (place : v.place = .reported) :
    P.Working k i v ↔ P.Worked (k + 1) (k + 1) i v ∧ P.Left k i v := by
  unfold Working
  rw [place]

theorem Working.going (h : P.Working k i v) : v.place ≠ .starting ∧ v.place ≠ .stopped := by
  unfold Working at h
  constructor <;> intro place <;> rw [place] at h <;> exact h

theorem leaving_of_reading (place : v.place = .reading) : P.Leaving k i v ↔ P.Worked k k i v := by
  unfold Leaving
  rw [place]

theorem leaving_of_stopped (place : v.place = .stopped) : P.Leaving k i v ↔
    v.searches = (List.range k).map P.bound ∧
      ∃ control, control.finished = true ∧ v.reads = (List.range k).map P.controlOf ++ [control] := by
  unfold Leaving
  rw [place]

theorem Leaving.place (h : P.Leaving k i v) : v.place = .reading ∨ v.place = .stopped := by
  unfold Leaving at h
  split at h
  · exact .inl ‹_›
  · exact .inr ‹_›
  · exact h.elim

theorem Leaving.searches (h : P.Leaving k i v) : v.searches = (List.range k).map P.bound := by
  rcases h.place with place | place
  · exact ((leaving_of_reading place).mp h).searches
  · exact ((leaving_of_stopped place).mp h).1

end

/-! ### The next stage -/

/-- When a round has ended, all solutions are to be merged. -/
theorem Ready.merging (h : P.Ready k d) (published : d.published = (List.range (k + 1)).map P.bound) :
    P.Merging k (P.solutionsOf k (List.finRange numWorkers)) (List.finRange numWorkers) [] d where
  incumbent := by
    rw [h.incumbent]
    rfl
  merged := by
    unfold solutionsBefore
    rw [h.merged, List.range_succ, List.flatMap_append, List.flatMap_singleton]
    rfl
  improvements := by
    rw [h.incumbent, h.improvements]
    rfl
  statuses_eq := List.nil_append _
  statistics i hi := absurd (List.mem_finRange i) hi
  nodup := List.nodup_finRange numWorkers
  going := h.going
  unfinished := h.unfinished
  published := published

/-- **When all have come to the barrier, the next stage begins.** -/
theorem Stage.goOn (h : P.Stage d views) (coordinator : d.place.next? ≠ none)
    (workers : ∀ i, (views i).place.next? ≠ none) : P.Stage d.goOn fun i => (views i).goOn := by
  cases h with
  | between k attending here =>
    have reading (i : Fin numWorkers) : (views i).goOn.place = .reading := by
      unfold View.goOn
      rw [(here i).1]
      rfl
    unfold Attending at attending
    cases place : d.place with
    | published =>
      rw [place] at attending
      obtain ⟨bound, ready, published, emptied⟩ := attending
      have control : d.control = P.controlOf k := by
        rw [show d.control = ⟨d.control.bound, d.control.finished⟩ from rfl, bound, ready.unfinished]
        rfl
      refine .within k ?_ { ready with } control published fun i => ?_
      · unfold Desk.goOn
        rw [place]
        rfl
      · exact (working_of_reading (reading i)).mpr ⟨{ (here i).2 with }, emptied i⟩
    | finished verdict =>
      rw [place] at attending
      obtain ⟨finished, settled, emptied⟩ := attending
      have done : d.goOn.place = .done verdict := by
        unfold Desk.goOn
        rw [place]
        rfl
      refine .beyond k done finished { settled with } emptied fun i => ?_
      exact (leaving_of_reading (reading i)).mpr { (here i).2 with }
    | idle => rw [place] at attending; exact attending.elim
    | _ => rw [place] at coordinator; exact absurd rfl coordinator
  | within k place ready control published here =>
    have left (i : Fin numWorkers) : P.Worked (k + 1) (k + 1) i (views i) ∧ P.Left k i (views i) ∧
        (views i).goOn.place = .starting := by
      have halts := workers i
      unfold View.goOn
      cases at_ : (views i).place with
      | reported =>
        obtain ⟨worked, left⟩ := (working_of_reported at_).mp (here i)
        exact ⟨worked, left, rfl⟩
      | starting => exact absurd at_ (here i).going.1
      | _ => rw [at_] at halts; exact absurd rfl halts
    refine .between (k + 1) ?_ fun i => ⟨(left i).2.2, { (left i).1 with }⟩
    have counting : d.goOn.place = .counting := by
      unfold Desk.goOn
      rw [place]
      rfl
    unfold Attending
    rw [counting]
    exact ⟨k, rfl, ready.numRounds, { ready.merging published with }, fun i _ => { (left i).2.1 with },
      fun i apart => absurd (List.mem_finRange i) apart⟩
  | beyond k place =>
    rw [place] at coordinator
    exact absurd rfl coordinator

/-- Whoever is inside the barrier is where it waits. -/
theorem Inv.halts (h : P.Inv s) (inside : s.barrier.inside p ≠ none) : s.Halts p := by
  cases p with
  | none => exact h.coordinator inside
  | some i => exact h.workers i inside

/-- A party that is not where it waits is outside the barrier. -/
theorem Inv.outside (h : P.Inv s) (away : ¬ s.Halts p) : s.barrier.inside p = none := by
  by_contra inside
  exact away (h.halts inside)

theorem Inv.of_halts (barrier : s.barrier.Sound) (halts : ∀ p, s.barrier.inside p ≠ none → s.Halts p)
    (stage : P.Stage s.desk s.view) : P.Inv s where
  barrier := barrier
  workers i := halts (some i)
  coordinator := halts none
  stage := stage

/-- **Coming to the barrier keeps the invariant.** -/
theorem Inv.waited (h : P.Inv s) (halts : s.Halts p) (hs : s.wait? p (System.goOn p) = some s') :
    P.Inv s' := by
  obtain ⟨passes, barrier, hw, rfl⟩ := System.wait?_eq_some hs
  obtain ⟨sound, comes⟩ := h.barrier.comes hw
  cases comes with
  | waits outside =>
    obtain ⟨views, desk⟩ := System.seen_entered outside
    rw [if_neg Bool.false_ne_true]
    refine .of_halts sound (fun q inside => ?_) (by rw [views, desk]; exact h.stage)
    by_cases same : q = p
    · exact same ▸ halts
    · refine h.halts (p := q) ?_
      rwa [← Barrier.inside_entered_ne same]
  | late released =>
    obtain ⟨views, desk⟩ := System.seen_left released
    rw [if_pos rfl]
    refine .of_halts (by rw [System.barrier_goOn]; exact sound) (fun q inside => ?_)
      (by rw [views, desk]; exact h.stage)
    rw [System.barrier_goOn] at inside
    have other : q ≠ p := fun same => inside (same ▸ Barrier.inside_left_self)
    refine System.halts_goOn other (h.halts (p := q) ?_)
    rwa [← Barrier.inside_left_ne other]
  | last outside others =>
    obtain ⟨views, desk⟩ := System.seen_turned outside others
    -- everybody is where it waits: those inside, and the one who comes
    have waiting (q : Party numWorkers) : s.Halts q ∧ ¬ s.barrier.Released q := by
      by_cases same : q = p
      · subst same
        exact ⟨halts, (Barrier.outside_iff.mp outside).2⟩
      · have inside : s.barrier.inside q ≠ none := by
          rw [show s.barrier.inside q = _ from others q same]
          exact Option.some_ne_none _
        exact ⟨h.halts inside, fun released => released.2 (others q same)⟩
    rw [if_pos rfl]
    refine .of_halts (by rw [System.barrier_goOn]; exact sound) (fun q inside => ?_) ?_
    · rw [System.barrier_goOn] at inside
      have other : q ≠ p := fun same => inside (same ▸ outside)
      exact System.halts_goOn other (waiting q).1
    · rw [desk, funext views]
      refine h.stage.goOn ?_ fun i => ?_
      · rw [System.desk_place_of_outside (waiting none).2]
        exact (waiting none).1
      · rw [System.place_of_outside (waiting (some i)).2]
        exact (waiting (some i)).1

/-! ## What is seen of a step -/

/-- An event that is not seen of a worker. -/
structure Event.Unseen (i : Fin numWorkers) (e : Event numWorkers α) : Prop where
  read : e.read? i = none
  searched : e.searched? i = none
  slot : e.atSlot i = false

/-- A worker is seen as before when what belongs to it is left alone. -/
theorem System.view_eq {events : List (Event numWorkers α)} (barrier : s'.barrier = s.barrier)
    (workers : s'.workers i = s.workers i) (states : s'.states i = s.states i)
    (slots : s'.slots i = s.slots i) (log : s'.log = s.log ++ events) (unseen : ∀ e ∈ events, e.Unseen i) :
    s'.view i = s.view i := by
  have reads : events.filterMap (Event.read? i) = [] :=
    List.filterMap_eq_nil_iff.mpr fun e he => (unseen e he).read
  have searches : events.filterMap (Event.searched? i) = [] :=
    List.filterMap_eq_nil_iff.mpr fun e he => (unseen e he).searched
  have slotLog : events.filter (Event.atSlot i) = [] :=
    List.filter_eq_nil_iff.mpr fun e he => Bool.eq_false_iff.mp (unseen e he).slot
  unfold view System.reads System.searches System.slotLog
  rw [barrier, workers, states, slots, log, List.filterMap_append, List.filterMap_append,
    List.filter_append, reads, searches, slotLog]
  simp only [List.append_nil]

/-- The coordinator notes an event. -/
def Desk.noting (d : Desk numWorkers α) : Event numWorkers α → Desk numWorkers α
  | .published bound => { d with published := d.published ++ [bound] }
  | .merged solution improved => { d with
      merged := d.merged ++ [solution]
      improvements := if improved then d.improvements ++ [solution] else d.improvements }
  | _ => d

theorem Desk.foldl_noting (events : List (Event numWorkers α)) : events.foldl Desk.noting d = { d with
    published := d.published ++ events.filterMap Event.published?
    merged := d.merged ++ events.filterMap Event.merged?
    improvements := d.improvements ++ events.filterMap Event.improved? } := by
  induction events generalizing d with
  | nil => simp only [List.foldl_nil, List.filterMap_nil, List.append_nil]
  | cons e events ih =>
    rw [List.foldl_cons, ih]
    cases e with
    | merged solution improved =>
      cases improved <;> simp [noting, List.filterMap_cons, Event.published?, Event.merged?, Event.improved?]
    | _ => simp [noting, List.filterMap_cons, Event.published?, Event.merged?, Event.improved?]

/-- The coordinator at the end of a step, before it notes what happened. -/
def System.deskSince (s s' : System numWorkers ω α) : Desk numWorkers α where
  place := s'.coordinator
  control := s'.control
  incumbent := s'.incumbent
  statistics := s'.statistics
  numRounds := s'.numRounds
  published := s.published
  merged := s.merged
  improvements := s.improvements

theorem System.desk_of_log {events : List (Event numWorkers α)} (free : ¬ s'.barrier.Released none)
    (log : s'.log = s.log ++ events) : s'.desk = events.foldl Desk.noting (s.deskSince s') := by
  unfold desk published merged improvements
  rw [Barrier.seen_of_free free, log, List.filterMap_append, List.filterMap_append, List.filterMap_append,
    Desk.foldl_noting]
  rfl

/-! ## Steps of the workers -/

/-- What a worker does by itself. -/
inductive Event.By (i : Fin numWorkers) : Event numWorkers α → Prop
  | read (control : Control) : By i (.read i control)
  | searched (bound : Option Int) : By i (.searched i bound)
  | wrote (report : Report α) : By i (.wrote i report)

/-- A worker does something, and leaves alone what belongs to others. -/
structure Acts (i : Fin numWorkers) (s s' : System numWorkers ω α) : Prop where
  barrier : s'.barrier = s.barrier
  control : s'.control = s.control
  incumbent : s'.incumbent = s.incumbent
  coordinator : s'.coordinator = s.coordinator
  numRounds : s'.numRounds = s.numRounds
  statistics : s'.statistics = s.statistics
  workers : ∀ j, j ≠ i → s'.workers j = s.workers j
  states : ∀ j, j ≠ i → s'.states j = s.states j
  slots : ∀ j, j ≠ i → s'.slots j = s.slots j
  log : ∃ e, Event.By i e ∧ s'.log = s.log ++ [e]

theorem Event.By.unseen {e : Event numWorkers α} (own : Event.By i e) {j : Fin numWorkers} (apart : j ≠ i) :
    e.Unseen j := by
  have elsewhere : i ≠ j := apart.symm
  cases own with
  | read => exact ⟨if_neg elsewhere, rfl, rfl⟩
  | searched => exact ⟨rfl, if_neg elsewhere, rfl⟩
  | wrote => exact ⟨rfl, rfl, decide_eq_false elsewhere⟩

theorem Acts.view_eq (h : Acts i s s') {j : Fin numWorkers} (apart : j ≠ i) : s'.view j = s.view j := by
  obtain ⟨e, own, log⟩ := h.log
  exact System.view_eq h.barrier (h.workers j apart) (h.states j apart) (h.slots j apart) log
    (List.forall_mem_singleton.mpr (own.unseen apart))

theorem Acts.desk_eq (h : Acts i s s') : s'.desk = s.desk := by
  obtain ⟨e, own, log⟩ := h.log
  unfold System.desk System.published System.merged System.improvements
  rw [h.barrier, h.control, h.incumbent, h.coordinator, h.numRounds, h.statistics, log]
  cases own <;> simp [Event.published?, Event.merged?, Event.improved?]

theorem Inv.free (h : P.Inv s) (away : (s.workers i).next? = none) : ¬ s.barrier.Released (some i) :=
  (Barrier.outside_iff.mp (h.outside (p := some i) fun halts => halts away)).2

/-- A worker that acts keeps the invariant if it does what belongs to the stage. -/
theorem Inv.acted (h : P.Inv s) (away : (s.workers i).next? = none) (acts : Acts i s s')
    (within : ∀ k, s.control = P.controlOf k → P.Working k i (s.view i) → P.Working k i (s'.view i))
    (beyond : ∀ k, s.control.finished = true → P.Leaving k i (s.view i) →
      P.Leaving k i (s'.view i) ∧ s'.slotLog i = s.slotLog i) : P.Inv s' := by
  have outside : s.barrier.inside (some i) = none := h.outside fun halts => halts away
  refine .of_halts (acts.barrier ▸ h.barrier) (fun p inside => ?_) ?_
  · rw [acts.barrier] at inside
    cases p with
    | none =>
      unfold System.Halts
      rw [acts.coordinator]
      exact h.coordinator inside
    | some j =>
      have apart : j ≠ i := fun same => inside (same ▸ outside)
      unfold System.Halts
      dsimp only
      rw [acts.workers j apart]
      exact h.workers j inside
  · rw [acts.desk_eq]
    cases h.stage with
    | between k attending here =>
      have place := (here i).1
      rw [System.place_of_outside (h.free away)] at place
      rw [place] at away
      cases away
    | within k place ready control published here =>
      refine .within k place ready control published fun j => ?_
      by_cases same : j = i
      · subst same
        exact within k control (here j)
      · rw [acts.view_eq same]
        exact here j
    | beyond k place control settled emptied here =>
      refine .beyond k place control settled (fun j => ?_) fun j => ?_
      · by_cases same : j = i
        · subst same
          exact (beyond k control (here j)).2.trans (emptied j)
        · rw [acts.view_eq same]
          exact emptied j
      · by_cases same : j = i
        · subst same
          exact (beyond k control (here j)).1
        · rw [acts.view_eq same]
          exact here j

theorem map_range_succ {β : Type} (f : Nat → β) (k : Nat) :
    (List.range (k + 1)).map f = (List.range k).map f ++ [f k] := by
  rw [List.range_succ, List.map_append]
  rfl

theorem history_succ (i : Fin numWorkers) (k : Nat) : P.history i (k + 1) =
    P.history i k ++ [.wrote i (P.report k i), .took i (P.report k i)] := by
  unfold history
  rw [List.range_succ, List.flatMap_append]
  rfl

/-- A worker searches, or stops, as it is told. -/
theorem Inv.read (h : P.Inv s) (place : s.workers i = .reading) : P.Inv
    { s.move i (if s.control.finished then .stopped else .searching s.control.bound) with
      log := s.log ++ [.read i s.control] } := by
  have away : (s.workers i).next? = none := by rw [place]; rfl
  have free := h.free away
  have here : (s.view i).place = .reading := (System.place_of_outside free).trans place
  have mine : ({ s.move i (if s.control.finished then .stopped else .searching s.control.bound) with
      log := s.log ++ [.read i s.control] } : System numWorkers ω α).view i = { s.view i with
        place := if s.control.finished then .stopped else .searching s.control.bound
        reads := s.reads i ++ [s.control] } := by
    simp [System.view, System.move, System.reads, System.searches, System.slotLog, Event.read?,
      Event.searched?, Event.atSlot, Barrier.seen_of_free free]
  refine h.acted away ⟨rfl, rfl, rfl, rfl, rfl, rfl, fun j apart => Function.update_of_ne apart ..,
    fun _ _ => rfl, fun _ _ => rfl, _, .read s.control, rfl⟩ (fun k control working => ?_)
    fun k finished leaving => ⟨?_, congrArg View.slotLog mine⟩
  · obtain ⟨⟨state, reads, searches⟩, slotLog⟩ := (working_of_reading here).mp working
    have going : s.control.finished = false := by rw [control]; rfl
    rw [mine, going, if_neg Bool.false_ne_true]
    refine (working_of_searching rfl).mpr ⟨by rw [control]; rfl, ⟨state, ?_, searches⟩, slotLog⟩
    rw [map_range_succ, ← control]
    exact congrArg (· ++ [s.control]) reads
  · have worked := (leaving_of_reading here).mp leaving
    rw [mine, finished, if_pos rfl]
    exact (leaving_of_stopped rfl).mpr
      ⟨worked.searches, s.control, finished, congrArg (· ++ [s.control]) worked.reads⟩

/-- A worker searches below the bound that it was told. -/
theorem Inv.search {bound : Option Int} (h : P.Inv s) (place : s.workers i = .searching bound) : P.Inv
    { s.move i (.reporting (P.search (s.states i) bound).1) with
      states := Function.update s.states i (P.search (s.states i) bound).2
      log := s.log ++ [.searched i bound] } := by
  have away : (s.workers i).next? = none := by rw [place]; rfl
  have free := h.free away
  have here : (s.view i).place = .searching bound := (System.place_of_outside free).trans place
  have mine : ({ s.move i (.reporting (P.search (s.states i) bound).1) with
      states := Function.update s.states i (P.search (s.states i) bound).2
      log := s.log ++ [.searched i bound] } : System numWorkers ω α).view i = { s.view i with
        place := .reporting (P.search (s.states i) bound).1
        state := (P.search (s.states i) bound).2
        searches := s.searches i ++ [bound] } := by
    simp [System.view, System.move, System.reads, System.searches, System.slotLog, Event.read?,
      Event.searched?, Event.atSlot, Barrier.seen_of_free free]
  refine h.acted away ⟨rfl, rfl, rfl, rfl, rfl, rfl, fun j apart => Function.update_of_ne apart ..,
    fun j apart => Function.update_of_ne apart .., fun _ _ => rfl, _, .searched bound, rfl⟩
    (fun k control working => ?_) fun k finished leaving => ?_
  · obtain ⟨rfl, ⟨state, reads, searches⟩, slotLog⟩ := (working_of_searching here).mp working
    replace state : s.states i = (P.after k).states i := state
    rw [mine, state]
    refine (working_of_reporting rfl).mpr ⟨rfl, ⟨rfl, reads, ?_⟩, slotLog⟩
    rw [map_range_succ]
    exact congrArg (· ++ [P.bound k]) searches
  · have place := leaving.place
    rw [here] at place
    rcases place with place | place <;> cases place

/-- A worker leaves its report. -/
theorem Inv.report {report : Report α} (h : P.Inv s) (place : s.workers i = .reporting report) : P.Inv
    { s.move i .reported with
      slots := Function.update s.slots i report
      log := s.log ++ [.wrote i report] } := by
  have away : (s.workers i).next? = none := by rw [place]; rfl
  have free := h.free away
  have here : (s.view i).place = .reporting report := (System.place_of_outside free).trans place
  have mine : ({ s.move i .reported with
      slots := Function.update s.slots i report
      log := s.log ++ [.wrote i report] } : System numWorkers ω α).view i = { s.view i with
        place := .reported
        slot := report
        slotLog := s.slotLog i ++ [.wrote i report] } := by
    simp [System.view, System.move, System.reads, System.searches, System.slotLog, Event.read?,
      Event.searched?, Event.atSlot, Barrier.seen_of_free free]
  refine h.acted away ⟨rfl, rfl, rfl, rfl, rfl, rfl, fun j apart => Function.update_of_ne apart ..,
    fun _ _ => rfl, fun j apart => Function.update_of_ne apart .., _, .wrote report, rfl⟩
    (fun k control working => ?_) fun k finished leaving => ?_
  · obtain ⟨rfl, worked, slotLog⟩ := (working_of_reporting here).mp working
    rw [mine]
    exact (working_of_reported rfl).mpr
      ⟨{ worked with }, rfl, congrArg (· ++ [Event.wrote i (P.report k i)]) slotLog⟩
  · have place := leaving.place
    rw [here] at place
    rcases place with place | place <;> cases place

/-! ## Steps of the coordinator -/

/-- What is seen of a worker apart from its report. -/
structure SameWork (v v' : View numWorkers ω α) : Prop where
  place : v'.place = v.place
  state : v'.state = v.state
  reads : v'.reads = v.reads
  searches : v'.searches = v.searches

theorem SameWork.worked {v v' : View numWorkers ω α} {read searched : Nat} (h : SameWork v v')
    (worked : P.Worked read searched i v) : P.Worked read searched i v' where
  state := h.state.trans worked.state
  reads := h.reads.trans worked.reads
  searches := h.searches.trans worked.searches

theorem SameWork.refl (v : View numWorkers ω α) : SameWork v v := ⟨rfl, rfl, rfl, rfl⟩

/-- The coordinator acts by itself, and does what belongs to the stage. -/
structure Attends (P : Protocol numWorkers ω α) (s s' : System numWorkers ω α) : Prop where
  barrier : s'.barrier = s.barrier
  workers : s'.workers = s.workers
  work : ∀ i, SameWork (s.view i) (s'.view i)
  attending : ∀ k, P.Attending k s.desk s.view → P.Attending k s'.desk s'.view

theorem Inv.freeDesk (h : P.Inv s) (away : s.coordinator.next? = none) : ¬ s.barrier.Released none :=
  (Barrier.outside_iff.mp (h.outside (p := none) fun halts => halts away)).2

/-- Between two rounds the coordinator keeps the invariant if it does what belongs there. -/
theorem Inv.attended {here : Portfolio.Place numWorkers α} (h : P.Inv s) (place : s.coordinator = here)
    (away : here.next? = none) (going : ∀ verdict, here ≠ .done verdict)
    (attends : s.desk.place = here → ¬ s.barrier.Released none → P.Attends s s') : P.Inv s' := by
  subst place
  have outside : s.barrier.inside none = none := h.outside fun halts => halts away
  have free : ¬ s.barrier.Released none := h.freeDesk away
  have seen : s.desk.place = s.coordinator := System.desk_place_of_outside free
  have attends := attends seen free
  refine .of_halts (attends.barrier ▸ h.barrier) (fun p inside => ?_) ?_
  · rw [attends.barrier] at inside
    cases p with
    | none => exact absurd outside inside
    | some j =>
      unfold System.Halts
      dsimp only
      rw [attends.workers]
      exact h.workers j inside
  · cases h.stage with
    | between k attending here =>
      refine .between k (attends.attending k attending) fun i => ⟨?_, ?_⟩
      · exact (attends.work i).place.trans (here i).1
      · exact (attends.work i).worked (here i).2
    | within k idle =>
      rw [← seen, idle] at away
      cases away
    | beyond k done => exact absurd (seen.symm.trans done) (going _)

/-- It is enough to look at what the coordinator notes. -/
theorem Attends.of_log (events : List (Event numWorkers α)) (barrier : s'.barrier = s.barrier)
    (workers : s'.workers = s.workers) (log : s'.log = s.log ++ events) (free : ¬ s.barrier.Released none)
    (work : ∀ i, SameWork (s.view i) (s'.view i)) (attending : ∀ k, P.Attending k s.desk s.view →
      P.Attending k (events.foldl Desk.noting (s.deskSince s')) s'.view) : P.Attends s s' where
  barrier := barrier
  workers := workers
  work := work
  attending k here := by
    rw [System.desk_of_log (barrier ▸ free) log]
    exact attending k here

/-- The coordinator does something at its desk: what belongs to the workers is as it was. -/
structure AtDesk (s s' : System numWorkers ω α) : Prop where
  barrier : s'.barrier = s.barrier
  workers : s'.workers = s.workers
  states : s'.states = s.states
  slots : s'.slots = s.slots

theorem AtDesk.view_eq {events : List (Event numWorkers α)} (h : AtDesk s s')
    (log : s'.log = s.log ++ events) (unseen : ∀ e ∈ events, ∀ i, e.Unseen i) : s'.view = s.view :=
  funext fun i => System.view_eq h.barrier (congrFun h.workers i) (congrFun h.states i)
    (congrFun h.slots i) log fun e he => unseen e he i

/-- At its desk the coordinator keeps the invariant if what it does there belongs to the stage. -/
theorem Inv.atDesk {here : Portfolio.Place numWorkers α} (h : P.Inv s) (place : s.coordinator = here)
    (away : here.next? = none) (going : ∀ verdict, here ≠ .done verdict) (atDesk : AtDesk s s')
    (events : List (Event numWorkers α)) (log : s'.log = s.log ++ events)
    (unseen : ∀ e ∈ events, ∀ i, e.Unseen i)
    (attending : s.desk.place = here → ∀ k, P.Attending k s.desk s.view →
      P.Attending k (events.foldl Desk.noting (s.deskSince s')) s.view) : P.Inv s' := by
  have views : s'.view = s.view := atDesk.view_eq log unseen
  refine h.attended place away going fun seen free =>
    .of_log events atDesk.barrier atDesk.workers log free (fun i => ?_) fun k here => ?_
  · rw [views]
    exact .refl _
  · rw [views]
    exact attending seen k here

/-- So it does if nobody sees that it did anything. -/
theorem Inv.quiet {here : Portfolio.Place numWorkers α} (h : P.Inv s) (place : s.coordinator = here)
    (away : here.next? = none) (going : ∀ verdict, here ≠ .done verdict) (atDesk : AtDesk s s')
    (log : s'.log = s.log) (attending : s.desk.place = here → ∀ k, P.Attending k s.desk s.view →
      P.Attending k (s.deskSince s') s.view) : P.Inv s' :=
  h.atDesk place away going atDesk [] (log.trans (List.append_nil _).symm) (List.forall_mem_nil _) attending

namespace Attending

theorem ask (h : P.Attending k d views) (here : d.place = .asking) :
    P.Attending k { d with place := .publishing d.incumbent.bound } views := by
  unfold Attending at h
  rw [here] at h
  obtain ⟨ready, published, emptied⟩ := h
  exact ⟨congrArg Incumbent.bound ready.incumbent, { ready with }, published, emptied⟩

theorem publish {bound : Option Int} (h : P.Attending k d views) (here : d.place = .publishing bound) :
    P.Attending k { d with
      place := .published, control := { d.control with bound }
      published := d.published ++ [bound] } views := by
  unfold Attending at h
  rw [here] at h
  obtain ⟨rfl, ready, published, emptied⟩ := h
  refine ⟨rfl, { ready with }, ?_, emptied⟩
  rw [map_range_succ]
  exact congrArg (· ++ [P.bound k]) published

theorem count (h : P.Attending k d views) (here : d.place = .counting) : P.Attending k { d with
      place := .collecting (List.finRange numWorkers) [], numRounds := d.numRounds + 1 } views := by
  unfold Attending at h
  rw [here] at h
  obtain ⟨j, rfl, numRounds, merging, taken⟩ := h
  exact ⟨j, rfl, congrArg (· + 1) numRounds, { merging with }, taken⟩

/-- Taking a report leaves the reports of the others. -/
theorem take {left : List (Fin numWorkers)} {statuses : List Status}
    {views' : Fin numWorkers → View numWorkers ω α} (h : P.Attending k d views)
    (here : d.place = .collecting (i :: left) statuses) (others : ∀ j, j ≠ i → views' j = views j)
    (slotLog : (views' i).slotLog = (views i).slotLog ++ [.took i (views i).slot]) :
    P.Attending k { d with
      place := .merging i (views i).slot (views i).slot.solutions left statuses } views' := by
  unfold Attending at h
  rw [here] at h
  obtain ⟨j, rfl, numRounds, merging, taken⟩ := h
  have mine : P.Left j i (views i) := taken.present i List.mem_cons_self
  have once : i ∉ left := (List.nodup_cons.mp merging.nodup).1
  refine ⟨j, rfl, numRounds, mine.slot, ?_, fun w hw => ?_, fun w hw => ?_⟩
  · rw [mine.slot]
    exact { merging with }
  · rw [others w fun same => once (same ▸ hw)]
    exact taken.present w (List.mem_cons_of_mem i hw)
  · by_cases same : w = i
    · subst same
      rw [slotLog, mine.slotLog, mine.slot, history_succ, List.append_assoc]
      rfl
    · rw [others w same]
      exact taken.gone w fun mem => hw ((List.mem_cons.mp mem).resolve_left same)

/-- Merging a solution is a part of merging all. -/
theorem merge {report : Report α} {solution : Reported α} {rest : List (Reported α)}
    {left : List (Fin numWorkers)} {statuses : List Status} (h : P.Attending k d views)
    (here : d.place = .merging i report (solution :: rest) left statuses) : P.Attending k { d with
      place := .merging i report rest left statuses, incumbent := d.incumbent.consider solution
      merged := d.merged ++ [solution]
      improvements := if d.incumbent.accepts solution then d.improvements ++ [solution]
        else d.improvements } views := by
  unfold Attending at h
  rw [here] at h
  obtain ⟨j, rfl, numRounds, rfl, merging, taken⟩ := h
  have improvements := merging.improvements
  rw [List.cons_append, Incumbent.merge_cons] at improvements
  refine ⟨j, rfl, numRounds, rfl, { merging with merged := ?_, improvements := ?_ }, taken⟩
  · exact (List.append_assoc ..).trans merging.merged
  by_cases better : d.incumbent.accepts solution = true
  · rw [if_pos better] at improvements ⊢
    rw [List.append_assoc]
    exact improvements
  · rw [if_neg better] at improvements ⊢
    exact improvements

/-- When a report is merged, what else it says is noted. -/
theorem note {report : Report α} {left : List (Fin numWorkers)} {statuses : List Status}
    (h : P.Attending k d views) (here : d.place = .merging i report [] left statuses) :
    P.Attending k { d with
      place := .collecting left (statuses ++ [report.status])
      statistics := Function.update d.statistics i report.statistics } views := by
  unfold Attending at h
  rw [here] at h
  obtain ⟨j, rfl, numRounds, rfl, merging, taken⟩ := h
  refine ⟨j, rfl, numRounds, { merging with
    statuses_eq := ?_, statistics := fun w hw => ?_, nodup := (List.nodup_cons.mp merging.nodup).2 }, taken⟩
  · rw [List.append_assoc]
    exact merging.statuses_eq
  · by_cases same : w = i
    · subst same
      exact Function.update_self ..
    · refine (Function.update_of_ne same ..).trans (merging.statistics w fun mem => ?_)
      exact hw ((List.mem_cons.mp mem).resolve_left same)

/-- What the statuses of all workers come to is the verdict of the round. -/
theorem judge {statuses : List Status} (h : P.Attending k d views)
    (here : d.place = .collecting [] statuses) : P.Attending k { d with
      place := match Portfolio.verdict? (P.limits d.numRounds) statuses with
        | some verdict => .finishing verdict
        | none => .asking } views := by
  unfold Attending at h
  rw [here] at h
  obtain ⟨j, rfl, numRounds, merging, taken⟩ := h
  have verdict : Portfolio.verdict? (P.limits d.numRounds) statuses = P.verdict? j := by
    unfold verdict?
    rw [numRounds, ← merging.statuses_eq]
    exact congrArg _ (List.append_nil statuses).symm
  have merged : d.merged = P.solutionsBefore (j + 1) := (List.append_nil _).symm.trans merging.merged
  have improvements : d.improvements = (P.after (j + 1)).improvements :=
    (List.append_nil _).symm.trans merging.improvements
  have statistics : d.statistics = (P.after (j + 1)).statistics :=
    funext fun i => merging.statistics i List.not_mem_nil
  have emptied : P.Emptied (j + 1) views := fun i => taken.gone i List.not_mem_nil
  rw [verdict]
  cases hv : P.verdict? j with
  | some v =>
    refine ⟨⟨⟨⟨j, rfl, hv⟩, fun i hi => ?_⟩, merged, improvements, statistics, merging.published⟩, emptied⟩
    exact merging.going i (Nat.lt_of_succ_lt_succ hi)
  | none =>
    refine ⟨⟨merging.incumbent, merged, improvements, statistics, numRounds, fun i hi => ?_,
      merging.unfinished⟩, merging.published, emptied⟩
    rcases Nat.lt_succ_iff_lt_or_eq.mp hi with less | rfl
    · exact merging.going i less
    · exact hv

theorem finish {verdict : Verdict} (h : P.Attending k d views) (here : d.place = .finishing verdict) :
    P.Attending k { d with
      place := .finished verdict, control := { d.control with finished := true } } views := by
  unfold Attending at h
  rw [here] at h
  obtain ⟨settled, emptied⟩ := h
  exact ⟨rfl, { settled with }, emptied⟩

/-- With the verdict, all reports were taken. -/
theorem settled {verdict : Verdict} (h : P.Attending k d views)
    (here : d.place = .finishing verdict ∨ d.place = .finished verdict ∨ d.place = .done verdict) :
    P.Settled k verdict d ∧ P.Emptied k views := by
  unfold Attending at h
  rcases here with here | here | here <;> rw [here] at h
  · exact h
  · exact h.2
  · exact h.elim

end Attending

/-- Taking a report keeps the invariant. -/
theorem Inv.take {left : List (Fin numWorkers)} {statuses : List Status} (h : P.Inv s)
    (place : s.coordinator = .collecting (i :: left) statuses) : P.Inv { s with
      coordinator := .merging i (s.slots i) (s.slots i).solutions left statuses
      slots := Function.update s.slots i {}
      log := s.log ++ [.took i (s.slots i)] } := by
  refine h.attended place rfl nofun fun seen free =>
    .of_log [.took i (s.slots i)] rfl rfl rfl free (fun _ => ?_) fun k attending => ?_
  · constructor <;> simp [System.view, System.reads, System.searches, Event.read?, Event.searched?]
  · refine attending.take seen (fun j apart => ?_) ?_
    · exact System.view_eq rfl rfl rfl (Function.update_of_ne apart ..) rfl
        (List.forall_mem_singleton.mpr ⟨rfl, rfl, decide_eq_false apart.symm⟩)
    · simp [System.view, System.slotLog, Event.atSlot]

/-! ## All steps -/

/-- **Whatever a party does keeps the invariant.** -/
theorem Inv.did (h : P.Inv s) (does : P.Does s p s') : P.Inv s' := by
  cases does with
  | read place => exact h.read place
  | searched place => exact h.search place
  | wrote place => exact h.report place
  | asked place => exact h.quiet place rfl nofun ⟨rfl, rfl, rfl, rfl⟩ rfl fun seen k at_ => at_.ask seen
  | published place =>
    exact h.atDesk place rfl nofun ⟨rfl, rfl, rfl, rfl⟩ [.published _] rfl
      (List.forall_mem_singleton.mpr fun i => ⟨rfl, rfl, rfl⟩) fun seen k at_ => at_.publish seen
  | counted place => exact h.quiet place rfl nofun ⟨rfl, rfl, rfl, rfl⟩ rfl fun seen k at_ => at_.count seen
  | took place => exact h.take place
  | merged place =>
    exact h.atDesk place rfl nofun ⟨rfl, rfl, rfl, rfl⟩ [.merged _ _] rfl
      (List.forall_mem_singleton.mpr fun i => ⟨rfl, rfl, rfl⟩) fun seen k at_ => at_.merge seen
  | noted place => exact h.quiet place rfl nofun ⟨rfl, rfl, rfl, rfl⟩ rfl fun seen k at_ => at_.note seen
  | judged place => exact h.quiet place rfl nofun ⟨rfl, rfl, rfl, rfl⟩ rfl fun seen k at_ => at_.judge seen
  | finished place => exact h.quiet place rfl nofun ⟨rfl, rfl, rfl, rfl⟩ rfl fun seen k at_ => at_.finish seen

/-- **Whoever goes on, the invariant is kept.** -/
theorem Inv.step (h : P.Inv s) (hs : P.step? p s = some s') : P.Inv s' := by
  obtain ⟨halts, waited⟩ | does := waited_or_did hs
  · exact h.waited halts waited
  · exact h.did does

end

end Protocol
end BranchBound
