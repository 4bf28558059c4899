import BranchBound.Proofs.Merging
import BranchBound.Proofs.Protocol

/-! # All interleavings come to the same

Every interleaving keeps the invariant of the protocol (`inv_run`), and at each stage the invariant says what
the workers have read and searched, what has happened to their reports, and what was merged and reported.
**So no interleaving has races or gets stuck, and all come to the same** (`protocol_race_free`).  For the
workers of a portfolio, what they come to is what its rounds come to one after another. -/
namespace BranchBound
namespace Protocol
variable {numWorkers : Nat} {ω α : Type} {P : Protocol numWorkers ω α} {s s' : System numWorkers ω α}
  {p : Party numWorkers} {i : Fin numWorkers} {k : Nat}

/-! ## Runs -/

theorem inv_start (P : Protocol numWorkers ω α) : P.Inv { states := P.start } := by
  refine .of_halts Barrier.sound_open (fun p inside => absurd rfl inside) (.between 0 ?_ fun i => ⟨rfl, ?_⟩)
  · exact ⟨⟨rfl, rfl, rfl, rfl, rfl, fun j hj => absurd hj (Nat.not_lt_zero j), rfl⟩, rfl, fun i => rfl⟩
  · exact ⟨rfl, rfl, rfl⟩

theorem Inv.turn (h : P.Inv s) (p : Party numWorkers) : P.Inv (P.turn s p) := by
  unfold Protocol.turn
  cases hs : P.step? p s with
  | none => exact h
  | some s' => exact h.step hs

theorem run_append (interleaving later : List (Party numWorkers)) :
    P.run (interleaving ++ later) = later.foldl P.turn (P.run interleaving) := List.foldl_append

/-- **Every interleaving keeps the invariant.** -/
theorem inv_run (interleaving : List (Party numWorkers)) : P.Inv (P.run interleaving) := by
  induction interleaving using List.reverseRecOn with
  | nil => exact inv_start P
  | append_singleton before p ih =>
    rw [run_append]
    exact ih.turn p

/-! ## Nobody gets stuck -/

/-- A worker at its end is seen there. -/
theorem Inv.place_of_ended (h : P.Inv s) (ended : s.ended (some i) = true) :
    (s.view i).place = .stopped := by
  unfold System.ended at ended
  dsimp only at ended
  cases place : s.workers i with
  | stopped =>
    have free := h.free (i := i) (by rw [place]; rfl)
    exact (System.place_of_outside free).trans place
  | _ => rw [place] at ended; cases ended

/-- So is the coordinator. -/
theorem Inv.desk_of_ended (h : P.Inv s) (ended : s.ended none = true) :
    ∃ verdict, s.desk.place = .done verdict := by
  unfold System.ended at ended
  dsimp only at ended
  cases place : s.coordinator with
  | done verdict =>
    have free := h.freeDesk (by rw [place]; rfl)
    exact ⟨verdict, (System.desk_place_of_outside free).trans place⟩
  | _ => rw [place] at ended; cases ended

/-- A party that waits is seen where it waits. -/
theorem Inv.halts_of_waits (h : P.Inv s) (waits : s.barrier.Waits p) : match p with
    | none => s.desk.place.next? ≠ none
    | some i => (s.view i).place.next? ≠ none := by
  have halts : s.Halts p := h.halts fun outside => (Barrier.outside_iff.mp outside).1 waits
  have free : ¬ s.barrier.Released p := fun released => released.2 waits
  cases p with
  | none =>
    dsimp only
    rw [System.desk_place_of_outside free]
    exact halts
  | some i =>
    dsimp only
    rw [System.place_of_outside free]
    exact halts

/-- **As long as anyone is not at its end, somebody can go on.** -/
theorem Inv.exists_step (h : P.Inv s) (hp : s.ended p = false) : ∃ q, (P.step? q s).isSome := by
  by_contra stuck
  have still (q : Party numWorkers) : s.barrier.Waits q ∨ s.ended q = true := by
    refine waits_of_step?_eq_none (P := P) ?_
    cases hq : P.step? q s with
    | none => rfl
    | some s' => exact absurd ⟨q, by rw [hq]; rfl⟩ stuck
  -- somebody does not wait, and before the end nobody has ended
  obtain ⟨q, free⟩ := h.barrier.exists_free
  have ended : s.ended q = true := (still q).resolve_left free
  cases h.stage with
  | between k attending here =>
    cases q with
    | none =>
      obtain ⟨verdict, place⟩ := h.desk_of_ended ended
      unfold Attending at attending
      rwa [place] at attending
    | some i =>
      have place := h.place_of_ended ended
      rw [(here i).1] at place
      cases place
  | within k idle ready control published here =>
    cases q with
    | none =>
      obtain ⟨verdict, place⟩ := h.desk_of_ended ended
      rw [idle] at place
      cases place
    | some i => exact absurd (h.place_of_ended ended) (here i).going.2
  | beyond k place control settled emptied here =>
    -- at the end nobody waits any more
    have waits : s.barrier.Waits p := (still p).resolve_right (by rw [hp]; exact Bool.false_ne_true)
    have halts := h.halts_of_waits waits
    cases p with
    | none =>
      dsimp only at halts
      rw [place] at halts
      exact halts rfl
    | some i =>
      dsimp only at halts
      rcases (here i).place with seen | seen <;> rw [seen] at halts <;> exact halts rfl

/-! ## What was merged -/

/-- The incumbent and the improvements are what all solutions so far are merged to. -/
theorem merge_solutionsBefore (k : Nat) : ({} : Incumbent α).merge (P.solutionsBefore k) =
    ((P.after k).improvements, (P.after k).incumbent) := by
  induction k with
  | zero => rfl
  | succ k ih =>
    have solutions : P.solutionsBefore (k + 1) =
        P.solutionsBefore k ++ P.solutionsOf k (List.finRange numWorkers) := by
      unfold solutionsBefore
      rw [List.range_succ, List.flatMap_append, List.flatMap_singleton]
    rw [solutions, Incumbent.merge_append, ih]
    rfl

theorem improvements_after_succ (k : Nat) : (P.after (k + 1)).improvements =
    (P.after k).improvements ++
      ((P.after k).incumbent.merge (P.solutionsOf k (List.finRange numWorkers))).1 := rfl

/-- Improvements are only added. -/
theorem improvements_after_le {k l : Nat} (le : k ≤ l) :
    (P.after k).improvements <+: (P.after l).improvements := by
  induction l, le using Nat.le_induction with
  | base => exact List.prefix_rfl
  | succ l _ ih =>
    rw [improvements_after_succ]
    exact ih.trans (List.prefix_append ..)

/-- The reports that were taken. -/
def Event.took? : Event numWorkers α → Option (Report α)
  | .took _ report => some report
  | _ => none

/-- The solutions of the reports that were taken, in the order in which they were taken. -/
def System.taken (s : System numWorkers ω α) : List (Reported α) :=
  (s.log.filterMap Event.took?).flatMap Report.solutions

/-- The solutions that the coordinator has taken and not merged yet. -/
def pendingAt : Portfolio.Place numWorkers α → List (Reported α)
  | .merging _ _ rest _ _ => rest
  | _ => []

/-- Everything that was taken, and nothing else, is merged in turn. -/
def System.MergesTaken (s : System numWorkers ω α) : Prop := s.merged ++ pendingAt s.coordinator = s.taken

theorem System.MergesTaken.of_log (h : s.MergesTaken) (events : List (Event numWorkers α))
    (log : s'.log = s.log ++ events) (balanced : events.filterMap Event.merged? ++ pendingAt s'.coordinator =
      pendingAt s.coordinator ++ (events.filterMap Event.took?).flatMap Report.solutions) :
    s'.MergesTaken := by
  unfold MergesTaken merged taken at *
  rw [log, List.filterMap_append, List.filterMap_append, List.flatMap_append, List.append_assoc, balanced,
    ← List.append_assoc, h]

theorem System.MergesTaken.of_log_eq (h : s.MergesTaken) (log : s'.log = s.log)
    (pending : pendingAt s'.coordinator = pendingAt s.coordinator) : s'.MergesTaken :=
  h.of_log [] (log.trans (List.append_nil _).symm) (pending.trans (List.append_nil _).symm)

theorem pendingAt_goOn : pendingAt (s.goOn p).coordinator = pendingAt s.coordinator := by
  cases p with
  | some i => rfl
  | none =>
    dsimp only [System.goOn]
    cases s.coordinator <;> rfl

/-- Who comes to the barrier merges nothing. -/
theorem System.MergesTaken.waited (h : s.MergesTaken) (hs : s.wait? p (System.goOn p) = some s') :
    s'.MergesTaken := by
  obtain ⟨passes, barrier, -, rfl⟩ := System.wait?_eq_some hs
  cases passes with
  | false => exact h
  | true => exact h.of_log_eq System.log_goOn pendingAt_goOn

theorem System.MergesTaken.did (h : s.MergesTaken) (does : P.Does s p s') : s'.MergesTaken := by
  cases does with
  | read | searched | wrote => exact h.of_log _ rfl (List.append_nil _).symm
  | published place => exact h.of_log _ rfl (by rw [place]; rfl)
  -- the solutions of the report are all that is pending then
  | took place => exact h.of_log _ rfl (by rw [place]; exact (List.append_nil _).symm)
  | merged place => exact h.of_log _ rfl (by rw [place]; exact (List.append_nil _).symm)
  | judged place =>
    refine h.of_log_eq rfl ?_
    rw [place]
    cases Portfolio.verdict? (P.limits s.numRounds) _ <;> rfl
  | asked place | counted place | noted place | finished place => exact h.of_log_eq rfl (by rw [place]; rfl)

theorem System.MergesTaken.step (h : s.MergesTaken) (hs : P.step? p s = some s') : s'.MergesTaken := by
  obtain ⟨-, waited⟩ | does := waited_or_did hs
  · exact h.waited waited
  · exact h.did does

/-- **Whatever the interleaving, everything that was taken is merged once.** -/
theorem mergesTaken_run (interleaving : List (Party numWorkers)) : (P.run interleaving).MergesTaken := by
  induction interleaving using List.reverseRecOn with
  | nil => rfl
  | append_singleton before p ih =>
    rw [run_append]
    change (P.turn (P.run before) p).MergesTaken
    unfold Protocol.turn
    cases hs : P.step? p (P.run before) with
    | none => exact ih
    | some s' => exact ih.step hs

/-! ## What is seen at each stage -/

/-- A worker that is about to read is told the bound of its round, which was published when all solutions of
the rounds before had been merged; or that the portfolio has finished. -/
theorem Inv.reading (h : P.Inv s) (place : s.workers i = .reading) : s.control.finished = true ∨
    let k := (s.reads i).length
    s.control = P.controlOf k ∧ s.merged = P.solutionsBefore k ∧
      s.published = (List.range (k + 1)).map P.bound := by
  have here : (s.view i).place = .reading :=
    (System.place_of_outside (h.free (by rw [place]; rfl))).trans place
  cases h.stage with
  | between k attending workers =>
    have starting := (workers i).1
    rw [here] at starting
    cases starting
  | within k idle ready control published workers =>
    have worked := ((working_of_reading here).mp (workers i)).1
    have length : (s.reads i).length = k := by
      rw [show s.reads i = _ from worked.reads, List.length_map, List.length_range]
    right
    dsimp only
    rw [length]
    exact ⟨control, ready.merged, published⟩
  | beyond k done control => exact .inl control

/-- A worker that is about to leave a report leaves that of its round, and all reports of the rounds before
were taken and merged. -/
theorem Inv.reporting {report : Report α} (h : P.Inv s) (place : s.workers i = .reporting report) :
    ∃ k, report = P.report k i ∧ s.slotLog i = P.history i k ∧ s.merged = P.solutionsBefore k := by
  have here : (s.view i).place = .reporting report :=
    (System.place_of_outside (h.free (by rw [place]; rfl))).trans place
  cases h.stage with
  | between k attending workers =>
    have starting := (workers i).1
    rw [here] at starting
    cases starting
  | within k idle ready control published workers =>
    obtain ⟨same, -, slotLog⟩ := (working_of_reporting here).mp (workers i)
    exact ⟨k, same, slotLog, ready.merged⟩
  | beyond k done control settled emptied workers =>
    have place := (workers i).place
    rw [here] at place
    rcases place with place | place <;> cases place

/-- A worker has searched each round below the bound of the round. -/
theorem Inv.searches_eq (h : P.Inv s) (i : Fin numWorkers) : ∃ k, s.searches i = (List.range k).map P.bound := by
  cases h.stage with
  | between k attending workers => exact ⟨k, (workers i).2.searches⟩
  | within k idle ready control published workers =>
    have working := workers i
    unfold Working at working
    split at working
    · exact ⟨k, working.1.searches⟩
    · exact ⟨k, working.2.1.searches⟩
    · exact ⟨k + 1, working.2.1.searches⟩
    · exact ⟨k + 1, working.1.searches⟩
    · exact working.elim
  | beyond k done control settled emptied workers => exact ⟨k, (workers i).searches⟩

/-- The reports of a worker are left and taken in turn. -/
theorem Inv.slotLog_eq (h : P.Inv s) (i : Fin numWorkers) : ∃ k, s.slotLog i = P.history i k ∨
    s.slotLog i = P.history i k ++ [.wrote i (P.report k i)] := by
  have taken {k : Nat} {left : List (Fin numWorkers)} (h : P.Taken k left s.view) :
      ∃ k, s.slotLog i = P.history i k ∨ s.slotLog i = P.history i k ++ [.wrote i (P.report k i)] := by
    by_cases mem : i ∈ left
    · exact ⟨k, .inr (h.present i mem).slotLog⟩
    · exact ⟨k + 1, .inl (h.gone i mem)⟩
  cases h.stage with
  | between k attending workers =>
    unfold Attending at attending
    split at attending
    · exact ⟨k, .inl (attending.2.2 i)⟩
    · exact ⟨k, .inl (attending.2.2.2 i)⟩
    · exact ⟨k, .inl (attending.2.2.2 i)⟩
    · obtain ⟨j, -, -, -, left⟩ := attending
      exact taken left
    · obtain ⟨j, -, -, -, left⟩ := attending
      exact taken left
    · obtain ⟨j, -, -, -, -, left⟩ := attending
      exact taken left
    · exact ⟨k, .inl (attending.2 i)⟩
    · exact ⟨k, .inl (attending.2.2 i)⟩
    · exact attending.elim
  | within k idle ready control published workers =>
    have working := workers i
    unfold Working at working
    split at working
    · exact ⟨k, .inl working.2⟩
    · exact ⟨k, .inl working.2.2⟩
    · exact ⟨k, .inl working.2.2⟩
    · exact ⟨k, .inr working.2.slotLog⟩
    · exact working.elim
  | beyond k done control settled emptied => exact ⟨k, .inl (emptied i)⟩

/-- The improvements so far are the first of those that come of some rounds. -/
theorem Inv.exists_improvements (h : P.Inv s) : ∃ k, s.improvements <+: (P.after k).improvements := by
  have merging {k : Nat} {solutions : List (Reported α)} {left : List (Fin numWorkers)}
      {statuses : List Status} (h : P.Merging k solutions left statuses s.desk) :
      ∃ k, s.improvements <+: (P.after k).improvements :=
    ⟨k + 1, _, h.improvements⟩
  have all {k : Nat} (h : s.desk.improvements = (P.after k).improvements) :
      ∃ k, s.improvements <+: (P.after k).improvements :=
    ⟨k, by rw [← h]; exact List.prefix_rfl⟩
  cases h.stage with
  | between k attending =>
    unfold Attending at attending
    split at attending
    · exact all attending.1.improvements
    · exact all attending.2.1.improvements
    · exact all attending.2.1.improvements
    · obtain ⟨j, -, -, here, -⟩ := attending
      exact merging here
    · obtain ⟨j, -, -, here, -⟩ := attending
      exact merging here
    · obtain ⟨j, -, -, -, here, -⟩ := attending
      exact merging here
    · exact all attending.1.improvements
    · exact all attending.2.1.improvements
    · exact attending.elim
  | within k idle ready => exact all ready.improvements
  | beyond k done control settled => exact all settled.improvements

/-! ## The verdict -/

/-- A coordinator that has a verdict is seen with it. -/
theorem System.desk_of_verdict {verdict : Verdict} (hv : s.verdict = some verdict) :
    s.desk.place = .finishing verdict ∨ s.desk.place = .finished verdict ∨ s.desk.place = .done verdict := by
  unfold System.verdict at hv
  unfold System.desk Barrier.seen
  dsimp only
  cases place : s.coordinator with
  | finishing v =>
    rw [place] at hv
    obtain rfl := Option.some.inj hv
    exact .inl (ite_self _)
  | finished v =>
    rw [place] at hv
    obtain rfl := Option.some.inj hv
    right
    by_cases released : s.barrier.Released none
    · exact .inr (if_pos released)
    · exact .inl (if_neg released)
  | done v =>
    rw [place] at hv
    obtain rfl := Option.some.inj hv
    exact .inr (.inr (ite_self _))
  | _ => rw [place] at hv; cases hv

/-- **With the verdict, everything is as without any interleaving.** -/
theorem Inv.settled {verdict : Verdict} (h : P.Inv s) (hv : s.verdict = some verdict) :
    ∃ k, P.Settled k verdict s.desk ∧ P.Emptied k s.view ∧ ∀ i, s.searches i = (List.range k).map P.bound := by
  have places := System.desk_of_verdict hv
  cases h.stage with
  | between k attending workers =>
    obtain ⟨settled, emptied⟩ := attending.settled places
    exact ⟨k, settled, emptied, fun i => (workers i).2.searches⟩
  | within k idle =>
    rw [idle] at places
    rcases places with place | place | place <;> cases place
  | beyond k done control settled emptied workers =>
    rw [done] at places
    rcases places with place | place | place <;> cases place
    exact ⟨k, settled, emptied, fun i => (workers i).searches⟩

/-- There is at most one verdict. -/
theorem Ends.unique {k l : Nat} {v w : Verdict} (hk : P.Ends k v) (hl : P.Ends l w) : k = l ∧ v = w := by
  obtain ⟨j, rfl, hj⟩ := hk.last
  obtain ⟨n, rfl, hn⟩ := hl.last
  rcases Nat.lt_trichotomy j n with less | same | less
  · rw [hl.before j (Nat.succ_lt_succ less)] at hj
    cases hj
  · subst same
    exact ⟨rfl, Option.some.inj (hj.symm.trans hn)⟩
  · rw [hk.before n (Nat.succ_lt_succ less)] at hn
    cases hn

theorem verdict_did {verdict : Verdict} (hv : s.verdict = some verdict) (does : P.Does s p s') :
    s'.verdict = some verdict := by
  cases does with
  | read | searched | wrote => exact hv
  | finished place =>
    unfold System.verdict at hv
    rw [place] at hv
    exact hv
  | asked place | published place | counted place | took place | merged place | noted place
  | judged place =>
    unfold System.verdict at hv
    rw [place] at hv
    cases hv

/-- A verdict stays. -/
theorem verdict_step {verdict : Verdict} (hv : s.verdict = some verdict) (hs : P.step? p s = some s') :
    s'.verdict = some verdict := by
  obtain ⟨-, waited⟩ | does := waited_or_did hs
  · obtain ⟨passes, barrier, -, rfl⟩ := System.wait?_eq_some waited
    cases passes with
    | false => exact hv
    | true => exact System.verdict_goOn.trans hv
  · exact verdict_did hv does

theorem verdict_run {verdict : Verdict} {interleaving : List (Party numWorkers)}
    (hv : (P.run interleaving).verdict = some verdict) (later : List (Party numWorkers)) :
    (P.run (interleaving ++ later)).verdict = some verdict := by
  induction later using List.reverseRecOn with
  | nil =>
    rw [List.append_nil]
    exact hv
  | append_singleton before p ih =>
    rw [← List.append_assoc, run_append]
    change (P.turn (P.run (interleaving ++ before)) p).verdict = some verdict
    unfold Protocol.turn
    cases hs : P.step? p (P.run (interleaving ++ before)) with
    | none => exact ih
    | some s' => exact verdict_step ih hs

/-! ## No races -/

/-- Nobody interferes with anybody else, and nobody gets stuck. -/
structure RaceFree (P : Protocol numWorkers ω α) : Prop where
  /-- A worker that reads has read for as many rounds as were merged; it is told the bound of what they were
  merged to, which was the last to be published, or that the portfolio has finished. -/
  told : ∀ interleaving i, (P.run interleaving).workers i = .reading →
    let s := P.run interleaving
    let k := (s.reads i).length
    s.control.finished = true ∨
      s.merged = P.solutionsBefore k ∧ s.control.bound = (({} : Incumbent α).merge s.merged).2.bound ∧
        s.published = (List.range (k + 1)).map P.bound ∧ s.control.bound = P.bound k
  /-- So it searches below the bounds of the rounds, one after another. -/
  searches : ∀ interleaving i, ∃ k, (P.run interleaving).searches i = (List.range k).map P.bound
  /-- Each report of a worker is left once and then taken once, before the next one is left. -/
  slots : ∀ interleaving i, ∃ k, (P.run interleaving).slotLog i = P.history i k ∨
    (P.run interleaving).slotLog i = P.history i k ++ [.wrote i (P.report k i)]
  /-- What is taken is merged once, in turn. -/
  merges : ∀ interleaving, (P.run interleaving).MergesTaken
  /-- A worker that leaves a report has left as many reports as were taken and merged. -/
  left : ∀ interleaving i report, (P.run interleaving).workers i = .reporting report →
    ∃ k, report = P.report k i ∧ (P.run interleaving).slotLog i = P.history i k ∧
      (P.run interleaving).merged = P.solutionsBefore k
  /-- As long as anyone is not at its end, somebody can go on. -/
  progress : ∀ interleaving p, (P.run interleaving).ended p = false →
    ∃ q, (P.step? q (P.run interleaving)).isSome
  /-- After the verdict nobody searches, and the verdict stays. -/
  silent : ∀ interleaving later verdict, (P.run interleaving).verdict = some verdict →
    (P.run (interleaving ++ later)).verdict = some verdict ∧
      ∀ i, (P.run (interleaving ++ later)).searches i = (P.run interleaving).searches i
  /-- With the verdict, each report of each round was merged. -/
  settled : ∀ interleaving verdict, (P.run interleaving).verdict = some verdict →
    ∃ k, P.Ends k verdict ∧ (P.run interleaving).merged = P.solutionsBefore k ∧
      (P.run interleaving).improvements = (P.after k).improvements ∧
      (P.run interleaving).statistics = (P.after k).statistics ∧
      ∀ i, (P.run interleaving).slotLog i = P.history i k ∧
        (P.run interleaving).searches i = (List.range k).map P.bound
  /-- Two interleavings report the same improvements one after another, and come to the same. -/
  determined : ∀ interleaving other,
    ((P.run interleaving).improvements <+: (P.run other).improvements ∨
      (P.run other).improvements <+: (P.run interleaving).improvements) ∧
    ∀ verdict verdict', (P.run interleaving).verdict = some verdict → (P.run other).verdict = some verdict' →
      verdict = verdict' ∧ (P.run interleaving).improvements = (P.run other).improvements ∧
        (P.run interleaving).statistics = (P.run other).statistics

/-- **No protocol has races, whatever its workers do.** -/
theorem raceFree (P : Protocol numWorkers ω α) : P.RaceFree where
  told interleaving i place := by
    refine ((inv_run interleaving).reading place).imp_right ?_
    rintro ⟨control, merged, published⟩
    refine ⟨merged, ?_, published, congrArg Control.bound control⟩
    rw [merged, merge_solutionsBefore]
    exact congrArg Control.bound control
  searches interleaving := (inv_run interleaving).searches_eq
  slots interleaving := (inv_run interleaving).slotLog_eq
  merges := mergesTaken_run
  left interleaving i report := (inv_run interleaving).reporting
  progress interleaving p := (inv_run interleaving).exists_step
  silent interleaving later verdict hv := by
    have stays := verdict_run hv later
    obtain ⟨k, settled, -, searches⟩ := (inv_run interleaving).settled hv
    obtain ⟨l, settled', -, searches'⟩ := (inv_run (interleaving ++ later)).settled stays
    obtain ⟨rfl, -⟩ := settled.ends.unique settled'.ends
    exact ⟨stays, fun i => (searches' i).trans (searches i).symm⟩
  settled interleaving verdict hv := by
    obtain ⟨k, settled, emptied, searches⟩ := (inv_run interleaving).settled hv
    exact ⟨k, settled.ends, settled.merged, settled.improvements, settled.statistics,
      fun i => ⟨emptied i, searches i⟩⟩
  determined interleaving other := by
    constructor
    · obtain ⟨k, first⟩ := (inv_run (P := P) interleaving).exists_improvements
      obtain ⟨l, second⟩ := (inv_run (P := P) other).exists_improvements
      -- both are beginnings of what comes of the greater number of rounds
      have first := first.trans (improvements_after_le (Nat.le_max_left k l))
      have second := second.trans (improvements_after_le (Nat.le_max_right k l))
      exact List.prefix_or_prefix_of_prefix first second
    · intro verdict verdict' hv hv'
      obtain ⟨k, settled, -⟩ := (inv_run interleaving).settled hv
      obtain ⟨l, settled', -⟩ := (inv_run other).settled hv'
      obtain ⟨rfl, rfl⟩ := settled.ends.unique settled'.ends
      exact ⟨rfl, settled.improvements.trans settled'.improvements.symm,
        settled.statistics.trans settled'.statistics.symm⟩

end Protocol

/-! ## Portfolios -/

namespace Portfolio
variable {π : Type} [Propagator π] {o : Options} {m : Model π} {signals : Nat → Signals}

/-- After so many rounds the portfolio is what its protocol comes to without any interleaving. -/
structure Matches (p : Portfolio π) (k : Nat) (now : Protocol.Pause o.numWorkers (Nat × Worker π) Solution) :
    Prop where
  workers : p.workers = (List.finRange o.numWorkers).map fun i => (now.states i).2
  rounds : ∀ i, (now.states i).1 = k
  incumbent : p.incumbent = now.incumbent

/-- What a worker does in a round of the protocol. -/
theorem search_protocol (w : Nat × Worker π) (bound : Option Int) :
    (protocol o m signals).search w bound =
      let (solutions, worker) := w.2.round (limits o (signals w.1)) bound
      ({ solutions, status := worker.status, statistics := worker.statistics }, w.1 + 1, worker) := rfl

section
variable {k : Nat}
  (h : Matches ((start o m).afterRounds o signals k) k ((protocol o m signals).after k))
include h

/-- The solutions of a round are those that the workers report, one after another. -/
theorem Matches.foundIn_eq : (start o m).foundIn o signals k =
    (protocol o m signals).solutionsOf k (List.finRange o.numWorkers) := by
  rw [Portfolio.foundIn_eq]
  unfold Protocol.solutionsOf Protocol.report Protocol.bound
  rw [h.workers, h.incumbent, List.flatMap_map]
  refine List.flatMap_congr fun i _ => ?_
  rw [search_protocol, h.rounds i]

theorem Matches.succ : Matches ((start o m).afterRounds o signals (k + 1)) (k + 1)
    ((protocol o m signals).after (k + 1)) := by
  have states (i : Fin o.numWorkers) : ((protocol o m signals).after (k + 1)).states i =
      ((protocol o m signals).search (((protocol o m signals).after k).states i)
        ((protocol o m signals).after k).incumbent.bound).2 := rfl
  refine ⟨?_, fun i => ?_, ?_⟩
  · rw [workers_afterRounds_succ, h.workers, h.incumbent, List.map_map]
    refine List.map_congr_left fun i _ => ?_
    rw [states, search_protocol, h.rounds i]
    rfl
  · rw [states, search_protocol]
    exact congrArg (· + 1) (h.rounds i)
  · rw [incumbent_afterRounds_succ, h.foundIn_eq, h.incumbent]
    rfl

/-- The workers come to the same verdict. -/
theorem Matches.verdict_eq : ((start o m).notesIn o signals k).2 = (protocol o m signals).verdict? k := by
  have statuses : ((start o m).notesIn o signals k).2 = verdict? (limits o (signals k))
      (((start o m).afterRounds o signals k).workers.map fun w =>
        (w.round (limits o (signals k)) ((start o m).afterRounds o signals k).incumbent.bound).2.status) := by
    unfold notesIn round
    dsimp only
    rw [List.map_map, List.map_map]
    rfl
  rw [statuses, h.workers, h.incumbent, List.map_map]
  refine congrArg (verdict? _) (List.map_congr_left fun i _ => ?_)
  unfold Protocol.report Protocol.bound
  rw [search_protocol, h.rounds i]
  rfl

end

theorem matches_after (k : Nat) : Matches ((start o m).afterRounds o signals k) k
    ((protocol o m signals).after k) := by
  induction k with
  | zero =>
    refine ⟨?_, fun _ => rfl, rfl⟩
    change (List.range o.numWorkers).map _ = _
    rw [← List.map_coe_finRange_eq_range, List.map_map]
    rfl
  | succ k ih => exact ih.succ

theorem foundBefore_protocol (k : Nat) : (start o m).foundBefore o signals k =
    (protocol o m signals).solutionsBefore k :=
  List.flatMap_congr fun j _ => (matches_after j).foundIn_eq

/-- The statistics of the workers are those that they reported last. -/
theorem statistics_protocol (k : Nat) : ((start o m).afterRounds o signals (k + 1)).workers.map
    Worker.statistics = (List.finRange o.numWorkers).map ((protocol o m signals).after (k + 1)).statistics := by
  rw [(matches_after (k + 1)).workers, List.map_map]
  rfl

/-- Rounds one after another, until the first of them that has a verdict. -/
theorem run_rounds_of_verdict {p : Portfolio π} (start : p.incumbent = {}) {last : Nat} {verdict : Verdict}
    (ends : (p.notesIn o signals last).2 = some verdict)
    (before : ∀ k, k < last → (p.notesIn o signals k).2 = none) {n k : Nat} (hk : k ≤ last)
    (enough : last < k + n) {told : List Progress} (improvements : told.filterMap Progress.improvement? =
      (({} : Incumbent Solution).merge (p.foundBefore o signals k)).1) :
    let r := (rounds o (asking signals) telling n (p.afterRounds o signals k)).run (k, told)
    r.1 = (p.afterRounds o signals (last + 1), verdict) ∧ r.2.1 = last + 1 ∧
      r.2.2.filterMap Progress.improvement? =
        (({} : Incumbent Solution).merge (p.foundBefore o signals (last + 1))).1 := by
  induction n generalizing k told with
  | zero => exact absurd enough (Nat.not_lt.mpr hk)
  | succ n ih =>
    have next : (told ++ (p.notesIn o signals k).1).filterMap Progress.improvement? =
        (({} : Incumbent Solution).merge (p.foundBefore o signals (k + 1))).1 := by
      rw [List.filterMap_append, improvements, improvements_notesIn, incumbent_afterRounds start,
        foundBefore_succ, Incumbent.merge_append]
    have round {verdict : Option Verdict} (h : (p.notesIn o signals k).2 = verdict) :
        (p.afterRounds o signals k).round (limits o (signals k)) =
          (p.afterRounds o signals (k + 1), (p.notesIn o signals k).1, verdict) := h ▸ rfl
    rcases Nat.lt_or_eq_of_le hk with less | rfl
    · rw [run_rounds_of_none (round (before k less))]
      exact ih less (by omega) next
    · rw [run_rounds_of_some (round ends)]
      exact ⟨rfl, rfl, next⟩

/-- **A portfolio has no races and never gets stuck.**  Whatever the workers do in their rounds, and however
the parties of the protocol are interleaved: a worker searches each round below the bound of what was merged
from all rounds before, each report is taken and merged once before the next one is left, somebody can go on
as long as anyone is not at its end, nobody searches after the verdict, and the improvements, the verdict and
the statistics do not depend on the interleaving.  With the workers of a portfolio they are those of its
rounds one after another. -/
theorem protocol_race_free :
    (∀ (numWorkers : Nat) (ω α : Type) (P : Protocol numWorkers ω α), P.RaceFree) ∧
    ∀ (π : Type) [Propagator π] (o : Options) (m : Model π) (signals : Nat → Signals)
      (interleaving : List (Party o.numWorkers)) (verdict : Verdict),
      let s := (protocol o m signals).run interleaving
      s.verdict = some verdict → ∃ numRounds, ∀ n, numRounds ≤ n →
        let r := (rounds o (asking signals) telling n (start o m)).run (0, startNotes o (start o m))
        r.1.2 = verdict ∧ r.2.1 = numRounds ∧ r.2.2.filterMap Progress.improvement? = s.improvements ∧
          r.1.1.workers.map Worker.statistics = (List.finRange o.numWorkers).map s.statistics := by
  refine ⟨fun _ _ _ => Protocol.raceFree, fun π _ o m signals interleaving verdict => ?_⟩
  intro s hv
  obtain ⟨k, ends, -, improvements, statistics, -⟩ :=
    (Protocol.raceFree (protocol o m signals)).settled interleaving verdict hv
  obtain ⟨last, rfl, hlast⟩ := ends.last
  refine ⟨last + 1, fun n enough => ?_⟩
  have first : (startNotes o (start o m)).filterMap Progress.improvement? =
      (({} : Incumbent Solution).merge ((start o m).foundBefore o signals 0)).1 := improvements_startNotes
  obtain ⟨result, numRounds, told⟩ := run_rounds_of_verdict rfl ((matches_after last).verdict_eq.trans hlast)
    (fun j hj => (matches_after j).verdict_eq.trans (ends.before j (Nat.succ_lt_succ hj)))
    (Nat.zero_le last) (by rw [Nat.zero_add]; exact enough) first
  refine ⟨congrArg Prod.snd result, numRounds, told.trans ?_, ?_⟩
  · rw [foundBefore_protocol, Protocol.merge_solutionsBefore]
    exact improvements.symm
  · rw [show ((rounds o (asking signals) telling n (start o m)).run (0, startNotes o (start o m))).1.1 =
      (start o m).afterRounds o signals (last + 1) from congrArg Prod.fst result, statistics_protocol]
    exact congrArg (List.map · _) statistics.symm

/-- Two workers and their coordinator who go on in turn, until they have come to a verdict. -/
theorem protocol_race_free_copyModel :
    let s := (protocol { numWorkers := 2, syncInterval := 1 } copyModel fun _ => {}).run
      (List.replicate 60 [none, some 0, some 1]).flatten
    s.verdict = some .exhausted ∧
      ∃ numRounds, (StateT.run (rounds { numWorkers := 2, syncInterval := 1 } (asking fun _ => {}) telling
        numRounds (start { numWorkers := 2, syncInterval := 1 } copyModel))
          (0, startNotes { numWorkers := 2, syncInterval := 1 }
            (start { numWorkers := 2, syncInterval := 1 } copyModel))).1.2 = .exhausted := by
  intro s
  have verdict : s.verdict = some .exhausted := by decide +kernel
  obtain ⟨numRounds, same⟩ := protocol_race_free.2 Constraint _ copyModel (fun _ => {}) _ _ verdict
  exact ⟨verdict, numRounds, (same numRounds (Nat.le_refl _)).1⟩

end Portfolio
end BranchBound
