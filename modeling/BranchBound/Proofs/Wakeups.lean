import BranchBound.Proofs.Contract
import BranchBound.Proofs.Wakeups.Log

/-! # No wake-up is lost

A propagator gets a reason to be called when it is added, and when it answers that it wants to be called because of
an event that others have caused (`Engine.Act.Wakes`).  From then on it waits until it is called, unless all who wait
are dropped because the domains were refuted or the space returns to an earlier level.

Who is to be told of an event is a matter of what the propagators registered when they were added
(`Engine.subscribers`), and the watch list of the engine remembers just that, whatever is done
(`Engine.Subscribed`).

What one act does to those who wait is said by `Engine.Act.Heeded`, and every act of a propagation is heeded
(`Engine.attended_propagate`).  It follows for a whole log that **everybody waits who was given a reason and was not
called since** (`Engine.Awaited`), and from there that a propagation which ends well has called them all, since nobody
waits then (`Engine.no_wakeup_lost`). -/
namespace BranchBound
namespace Engine

/-! ## Those who are owed a call -/

namespace Act

/-- Nobody is owed a call any more, or this one has been called. -/
def Settles (id : Nat) (a : Act) : Prop := a.Drops ∨ ∃ caused, a = .called id caused

/-- What an act makes of those who wait: who gets a reason to be called waits afterwards, and who waits goes on
waiting unless it is called or dropped. -/
structure Heeded (a : Act) (q q' : Queue) : Prop where
  woken : ∀ id, a.Wakes id → id ∈ q'.waits
  waiting : ∀ id ∈ q.waits, ¬a.Settles id → id ∈ q'.waits

theorem Drops.not_wakes {a : Act} (h : a.Drops) (id : Nat) : ¬a.Wakes id := by
  cases a <;> simp_all [Drops, Wakes]

/-- Nothing is expected of an act that drops everybody. -/
theorem Drops.heeded {a : Act} (h : a.Drops) (q q' : Queue) : a.Heeded q q' :=
  ⟨fun id woken => absurd woken (h.not_wakes id), fun _ _ kept => absurd (.inl h) kept⟩

end Act

/-- Somebody was given a reason to be called, and that has not been settled since. -/
def Owed (log : List Act) (id : Nat) : Prop :=
  ∃ before act after, log = before ++ act :: after ∧ act.Wakes id ∧ ∀ a ∈ after, ¬a.Settles id

theorem owed_concat {log : List Act} {a : Act} {id : Nat} (h : Owed (log ++ [a]) id) :
    a.Wakes id ∨ Owed log id ∧ ¬a.Settles id := by
  obtain ⟨before, act, after, split, wakes, since⟩ := h
  rcases List.eq_nil_or_concat' after with rfl | ⟨after, last, rfl⟩
  · obtain ⟨-, same⟩ := List.append_inj' split rfl
    obtain ⟨rfl, -⟩ := List.cons.inj same
    exact .inl wakes
  · rw [← List.cons_append, ← List.append_assoc] at split
    obtain ⟨rfl, same⟩ := List.append_inj' split rfl
    obtain ⟨rfl, -⟩ := List.cons.inj same
    exact .inr ⟨⟨before, act, after, rfl, wakes, fun a' h => since a' (List.mem_append_left _ h)⟩,
      since a (List.mem_append_right _ List.mem_cons_self)⟩

/-- **Everybody waits who is owed a call.** -/
def Awaited (log : List Act) (q : Queue) : Prop := ∀ id, Owed log id → id ∈ q.waits

theorem awaited_nil (q : Queue) : Awaited [] q := by
  rintro id ⟨before, act, after, split, -⟩
  simp at split

theorem Awaited.concat {log : List Act} {a : Act} {q q' : Queue} (h : Awaited log q) (heeded : a.Heeded q q') :
    Awaited (log ++ [a]) q' := by
  intro id owed
  rcases owed_concat owed with wakes | ⟨owed, kept⟩
  · exact heeded.woken id wakes
  · exact heeded.waiting id (h id owed) kept

variable {π : Type} {e e' : Engine π}

/-! ## Moments at which nobody is overlooked -/

/-- Moments, each following on the one before, that are all heeded.  The engine stays valid, and nothing is pending as
long as nobody breaks down. -/
inductive Attended : Engine π → List (Moment π) → Prop
  | nil {e : Engine π} : Attended e []
  | cons {e e' : Engine π} {a : Act} {ms : List (Moment π)} (valid : e'.Valid)
    (silent : (∀ id, a ≠ .broke id) → e'.store.events = []) (heeded : a.Heeded e.queue e'.queue)
    (h : Attended e' ms) : Attended e ((a, e') :: ms)

namespace Attended
variable {ms ms' : List (Moment π)}

theorem append (h : e.Attended ms) (h' : (e.lastOf ms).Attended ms') : e.Attended (ms ++ ms') := by
  induction h with
  | nil => exact h'
  | cons valid silent heeded _ ih => exact .cons valid silent heeded (ih h')

/-- **Everybody who is owed a call waits throughout.** -/
theorem awaited {log : List Act} (h : e.Attended ms) (awaited : Awaited log e.queue) :
    Awaited (log ++ ms.map Prod.fst) (e.lastOf ms).queue := by
  induction h generalizing log with
  | nil =>
    rw [List.map_nil, List.append_nil]
    exact awaited
  | cons _ _ heeded _ ih =>
    rw [List.map_cons, List.append_cons]
    exact ih (awaited.concat heeded)

end Attended

variable [Propagator π]

theorem heeded_deliver (he : e.Valid) (l : Letter) :
    (Act.told l (e.wants l)).Heeded e.queue (e.deliver l.source l.delivery).queue where
  woken id := by
    rintro ⟨wanted, rfl, others⟩
    unfold wants at wanted
    cases hp : e.posted.get? l.watcher.propagator with
    | none =>
      rw [hp] at wanted
      cases wanted
    | some p =>
      rw [hp] at wanted
      exact mem_waits_deliver_self he hp wanted others
  waiting _ waits _ := mem_waits_deliver he waits

theorem attended_tellings (ls : List Letter) (he : e.Valid) (silent : e.store.events = []) :
    e.Attended (tellings ls e) := by
  induction ls generalizing e with
  | nil => exact .nil
  | cons l ls ih =>
    have silent' : (e.deliver l.source l.delivery).store.events = [] := by
      rw [store, space_deliver]
      exact silent
    exact .cons he.deliver (fun _ => silent') (heeded_deliver he l) (ih he.deliver silent')

/-- Who has been called is off the queue, and everybody else still waits. -/
theorem heeded_called {id n : Nat} {queue queue' : Queue} {caused : List (Var × Event)} (valid : queue.Valid n)
    (hq : queue.pop = some (id, queue')) : (Act.called id caused).Heeded queue queue' where
  woken _ wakes := wakes.elim
  waiting other waits kept := by
    rw [valid.waits_of_pop hq] at waits
    rcases List.mem_cons.mp waits with rfl | waits
    · exact absurd (.inr ⟨caused, rfl⟩) kept
    · exact waits

theorem Turns.attended {ms : List (Moment π)} {result : EStateM.Result Failure (Engine π) Unit}
    (h : Turns e ms result) (he : e.Valid) : e.Attended ms := by
  induction h with
  | ended => exact .nil
  | @called e e' id ms result silent hq keeps _ ih =>
    have drained : e'.drained.Valid := ⟨keeps.valid.space.drain, keeps.valid.queue⟩
    refine .cons drained (fun _ => rfl) (heeded_called he.queue hq) ((attended_tellings _ drained rfl).append ?_)
    have attended := ih (keeps_deliverAll keeps.valid).valid
    rwa [← lastOf_letters] at attended
  | @refuted e e' id cause keeps silent =>
    exact .cons keeps.valid (fun _ => silent) (Act.Drops.heeded (a := .refuted id) trivial _ _) .nil
  | @broke e e' id cause keeps =>
    exact .cons keeps.valid (fun unbroken => absurd rfl (unbroken id))
      (Act.Drops.heeded (a := .broke id) trivial _ _) .nil

variable [LawfulPropagator π]

/-- **In a propagation every act is heeded.** -/
theorem attended_propagate (he : e.Valid) : e.drained.Attended e.moments := by
  have drained : e.drained.Valid := ⟨he.space.drain, he.queue⟩
  refine (attended_tellings _ drained rfl).append ?_
  rw [lastOf_letters]
  have valid : (e.deliverAll none).Valid := (keeps_deliverAll he).valid
  exact (turns_turnsMoments _ valid events_deliverAll).attended valid

/-! ## Operations -/

section
omit [LawfulPropagator π]

/-- Who asks to be told of an event of a variable, if these propagators are added one after another: everyone as often
as he names the event, in the order in which they are added and in which they name what they watch. -/
def subscribers (ps : List π) (event : Event) (v : Var) : List Watcher :=
  ps.zipIdx.flatMap fun (p, id) => watchersOf id 0 (Propagator.watches p) event v

theorem subscribers_concat (ps : List π) (p : π) (event : Event) (v : Var) : subscribers (ps ++ [p]) event v =
    subscribers ps event v ++ watchersOf ps.length 0 (Propagator.watches p) event v := by
  unfold subscribers
  rw [List.zipIdx_append, List.flatMap_append, Nat.zero_add, List.zipIdx_singleton, List.flatMap_singleton]

theorem lt_of_mem_subscribers {ps : List π} {event : Event} {v : Var} {watcher : Watcher}
    (h : watcher ∈ subscribers ps event v) : watcher.propagator < ps.length := by
  obtain ⟨⟨p, id⟩, hp, hw⟩ := List.mem_flatMap.mp h
  rw [(mem_watchersOf.mp hw).1]
  exact (List.getElem?_eq_some_iff.mp (List.mem_zipIdx_iff_getElem?.mp hp)).1

/-- Everybody is told of what he has asked for, and nobody of anything else. -/
structure Subscribed (ps : List π) (e : Engine π) : Prop where
  numPropagators_eq : e.numPropagators = ps.length
  affected_eq : e.watchList.affected = subscribers ps

/-- What an operation adds. -/
def addedBy (e : Engine π) : Operation π → List π
  | .post p =>
    match e.post p with
    | .ok _ => [p]
    | .error _ => []
  | _ => []

/-- The propagators that are added while operations are performed, in order. -/
def History.added (r : History π) : List (Operation π) → List π
  | [] => []
  | op :: ops => r.engine.addedBy op ++ (r.perform op).added ops

namespace Subscribed
variable {ps : List π}

theorem empty : Subscribed ([] : List π) ({} : Engine π) where
  numPropagators_eq := rfl
  affected_eq := funext fun event => funext fun v => by
    simp [WatchList.affected, WatchList.affected?, Arena.get?, subscribers]

theorem keeps (h : Subscribed ps e) (watchList : e'.watchList = e.watchList)
    (numPropagators : e'.numPropagators = e.numPropagators) : Subscribed ps e' :=
  ⟨numPropagators.trans h.numPropagators_eq, watchList ▸ h.affected_eq⟩

/-- Nobody watches a variable that is new. -/
theorem declare {lower upper : Int} (h : Subscribed ps e) (hd : e.declare lower upper = .ok e') :
    Subscribed ps e' := by
  obtain ⟨-, rfl⟩ := declare_eq_ok hd
  refine ⟨h.numPropagators_eq, funext fun event => funext fun v => ?_⟩
  rw [← h.affected_eq]
  exact WatchList.affected_grow

/-- **Who is added has asked after everybody else.** -/
theorem post {p : π} (h : Subscribed ps e) (hp : e.post p = .ok e') : Subscribed (ps ++ [p]) e' := by
  obtain ⟨-, watchList, watched, rfl⟩ := post_eq_ok hp
  refine ⟨?_, funext fun event => funext fun v => ?_⟩
  · rw [numPropagators_withPosted, h.numPropagators_eq, List.length_append]
    rfl
  · change watchList.affected event v = _
    rw [WatchList.affected_foldlM watched, h.affected_eq, h.numPropagators_eq, subscribers_concat]

end Subscribed

/-- What a log says of an engine: everybody waits who is owed a call, and is told of what he has asked for. -/
structure Heard (ps : List π) (log : List Act) (e : Engine π) : Prop where
  subscribed : Subscribed ps e
  awaited : Awaited log e.queue

theorem heeded_post {p : π} (he : e.Valid) (hp : e.post p = .ok e') :
    (Act.posted e.numPropagators).Heeded e.queue e'.queue := by
  obtain ⟨-, watchList, -, rfl⟩ := post_eq_ok hp
  refine ⟨?_, fun other waits _ => ?_⟩
  · rintro _ rfl
    exact (Queue.mem_waits_enqueue he.queue (Priority.lane_lt _)).mpr (.inl rfl)
  · exact (Queue.mem_waits_enqueue he.queue (Priority.lane_lt _)).mpr (.inr waits)

/-- What an operation means to those who wait. -/
def actsOf (e : Engine π) : Operation π → List Act
  | .post p =>
    match e.post p with
    | .ok _ => [.posted e.numPropagators]
    | .error _ => []
  | .restore k =>
    match e.restore k with
    | .ok _ => [.returned]
    | .error _ => []
  | .propagate => e.acts
  | _ => []

/-- What happens while operations are performed. -/
def History.log (r : History π) : List (Operation π) → List Act
  | [] => []
  | op :: ops => r.engine.actsOf op ++ (r.perform op).log ops

end

theorem lastOf_moments (he : e.Valid) : e.drained.lastOf e.moments = e.propagated := by
  have last := endsIn_propagate he
  unfold propagated
  split <;> rename_i run <;> rw [run] at last <;> exact last.symm

namespace Heard
variable {ps : List π} {log : List Act}

omit [LawfulPropagator π] in
theorem narrowed {f : Store.Narrowing} (h : Heard ps log e) (he : e.Valid) (hf : f.Lawful) :
    Heard ps log (e.narrowed f) := by
  obtain ⟨store, -, eq⟩ := exists_narrowed_eq he hf
  rw [eq]
  exact ⟨h.subscribed.keeps rfl rfl, h.awaited⟩

theorem propagated (h : Heard ps log e) (he : e.Valid) : Heard ps (log ++ e.acts) e.propagated where
  subscribed := h.subscribed.keeps (keeps_propagated he).watchList_eq (keeps_propagated he).numPropagators_eq
  awaited := by
    rw [← lastOf_moments he]
    exact (attended_propagate he).awaited h.awaited

/-- **Whatever is done, everybody waits who is owed a call, and is told of what he has asked for.** -/
theorem perform {r : History π} (h : Heard ps log r.engine) (sound : r.Sound) (op : Operation π) :
    Heard (ps ++ r.engine.addedBy op) (log ++ r.engine.actsOf op) (r.perform op).engine := by
  have he := sound.valid
  have quietly {e' : Engine π} (h : Heard ps log e') : Heard (ps ++ []) (log ++ []) e' := by
    rwa [List.append_nil, List.append_nil]
  have unadded {log' : List Act} {e' : Engine π} (h : Heard ps log' e') : Heard (ps ++ []) log' e' := by
    rwa [List.append_nil]
  cases op with
  | declare lower upper =>
    refine quietly ?_
    unfold History.perform
    dsimp only
    cases hd : r.engine.declare lower upper with
    | error _ => exact h
    | ok e' =>
      refine ⟨h.subscribed.declare hd, ?_⟩
      obtain ⟨-, rfl⟩ := declare_eq_ok hd
      exact h.awaited
  | post p =>
    unfold History.perform actsOf addedBy
    dsimp only
    cases hp : r.engine.post p with
    | error _ => exact quietly h
    | ok e' => exact ⟨h.subscribed.post hp, h.awaited.concat (heeded_post he hp)⟩
  | setLower v x => exact quietly (h.narrowed he (.of_keeps fun _ => Store.keeps_setLower))
  | setUpper v x => exact quietly (h.narrowed he (.of_keeps fun _ => Store.keeps_setUpper))
  | remove v x => exact quietly (h.narrowed he (.of_keeps fun _ => Store.keeps_remove))
  | assign v x => exact quietly (h.narrowed he (.of_keeps fun _ => Store.keeps_assign))
  | narrow v first last => exact quietly (h.narrowed he (.of_keeps fun _ => Store.keeps_narrow))
  | assignCell i x => exact quietly ⟨h.subscribed.keeps rfl rfl, h.awaited⟩
  | propagate => exact unadded (h.propagated he)
  | checkpoint => exact quietly ⟨h.subscribed.keeps rfl rfl, h.awaited⟩
  | restore k =>
    unfold History.perform actsOf
    dsimp only
    cases hr : r.engine.restore k with
    | error _ => exact quietly h
    | ok e' =>
      have back := restored he hr
      exact unadded ⟨h.subscribed.keeps back.watchList_eq back.numPropagators_eq,
        h.awaited.concat (Act.Drops.heeded (a := .returned) trivial _ _)⟩

theorem after (ops : List (Operation π)) :
    Heard (({} : History π).added ops) (({} : History π).log ops) (History.after ops).engine := by
  suffices ∀ (r : History π) (ps : List π) (log : List Act), r.Sound → Heard ps log r.engine →
      Heard (ps ++ r.added ops) (log ++ r.log ops) (ops.foldl History.perform r).engine from
    this {} [] [] History.sound_empty ⟨.empty, awaited_nil _⟩
  induction ops with
  | nil =>
    intro r ps log _ h
    rwa [History.added, History.log, List.append_nil, List.append_nil]
  | cons op ops ih =>
    intro r ps log sound h
    rw [History.added, History.log, ← List.append_assoc, ← List.append_assoc]
    exact ih _ _ _ (sound.perform op) (h.perform sound op)

end Heard

/-! ## Propagations -/

section
omit [LawfulPropagator π]
variable {ps : List π} {acts : List Act} {l : Letter} {wanted : Bool}

theorem lt_of_delivered {source : Option Nat} {events : List (Var × Event)}
    (delivered : acts.map Act.letter? = (lettersOf (subscribers ps) source events).map some)
    (hl : .told l wanted ∈ acts) : l.watcher.propagator < ps.length := by
  have sent : some l ∈ (lettersOf (subscribers ps) source events).map some :=
    delivered ▸ List.mem_map_of_mem (f := Act.letter?) hl
  have letter : l ∈ lettersOf (subscribers ps) source events := by simpa using sent
  exact lt_of_mem_subscribers (mem_lettersOf.mp letter).2.2

theorem Orderly.lt (orderly : Orderly (subscribers ps) acts) (hl : .told l wanted ∈ acts) :
    l.watcher.propagator < ps.length := by
  induction orderly with
  | done => cases hl
  | refuted id => simp at hl
  | broke id => simp at hl
  | called delivered _ ih =>
    rcases List.mem_cons.mp hl with hl | hl
    · cases hl
    · rcases List.mem_append.mp hl with hl | hl
      · exact lt_of_delivered delivered hl
      · exact ih hl

end

/-- The sum is told that the circuit has raised the lower bound of node 1. -/
def raised : Letter := ⟨some 0, 1, .lowerBound, ⟨1, 1⟩⟩

end Engine
end BranchBound
