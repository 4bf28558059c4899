import BranchBound.Proofs.Backtracking

/-! # What happens while an engine propagates

A propagation is seen as a sequence of acts (`Engine.Act`): somebody is told of an event, or somebody is called.
Each of them is taken down together with the engine as it is right afterwards (`Engine.moments`), in the order in
which they happen, and **the last of these engines is the one that propagation comes to**
(`Engine.endsIn_propagate`).

An event is sent as a letter to each of its watchers (`lettersOf`).  All letters are delivered before anybody
is called: those of the events that are pending at first, and after each call those of the events that it has caused
(`Engine.Orderly`, `Engine.orderly_propagate`).  The reason is that **nothing is pending when somebody is called**, so
the events that are delivered afterwards are those of the call.  What is said of all turns is proved by induction on
the turns that there are (`Engine.Turns`). -/
namespace BranchBound

/-- An event of a variable, on the way from who has caused it to one of its watchers. -/
structure Letter where
  /-- Who has caused it, unless it came from outside. -/
  source : Option Nat
  var : Var
  event : Event
  watcher : Watcher
  deriving Repr, DecidableEq

def Letter.delivery (l : Letter) : Engine.Delivery := ⟨l.watcher, l.event⟩

/-- The letters that tell of some events, one to each watcher who is to be told of an event of a variable. -/
def lettersOf (told : Event → Var → List Watcher) (source : Option Nat) (events : List (Var × Event)) :
    List Letter :=
  events.flatMap fun (v, event) => (told event v).map fun watcher => ⟨source, v, event, watcher⟩

theorem mem_lettersOf {told : Event → Var → List Watcher} {source : Option Nat} {events : List (Var × Event)}
    {l : Letter} : l ∈ lettersOf told source events ↔
      l.source = source ∧ (l.var, l.event) ∈ events ∧ l.watcher ∈ told l.event l.var := by
  obtain ⟨from_, v, event, watcher⟩ := l
  simp only [lettersOf, List.mem_flatMap, List.mem_map, Letter.mk.injEq]
  constructor
  · rintro ⟨⟨u, e⟩, he, x, hx, rfl, rfl, rfl, rfl⟩
    exact ⟨rfl, he, hx⟩
  · rintro ⟨rfl, he, hx⟩
    exact ⟨(v, event), he, watcher, hx, rfl, rfl, rfl, rfl⟩

namespace Engine

/-! ## Acts -/

/-- What can happen to those who wait to be called. -/
inductive Act
  /-- A propagator is added. -/
  | posted (id : Nat)
  /-- The space returns to an earlier level. -/
  | returned
  /-- A letter is delivered, and answered by whether the watcher wants to be called. -/
  | told (letter : Letter) (wanted : Bool)
  /-- A propagator is called, and causes events. -/
  | called (id : Nat) (caused : List (Var × Event))
  /-- A propagator is called, and refutes the domains. -/
  | refuted (id : Nat)
  /-- A propagator is called, and breaks down. -/
  | broke (id : Nat)
  deriving Repr, DecidableEq

namespace Act

/-- The letter that is delivered. -/
def letter? : Act → Option Letter
  | .told letter _ => some letter
  | _ => none

/-- Somebody gets a reason to be called: it is new, or wants to be called because of what others have done. -/
def Wakes (id : Nat) : Act → Prop
  | .posted new => new = id
  | .told letter wanted => wanted = true ∧ letter.watcher.propagator = id ∧ letter.source ≠ some id
  | _ => False

/-- Nobody waits any more, or nothing can be expected of the engine any more. -/
def Drops : Act → Prop
  | .returned | .refuted _ | .broke _ => True
  | _ => False

instance : DecidablePred Drops
  | .returned | .refuted _ | .broke _ => .isTrue trivial
  | .posted _ | .told _ _ | .called _ _ => .isFalse id

end Act

/-- An act, with the engine right after it. -/
abbrev Moment (π : Type) := Act × Engine π

/-- The engine after the last of some moments. -/
def lastOf {π : Type} (e : Engine π) (ms : List (Moment π)) : Engine π := ms.foldl (fun _ m => m.2) e

theorem lastOf_append {π : Type} (e : Engine π) (ms ms' : List (Moment π)) :
    e.lastOf (ms ++ ms') = (e.lastOf ms).lastOf ms' := List.foldl_append

/-- The engine when its events have been read off. -/
def drained {π : Type} (e : Engine π) : Engine π := { e with space := e.space.drain }

/-- The events that were added to those that were pending. -/
def added {π : Type} (e e' : Engine π) : List (Var × Event) := e'.store.pending.drop e.store.pending.length

variable {π : Type} [Propagator π]

/-- Whether the watcher of a letter answers that it wants to be called. -/
def wants (e : Engine π) (l : Letter) : Bool :=
  match e.posted.get? l.watcher.propagator with
  | none => false
  | some p => (Propagator.notify p.propagator e.space l.watcher.position l.event).2

/-! ## Moments -/

/-- Letters are delivered one after the other. -/
def tellings : List Letter → Engine π → List (Moment π)
  | [], _ => []
  | l :: ls, e => (.told l (e.wants l), e.deliver l.source l.delivery) :: tellings ls (e.deliver l.source l.delivery)

/-- The propagator whose turn it is is called, and what it has caused is delivered. -/
def turnMoments (e : Engine π) : List (Moment π) :=
  match e.queue.pop with
  | none => []
  | some (id, queue) =>
    match e.posted.get? id with
    | none => []
    | some p =>
      match Propagator.propagate p.propagator e.space with
      | .ok _ after =>
        let e' := ({ e with queue } : Engine π).called id p after
        (.called id (e.added e'), e'.drained) ::
          tellings (lettersOf e'.watchList.affected (some id) e'.store.pending) e'.drained
      | .error (.inconsistent cause) after =>
        [(.refuted id, (({ e with queue } : Engine π).called id p after).abandon id cause)]
      | .error (.fault _) after => [(.broke id, ({ e with queue } : Engine π).called id p after)]

/-- The moments of at most `n` turns. -/
def turnsMoments : Nat → Engine π → List (Moment π)
  | 0, _ => []
  | n + 1, e =>
    e.turnMoments ++
      match e.turn with
      | .ok true e' => turnsMoments n e'
      | .ok false _ | .error _ _ => []

/-- The moments of a propagation: what is pending is delivered, and then everybody has its turn. -/
def moments (e : Engine π) : List (Moment π) :=
  tellings (lettersOf e.watchList.affected none e.store.pending) e.drained ++
    turnsMoments (potential (e.deliverAll none) + 1) (e.deliverAll none)

/-- What happens in a propagation. -/
def acts (e : Engine π) : List Act := e.moments.map Prod.fst

variable {e e' : Engine π} {ms : List (Moment π)} {result : EStateM.Result Failure (Engine π) Unit}

/-! ## Letters -/

omit [Propagator π] in
theorem added_of_silent (silent : e.store.events = []) : e.added e' = e'.store.pending := by
  unfold added Store.pending
  rw [silent]
  rfl

theorem letters_tellings (ls : List Letter) (e : Engine π) :
    ((tellings ls e).map Prod.fst).map Act.letter? = ls.map some := by
  induction ls generalizing e with
  | nil => rfl
  | cons l ls ih =>
    rw [tellings, List.map_cons, List.map_cons, ih]
    rfl

theorem lastOf_tellings (ls : List Letter) (e : Engine π) :
    e.lastOf (tellings ls e) = ls.foldl (fun e l => e.deliver l.source l.delivery) e := by
  induction ls generalizing e with
  | nil => rfl
  | cons l ls ih => exact ih _

/-- The letters are what is delivered. -/
theorem lastOf_letters (source : Option Nat) (e : Engine π) :
    e.drained.lastOf (tellings (lettersOf e.watchList.affected source e.store.pending) e.drained) =
      e.deliverAll source := by
  have sent : e.deliveries = (lettersOf e.watchList.affected source e.store.pending).map Letter.delivery := by
    unfold deliveries lettersOf
    rw [List.map_flatMap]
    refine congrArg (List.flatMap · _) (funext fun x => ?_)
    rw [List.map_map]
    rfl
  have same (ls : List Letter) (h : ∀ l ∈ ls, l.source = source) (e : Engine π) :
      ls.foldl (fun e l => e.deliver l.source l.delivery) e = (ls.map Letter.delivery).foldl (deliver source) e := by
    induction ls generalizing e with
    | nil => rfl
    | cons l ls ih =>
      rw [List.foldl_cons, List.map_cons, List.foldl_cons, h l List.mem_cons_self]
      exact ih (fun l hl => h l (List.mem_cons_of_mem _ hl)) _
  rw [lastOf_tellings, same _ fun l hl => (mem_lettersOf.mp hl).1, ← sent]
  rfl

/-! ## Turns -/

/-- Turns in a row, with their moments and what they come to.  Nothing is pending when somebody is called. -/
inductive Turns : Engine π → List (Moment π) → EStateM.Result Failure (Engine π) Unit → Prop
  | ended {e : Engine π} : Turns e [] (.ok () e)
  | called {e e' : Engine π} {id : Nat} {ms : List (Moment π)} {result : EStateM.Result Failure (Engine π) Unit}
    (silent : e.store.events = []) (hq : e.queue.pop = some (id, e'.queue)) (keeps : e.Keeps e')
    (rest : Turns (e'.deliverAll (some id)) ms result) :
    Turns e ((.called id (e.added e'), e'.drained) ::
      (tellings (lettersOf e'.watchList.affected (some id) e'.store.pending) e'.drained ++ ms)) result
  | refuted {e e' : Engine π} {id : Nat} {cause : Inconsistency} (keeps : e.Keeps e')
    (silent : e'.store.events = []) : Turns e [(.refuted id, e')] (.error (.refuted (some id) cause) e')
  | broke {e e' : Engine π} {id : Nat} {cause : Fault} (keeps : e.Keeps e') :
    Turns e [(.broke id, e')] (.error (.fault cause) e')

/-- **The moments of turns are those of the turns that there are.** -/
theorem turns_turnsMoments [LawfulPropagator π] (n : Nat) (he : e.Valid) (silent : e.store.events = []) :
    Turns e (turnsMoments n e) (repeatAtMost turn n e) := by
  induction n generalizing e with
  | zero => exact .ended
  | succ n ih =>
    unfold turnsMoments turnMoments repeatAtMost turn
    cases hq : e.queue.pop with
    | none => exact .ended
    | some next =>
      obtain ⟨id, queue⟩ := next
      obtain ⟨p, hp⟩ := posted_eq_some (he.queue.pop hq).2
      have popped := Keeps.popped he hq
      have narrowed := LawfulPropagator.narrows p.propagator he.space
      have keeps {after : π × Space} (h : e.space.Narrows (fun _ => True) after.2) :
          e.Keeps (called { e with queue } id p after) := popped.trans (keeps_called popped.valid h)
      dsimp only
      rw [hp]
      dsimp only
      unfold call
      dsimp only
      cases run : Propagator.propagate p.propagator e.space with
      | ok _ after =>
        have kept := keeps (narrowed.of_ok run)
        exact .called silent hq kept (ih (keeps_deliverAll kept.valid).valid events_deliverAll)
      | error halt after =>
        have kept := keeps (narrowed.of_error run)
        cases halt with
        | inconsistent cause => exact .refuted (kept.trans (keeps_abandon kept.valid cause)) rfl
        | fault cause => exact .broke kept

/-- The last moment is what the turns come to. -/
theorem Turns.endsIn (h : Turns e ms result) : EndsIn (· = e.lastOf ms) result := by
  induction h with
  | ended => rfl
  | @called e e' id ms result _ _ _ _ ih =>
    change EndsIn (· = e'.drained.lastOf (_ ++ ms)) result
    rw [lastOf_append, lastOf_letters]
    exact ih
  | refuted => rfl
  | broke => rfl

/-! ## The order of events -/

/-- Calls, after each of which the letters of the events that it has caused are delivered.  A call that refutes or
breaks down is the last. -/
inductive Orderly (told : Event → Var → List Watcher) : List Act → Prop
  | done : Orderly told []
  | refuted (id : Nat) : Orderly told [.refuted id]
  | broke (id : Nat) : Orderly told [.broke id]
  | called {id : Nat} {caused : List (Var × Event)} {answers rest : List Act}
    (delivered : answers.map Act.letter? = (lettersOf told (some id) caused).map some) (h : Orderly told rest) :
    Orderly told (.called id caused :: (answers ++ rest))

theorem Turns.orderly (h : Turns e ms result) : Orderly e.watchList.affected (ms.map Prod.fst) := by
  induction h with
  | ended => exact .done
  | refuted => exact .refuted _
  | broke => exact .broke _
  | @called e e' id ms result silent _ keeps _ ih =>
    have watchList := keeps.watchList_eq
    rw [List.map_cons, List.map_append]
    refine .called ?_ ?_
    · rw [added_of_silent silent, ← watchList]
      exact letters_tellings _ _
    · rw [← watchList, ← (keeps_deliverAll keeps.valid).watchList_eq]
      exact ih

variable [LawfulPropagator π]

/-- **The last moment of a propagation is what it comes to.** -/
theorem endsIn_propagate (he : e.Valid) : EndsIn (· = e.drained.lastOf e.moments) e.propagate := by
  unfold moments
  rw [lastOf_append, lastOf_letters]
  exact (turns_turnsMoments _ (keeps_deliverAll he).valid events_deliverAll).endsIn

end Engine
end BranchBound
