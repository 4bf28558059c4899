import BranchBound.Arena
import BranchBound.Event
import BranchBound.Fault

/-! # Watch lists

For every variable, who wants to be told about which of its events.  Watchers are told in
the order in which they registered; one that registered twice is told twice. -/
namespace BranchBound

/-- Who is told: a propagator, and the position of the variable among those that it watches. -/
structure Watcher where
  propagator : Nat
  position : Nat
  deriving Repr, DecidableEq

structure Registration where
  watcher : Watcher
  events : List Event
  deriving Repr, DecidableEq

structure WatchList where
  /-- By variable, in order of registration. -/
  registrations : Arena (List Registration) := {}
  deriving Repr, DecidableEq

namespace WatchList

instance : Inhabited WatchList := ⟨{}⟩

variable (w : WatchList)

/-- Adds a variable that nobody watches. -/
def grow : WatchList := ⟨w.registrations.push []⟩

def watch (watcher : Watcher) (v : Var) (events : List Event) : Except Fault WatchList :=
  if v < w.registrations.size then .ok ⟨w.registrations.modify v (· ++ [⟨watcher, events⟩])⟩
  else .error .outOfRange

/-- Who is told about an event of a variable. -/
def affected? (event : Event) (v : Var) : Option (List Watcher) :=
  (w.registrations.get? v).map fun rs =>
    rs.filterMap fun r => if event ∈ r.events then some r.watcher else none

def affected (event : Event) (v : Var) : List Watcher := (w.affected? event v).getD []

variable {w}

theorem affected?_grow (event : Event) (v : Var) :
    w.grow.affected? event v =
      if v = w.registrations.size then some [] else w.affected? event v := by
  simp only [affected?, grow, Arena.get?_push]
  split <;> rfl

/-- **A registration comes last**, and only for its own variable and events. -/
theorem affected?_watch {w' : WatchList} {watcher : Watcher} {u v : Var} {events : List Event}
    {event : Event} (h : w.watch watcher u events = .ok w') :
    w'.affected? event v = (w.affected? event v).map fun ws =>
      if u = v ∧ event ∈ events then ws ++ [watcher] else ws := by
  unfold watch at h
  split at h
  · cases h
    simp only [affected?, Arena.get?_modify, Option.map_map]
    by_cases huv : u = v
    · subst huv
      cases w.registrations.get? u with
      | none => simp
      | some rs => by_cases he : event ∈ events <;> simp [he, List.filterMap_append]
    · cases w.registrations.get? v with
      | none => simp [huv]
      | some rs => simp [huv]
  · cases h

end WatchList
end BranchBound
