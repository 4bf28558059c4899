import BranchBound.Proofs.Backtracking
import BranchBound.Proofs.Propagation.Calls

/-! # Propagation comes to an end

What the calling of constraints comes to is put down with nothing said of how many calls there are
(`Engine.Settles`): as long as someone waits, the next in turn is called, and what it did is told to the others.

Somebody waits again only because a domain has lost a value.  So there are no more calls than those who wait at
first and, for every value that can be lost before all variables are fixed, all propagators once more
(`Engine.settles_turns`).  **Whatever was done to an engine, propagation comes to exactly one result, that of
`propagate`, and the number of calls is bounded by the number of propagators and by what can still happen to the
domains** (`Engine.propagation_ends`). -/
namespace BranchBound

/-! ## Values to spare -/

namespace Store
variable {s : Store}

/-- How many values the domains can lose before all variables are fixed. -/
def spare (s : Store) : Nat := sumNat (s.domains.items.toList.map fun d => d.size - 1)

theorem sumNat_pred {ns : List Nat} (h : ∀ n ∈ ns, 0 < n) : sumNat (ns.map (· - 1)) + ns.length = sumNat ns := by
  induction ns with
  | nil => rfl
  | cons n ns ih =>
    have pos := h n List.mem_cons_self
    have := ih fun m hm => h m (List.mem_cons_of_mem n hm)
    simp only [List.map_cons, List.length_cons, sumNat]
    omega

theorem Valid.spare_add (hs : s.Valid) : s.spare + s.numVars = s.numValues := by
  have pos : ∀ n ∈ s.domains.items.toList.map Domain.size, 0 < n := by
    intro n hn
    obtain ⟨d, hd, rfl⟩ := List.mem_map.mp hn
    obtain ⟨v, hv⟩ := List.mem_iff_getElem?.mp hd
    have valid : d.Valid := hs v d (Array.getElem?_toList.symm.trans hv)
    rw [valid.size_eq_length]
    exact List.length_pos_of_mem (Domain.mem_values.mpr valid.contains_lower)
  have sum := sumNat_pred pos
  rw [List.map_map, List.length_map, ← numValues_eq] at sum
  exact sum

end Store

namespace Engine

/-! ## Calls, one after another -/

section
variable {π : Type} [Propagator π] {e : Engine π} {id : Nat} {p : Posted π} {source : Option Nat} {d : Delivery}

/-- What an engine makes of what a propagator came to. -/
def afterCall (e : Engine π) (id : Nat) (p : Posted π) :
    EStateM.Result Halt (π × Space) Unit → EStateM.Result Failure (Engine π) Unit
  | .ok _ after => .ok () ((e.called id p after).deliverAll (some id))
  | .error (.inconsistent cause) after => .error (.refuted (some id) cause) ((e.called id p after).abandon id cause)
  | .error (.fault cause) after => .error (.fault cause) (e.called id p after)

theorem call_eq : e.call id p = e.afterCall id p (Propagator.propagate p.propagator e.space) := by
  unfold call
  dsimp only
  split <;> rename_i hr <;> rw [hr] <;> rfl

@[simp] theorem numPropagations_deliver : (e.deliver source d).numPropagations = e.numPropagations := by
  unfold deliver
  dsimp only
  split <;> rfl

@[simp] theorem numPropagations_deliverAll : (e.deliverAll source).numPropagations = e.numPropagations := by
  suffices ∀ (ds : List Delivery) (e : Engine π),
      (ds.foldl (deliver source) e).numPropagations = e.numPropagations from this _ _
  intro ds
  induction ds with
  | nil => exact fun _ => rfl
  | cons d ds ih =>
    intro e
    rw [List.foldl_cons, ih, numPropagations_deliver]

theorem numPropagations_afterCall (r : EStateM.Result Halt (π × Space) Unit) :
    EndsIn (fun e' => e'.numPropagations = e.numPropagations + 1) (e.afterCall id p r) := by
  rcases r with ⟨_, after⟩ | ⟨cause | cause, after⟩
  · exact numPropagations_deliverAll
  · rfl
  · rfl

theorem turn_of_pop {queue : Queue} (next : e.queue.pop = some (id, queue)) (hp : e.posted.get? id = some p) :
    e.turn =
      match ({ e with queue } : Engine π).call id p with
      | .ok _ e' => .ok true e'
      | .error f e' => .error f e' := by
  unfold turn
  rw [next]
  dsimp only
  rewrite [hp]
  rfl

theorem lowers_turn [LawfulPropagator π] :
    Lowers potential (turn : EStateM Failure (Engine π) Bool) fun e => e.Valid ∧ e.store.events = [] := by
  rintro e e' ⟨he, silent⟩ ht
  obtain ⟨keeps, silent', less⟩ := (ends_turn he silent).of_ok ht
  exact ⟨⟨keeps.valid, silent'⟩, less⟩

end

variable {e e' : Engine Constraint} {n n' : Nat} {r r' : EStateM.Result Failure (Engine Constraint) Unit}

/-- What the call of the constraint whose turn it is comes to. -/
inductive Calls (e : Engine Constraint) : EStateM.Result Failure (Engine Constraint) Unit → Prop
  | next {id : Nat} {queue : Queue} {p : Posted Constraint} {r : EStateM.Result Halt (Constraint × Space) Unit}
    (turn : e.queue.pop = some (id, queue)) (hp : e.posted.get? id = some p)
    (performs : p.propagator.Performs e.space r) : Calls e (({ e with queue } : Engine Constraint).afterCall id p r)

/-- What calling constraints until nobody waits comes to, with the number of calls, however many they are. -/
inductive Settles : Nat → Engine Constraint → EStateM.Result Failure (Engine Constraint) Unit → Prop
  | quiet {e : Engine Constraint} (nobody : e.queue.pop = none) : Settles 0 e (.ok () e)
  | ended {e e' : Engine Constraint} {f : Failure} (call : Calls e (.error f e')) : Settles 1 e (.error f e')
  | called {e e' : Engine Constraint} {n : Nat} {r : EStateM.Result Failure (Engine Constraint) Unit}
    (call : Calls e (.ok () e')) (rest : Settles n e' r) : Settles (n + 1) e r

theorem Calls.unique (h : Calls e r) (h' : Calls e r') : r = r' := by
  obtain ⟨turn, hp, performs⟩ := h
  obtain ⟨turn', hp', performs'⟩ := h'
  cases turn.symm.trans turn'
  cases hp.symm.trans hp'
  rw [performs.unique performs']

theorem Calls.pop_ne_none (h : Calls e r) : e.queue.pop ≠ none := by
  obtain ⟨turn, -, -⟩ := h
  rw [turn]
  exact nofun

/-- Calling constraints does not come to different results, nor after different numbers of calls. -/
theorem Settles.unique (h : Settles n e r) (h' : Settles n' e r') : n' = n ∧ r' = r := by
  induction h generalizing n' with
  | quiet nobody =>
    cases h' with
    | quiet => exact ⟨rfl, rfl⟩
    | ended call | called call => exact absurd nobody call.pop_ne_none
  | ended call =>
    cases h' with
    | quiet nobody => exact absurd nobody call.pop_ne_none
    | ended call' => exact ⟨rfl, call'.unique call⟩
    | called call' => cases call.unique call'
  | called call _ ih =>
    cases h' with
    | quiet nobody => exact absurd nobody call.pop_ne_none
    | ended call' => cases call.unique call'
    | called call' rest =>
      cases call.unique call'
      obtain ⟨rfl, rfl⟩ := ih rest
      exact ⟨rfl, rfl⟩

theorem Calls.numPropagations (h : Calls e r) :
    EndsIn (fun e' => e'.numPropagations = e.numPropagations + 1) r := by
  obtain ⟨-, -, -⟩ := h
  exact numPropagations_afterCall _

/-- An engine counts the calls. -/
theorem Settles.numPropagations (h : Settles n e r) :
    EndsIn (fun e' => e'.numPropagations = e.numPropagations + n) r := by
  induction h with
  | quiet => rfl
  | ended call => exact call.numPropagations
  | @called _ _ n r call _ ih =>
    have one : _ = _ + 1 := call.numPropagations
    rw [one, Nat.add_assoc, Nat.add_comm 1 n] at ih
    exact ih

/-! ## The number of calls -/

/-- How many calls there can still be: of those who wait, and of all propagators for every value to spare. -/
def callsLeft (e : Engine Constraint) : Nat := e.queue.length + e.numPropagators * e.store.spare

/-- **After a call there are fewer to come**: somebody no longer waits, and for others to wait a value was lost. -/
theorem callsLeft_lt {id : Nat} {queue : Queue} {p : Posted Constraint} (he : e.Valid) (silent : e.store.events = [])
    (hq : e.queue.pop = some (id, queue)) (hcall : ({ e with queue } : Engine Constraint).call id p = .ok () e') :
    e'.callsLeft < e.callsLeft := by
  have popped := Keeps.popped he hq
  obtain ⟨keeps, -, lower⟩ := (ends_call id popped.valid silent).of_ok hcall
  have kept := popped.trans keeps
  have length := he.queue.length_of_pop hq
  have before : e.store.spare + e.store.numVars = e.space.numValues := he.space.store.spare_add
  have now : e'.store.spare + e'.store.numVars = e'.space.numValues := keeps.valid.space.store.spare_add
  have numVars : e'.store.numVars = e.store.numVars := kept.below.numVars_eq
  unfold callsLeft
  rw [kept.numPropagators_eq]
  rcases lower with less | ⟨same, queue_eq⟩
  · -- all may wait again, and there is a value less to spare
    have less : e'.store.spare + 1 ≤ e.store.spare := by
      change e'.space.numValues < e.space.numValues at less
      omega
    have most : e'.queue.length ≤ e.numPropagators := kept.numPropagators_eq ▸ keeps.valid.queue.length_le
    calc e'.queue.length + e.numPropagators * e'.store.spare
      _ ≤ e.numPropagators + e.numPropagators * e'.store.spare := Nat.add_le_add_right most _
      _ = e.numPropagators * (e'.store.spare + 1) := by rw [Nat.mul_add, Nat.mul_one, Nat.add_comm]
      _ ≤ e.numPropagators * e.store.spare := Nat.mul_le_mul_left _ less
      _ < e.queue.length + e.numPropagators * e.store.spare := by omega
  · have same : e'.store.spare = e.store.spare := by
      change e'.space.numValues = e.space.numValues at same
      omega
    change e'.queue = queue at queue_eq
    rw [same, queue_eq]
    omega

/-- **There are no more calls than those who wait, and all propagators once more for every value to spare.** -/
theorem settles_turns (he : e.Valid) (silent : e.store.events = []) :
    ∃ n, Settles n e (descend potential turn e) ∧ n ≤ e.callsLeft := by
  -- on the potential, which every turn lowers
  induction hm : e.potential using Nat.strongRecOn generalizing e with
  | _ m ih =>
    subst hm
    cases hq : e.queue.pop with
    | none =>
      have done : turn e = .ok false e := by
        unfold turn
        rw [hq]
      rw [descend_of_done done]
      exact ⟨0, .quiet hq, Nat.zero_le _⟩
    | some next =>
      obtain ⟨id, queue⟩ := next
      obtain ⟨p, hp⟩ := posted_eq_some (he.queue.pop hq).2
      have turned := turn_of_pop hq hp
      have call := Calls.next hq hp (p.propagator.performs he.space)
      rw [← call_eq (e := { e with queue })] at call
      cases hcall : ({ e with queue } : Engine Constraint).call id p with
      | error f e' =>
        rw [hcall] at turned call
        rw [descend_of_error turned]
        have waiting : 1 ≤ e.queue.length := by
          have := he.queue.length_of_pop hq
          omega
        exact ⟨1, .ended call, Nat.le_add_right_of_le waiting⟩
      | ok _ e' =>
        rw [hcall] at turned call
        obtain ⟨⟨valid, silent'⟩, less⟩ := lowers_turn ⟨he, silent⟩ turned
        obtain ⟨n, rest, le⟩ := ih _ less valid silent' rfl
        rw [descend_of_more lowers_turn ⟨he, silent⟩ turned]
        exact ⟨n + 1, .called call rest, Nat.lt_of_le_of_lt le (callsLeft_lt he silent hq hcall)⟩

/-- **Propagation comes to an end**, that of every call included: however often they may be repeated, the calls
come to exactly one result, which is that of `propagate`. -/
theorem propagation_ends (ops : List (Operation Constraint)) :
    let e := (History.after ops).engine
    ∃ calls, (∀ n r, Settles n (e.deliverAll none) r ↔ n = calls ∧ r = e.propagate) ∧
      EndsIn (fun e' => e'.numPropagations = e.numPropagations + calls) e.propagate ∧
      calls ≤ e.numPropagators * (1 + e.store.pending.length + 2 * e.store.spare) := by
  intro e
  have valid : e.Valid := (History.sound_after ops).valid
  have delivered : e.Keeps (e.deliverAll none) := keeps_deliverAll valid
  obtain ⟨calls, settles, le⟩ := settles_turns delivered.valid events_deliverAll
  refine ⟨calls, fun n r => ⟨fun h => settles.unique h, ?_⟩, ?_, ?_⟩
  · rintro ⟨rfl, rfl⟩
    exact settles
  · have counted := settles.numPropagations
    rw [numPropagations_deliverAll] at counted
    exact counted
  · have most := delivered.valid.queue.length_le
    have same : (e.deliverAll none).store.spare = e.store.spare := by
      rw [store, space_deliverAll]
      rfl
    rw [callsLeft, same, delivered.numPropagators_eq] at le
    rw [delivered.numPropagators_eq] at most
    calc calls ≤ (e.deliverAll none).queue.length + e.numPropagators * e.store.spare := le
      _ ≤ e.numPropagators + e.numPropagators * e.store.spare := Nat.add_le_add_right most _
      _ = e.numPropagators * (1 + e.store.spare) := by rw [Nat.mul_add, Nat.mul_one]
      _ ≤ e.numPropagators * (1 + e.store.pending.length + 2 * e.store.spare) :=
        Nat.mul_le_mul_left _ (by omega)

end Engine
end BranchBound
