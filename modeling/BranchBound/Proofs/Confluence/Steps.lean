import BranchBound.Proofs.Backtracking
import BranchBound.Proofs.Confluence.Shelter

/-! # What is seen of an engine step by step

Two stores look alike if they have the same values (`Store.Alike`): then nobody who looks at bounds, sizes or
values can tell them apart (`Store.Alike.view_eq`), and a restriction is answered alike by both and leaves
them alike (`Store.Alike.restrict`).

An engine can be followed step by step (`Engine.follow`).  In each step its domains are restricted and then
propagated, and what is seen of it is what the restrictions answered and what the propagation came to. -/
namespace BranchBound

/-! ## Domains -/

/-- What is seen of a domain: its bounds, its size, and its values in increasing order. -/
structure Domain.View where
  lower : Int
  upper : Int
  size : Nat
  values : List Int
  deriving Repr, DecidableEq

namespace Domain
variable {d d' : Domain}

def view (d : Domain) : View := ⟨d.lower, d.upper, d.size, d.values⟩

/-- **All that is seen of a domain is its values.** -/
theorem Valid.view_eq (hd : d.Valid) (hd' : d'.Valid) (same : ∀ x, d.contains x = true ↔ d'.contains x = true) :
    d.view = d'.view := by
  have here := contains_iff.mp ((same _).mp hd.contains_lower)
  have there := contains_iff.mp ((same _).mpr hd'.contains_lower)
  have lower : d.lower = d'.lower := Int.le_antisymm there.1 here.1
  have here := contains_iff.mp ((same _).mp hd.contains_upper)
  have there := contains_iff.mp ((same _).mpr hd'.contains_upper)
  have upper : d.upper = d'.upper := Int.le_antisymm here.2.1 there.2.1
  have values : d.values = d'.values := by
    unfold Domain.values
    rw [lower, upper]
    refine List.filter_congr fun x hx => ?_
    obtain ⟨i, hi, rfl⟩ := List.mem_map.mp hx
    have inside := same (d'.lower + i)
    have := List.mem_range.mp hi
    simp only [contains_iff] at inside
    exact Bool.eq_iff_iff.mpr
      ⟨fun h => (inside.mp ⟨by omega, by omega, h⟩).2.2, fun h => (inside.mpr ⟨by omega, by omega, h⟩).2.2⟩
  unfold view
  rw [hd.size_eq_length, hd'.size_eq_length, lower, upper, values]

end Domain

/-! ## Stores -/

namespace Store
variable {s t u s' t' : Store} {v : Var}

/-- What is seen of the domains of all variables. -/
def view (s : Store) : List Domain.View := (List.range s.numVars).map fun v => (s.domain v).view

theorem numValues_eq_view (s : Store) : s.numValues = sumNat (s.view.map (·.size)) := by
  rw [numValues_eq]
  refine congrArg sumNat (List.ext_getElem? fun v => ?_)
  have entry : s.domains.items.toList[v]? = s.domain? v := Array.getElem?_toList
  rw [List.getElem?_map, entry, view, List.map_map, List.getElem?_map]
  by_cases hv : v < s.numVars
  · rw [domain?_eq_some hv, List.getElem?_range hv]
    rfl
  · rw [domain?_eq_none_iff.mpr (Nat.le_of_not_lt hv), List.getElem?_eq_none (by simpa using hv)]
    rfl

/-- Two stores have the same values, and in both the same ones can be removed. -/
structure Alike (s t : Store) : Prop where
  encloses : s.Encloses t
  enclosed : t.Encloses s
  width_eq : ∀ v, (s.domain v).width = (t.domain v).width

namespace Alike

theorem symm (h : s.Alike t) : t.Alike s := ⟨h.enclosed, h.encloses, fun v => (h.width_eq v).symm⟩

theorem contains_iff (h : s.Alike t) (v : Var) (x : Int) : s.contains v x = true ↔ t.contains v x = true :=
  ⟨h.enclosed.contains v x, h.encloses.contains v x⟩

section
variable (h : s.Alike t) (hs : s.Valid) (ht : t.Valid)
include h hs ht

theorem domain_view_eq (v : Var) : (s.domain v).view = (t.domain v).view :=
  (hs.domain v).view_eq (ht.domain v) (h.contains_iff v)

/-- **Stores that are alike look alike.** -/
theorem view_eq : s.view = t.view := by
  unfold view
  rw [h.encloses.numVars_eq]
  exact List.map_congr_left fun v _ => h.domain_view_eq hs ht v

theorem numValues_eq : s.numValues = t.numValues := by
  rw [numValues_eq_view, numValues_eq_view, h.view_eq hs ht]

theorem hasHoles_eq (v : Var) : (s.domain v).hasHoles = (t.domain v).hasHoles := by
  rw [Bool.eq_iff_iff, (hs.domain v).hasHoles_iff, (ht.domain v).hasHoles_iff, h.width_eq v]

end

/-- Stores that were narrowed alike are alike. -/
theorem narrowed {keep : Int → Prop} {a b : Bool} (h : s.Alike t) (hs : s.Narrowed v keep a s')
    (ht : t.Narrowed v keep b t') : s'.Alike t' := by
  -- one store encloses the other, as its values were kept for the same reason
  have one {s t s' t' : Store} {a b : Bool} (h : s.Encloses t) (hs : s.Narrowed v keep a s')
      (ht : t.Narrowed v keep b t') : s'.Encloses t' := by
    refine ⟨hs.narrows.numVars_eq.trans (h.numVars_eq.trans ht.narrows.numVars_eq.symm), fun w x hx => ?_⟩
    by_cases hw : w = v
    · subst hw
      obtain ⟨inside, kept⟩ := (ht.contains_iff x).mp hx
      exact (hs.contains_iff x).mpr ⟨h.contains w x inside, kept⟩
    · have inside : t.contains w x = true := by rwa [contains, domain, ← ht.others w hw]
      have kept := h.contains w x inside
      rwa [contains, domain, ← hs.others w hw] at kept
  refine ⟨one h.encloses hs ht, one h.enclosed ht hs, fun w => ?_⟩
  rw [hs.narrows.width_eq, ht.narrows.width_eq, h.width_eq]

end Alike
end Store

/-! ## Restrictions -/

/-- One of the five narrowing operations. -/
inductive Restriction
  | setLower (v : Var) (x : Int)
  | setUpper (v : Var) (x : Int)
  | remove (v : Var) (x : Int)
  | assign (v : Var) (x : Int)
  | narrow (v : Var) (first last : Int)
  deriving Repr, DecidableEq

namespace Restriction
variable {r : Restriction} {s t : Store}

def var : Restriction → Var
  | .setLower v _ | .setUpper v _ | .remove v _ | .assign v _ | .narrow v _ _ => v

def narrowing : Restriction → Store.Narrowing
  | .setLower v x => Store.setLower v x
  | .setUpper v x => Store.setUpper v x
  | .remove v x => Store.remove v x
  | .assign v x => Store.assign v x
  | .narrow v first last => Store.narrow v first last

/-- The values that it keeps. -/
def Keep : Restriction → Store → Int → Prop
  | .setLower _ x, _ => (x ≤ ·)
  | .setUpper _ x, _ => (· ≤ x)
  | .remove v x, s => s.Remaining v x
  | .assign _ x, _ => (· = x)
  | .narrow _ first last, _ => fun y => first ≤ y ∧ y ≤ last

/-- What it answers, whether it is refused or not. -/
def answer (r : Restriction) (s : Store) : Except Halt Bool :=
  match r.narrowing s with
  | .ok changed _ => .ok changed
  | .error halt _ => .error halt

def after (r : Restriction) (s : Store) : Store :=
  match r.narrowing s with
  | .ok _ t | .error _ t => t

theorem keeps (hs : s.Valid) : s.Keeps r.var (r.Keep s) r.narrowing := by
  cases r with
  | setLower v x => exact Store.keeps_setLower hs
  | setUpper v x => exact Store.keeps_setUpper hs
  | remove v x => exact Store.keeps_remove hs
  | assign v x => exact Store.keeps_assign hs
  | narrow v first last => exact Store.keeps_narrow hs

theorem lawful (r : Restriction) : r.narrowing.Lawful := .of_keeps fun _ => keeps

/-- There has to be such a variable. -/
theorem known {a : Bool} (h : r.narrowing s = .ok a t) : r.var < s.numVars := by
  refine Nat.lt_of_not_le fun unknown => ?_
  have none : s.domain? r.var = none := Store.domain?_eq_none_iff.mpr unknown
  cases r <;>
  · simp only [narrowing, Store.setLower, Store.setUpper, Store.remove, Store.assign, Store.narrow,
      Store.withDomain] at h
    simp only [var] at none
    rw [none] at h
    cases h

/-- What is kept is the same in stores that are alike. -/
theorem keep_eq (h : s.Alike t) (hs : s.Valid) (ht : t.Valid) : r.Keep s = r.Keep t := by
  cases r with
  | remove v x =>
    have view := h.domain_view_eq hs ht v
    have lower : s.lower v = t.lower v := congrArg Domain.View.lower view
    have upper : s.upper v = t.upper v := congrArg Domain.View.upper view
    funext y
    simp only [Keep, Store.Remaining, h.hasHoles_eq hs ht, lower, upper]
  | _ => rfl

end Restriction

namespace Store.Alike
variable {s t s' t' : Store} {v : Var} {keep : Int → Prop} (h : s.Alike t) (hs : s.Valid) (ht : t.Valid)
include h hs ht

/-- What changes one store changes the other. -/
theorem changed_eq {a b : Bool} (hn : s.Narrowed v keep a s') (hn' : t.Narrowed v keep b t') : a = b := by
  have after := (h.narrowed hn hn').numValues_eq (hn.narrows.valid hs) (hn'.narrows.valid ht)
  have before := h.numValues_eq hs ht
  have same {s s' : Store} {a : Bool} (hn : s.Narrowed v keep a s') :
      a = true ↔ s'.numValues < s.numValues := by
    refine ⟨hn.changed_lt, fun lt => ?_⟩
    cases a with
    | true => rfl
    | false =>
      rw [hn.unchanged rfl] at lt
      exact absurd lt (Nat.lt_irrefl _)
  rw [Bool.eq_iff_iff, same hn, same hn', after, before]

omit ht in
/-- What one store accepts is not refused by the other. -/
theorem not_refused {a : Bool} {halt : Halt} (hv : v < s.numVars) (hn : s.Narrowed v keep a s')
    (refused : t.Refused v keep halt t') : False := by
  cases refused with
  | empty _ none =>
    have inside := (hn.narrows.valid hs).contains_lower v
    obtain ⟨before, kept⟩ := (hn.contains_iff _).mp inside
    exact none _ ((h.contains_iff v _).mp before) kept
  | unknown none =>
    have unknown : t.numVars ≤ v := domain?_eq_none_iff.mp none
    exact absurd hv (Nat.not_lt_of_le (h.encloses.numVars_eq ▸ unknown))

/-- **A restriction is answered alike by stores that are alike, and leaves them alike.** -/
theorem restrict (r : Restriction) :
    r.answer s = r.answer t ∧ (r.after s).Alike (r.after t) := by
  have kept : s.Keeps r.var (r.Keep s) r.narrowing := r.keeps hs
  have kept' : t.Keeps r.var (r.Keep s) r.narrowing := by
    rw [r.keep_eq h hs ht]
    exact r.keeps ht
  unfold Restriction.answer Restriction.after
  cases here : r.narrowing s with
  | ok a s' =>
    have narrowed := kept.of_ok here
    cases there : r.narrowing t with
    | ok b t' =>
      have narrowed' := kept'.of_ok there
      exact ⟨congrArg Except.ok (h.changed_eq hs ht narrowed narrowed'), h.narrowed narrowed narrowed'⟩
    | error halt t' =>
      exact (h.not_refused hs (r.known here) narrowed (kept'.of_error there)).elim
  | error halt s' =>
    have refused := kept.of_error here
    cases there : r.narrowing t with
    | ok b t' =>
      exact (h.symm.not_refused ht (r.known there) (kept'.of_ok there) refused).elim
    | error halt' t' =>
      have refused' := kept'.of_error there
      rw [refused.eq, refused'.eq]
      refine ⟨congrArg Except.error ?_, h⟩
      have size := h.encloses.numVars_eq
      cases refused with
      | empty hv _ =>
        cases refused' with
        | empty => rfl
        | unknown none =>
          have unknown : t.numVars ≤ r.var := domain?_eq_none_iff.mp none
          exact absurd hv (Nat.not_lt_of_le (size ▸ unknown))
      | unknown none =>
        have unknown : s.numVars ≤ r.var := domain?_eq_none_iff.mp none
        cases refused' with
        | empty hv _ => exact absurd hv (Nat.not_lt_of_le (size ▸ unknown))
        | unknown => rfl

end Store.Alike

/-! ## Engines -/

namespace Engine

/-- What is seen of a propagation. -/
inductive Outcome
  /-- Nobody has a reason to be called, and these are the domains. -/
  | stable (domains : List Domain.View)
  /-- Somebody refuted the domains. -/
  | conflict
  | fault (cause : Fault)
  deriving Repr, DecidableEq

/-- What is seen of a step: what the restrictions answered, and what the propagation came to. -/
structure Report where
  answers : List (Except Halt Bool)
  outcome : Outcome

variable {π : Type} [Propagator π] (e : Engine π)

/-- The engine after some restrictions; one that is refused changes nothing. -/
def restricted (rs : List Restriction) : Engine π := rs.foldl (fun e r => e.narrowed r.narrowing) e

/-- What the restrictions answer in turn. -/
def answers : Engine π → List Restriction → List (Except Halt Bool)
  | _, [] => []
  | e, r :: rs => r.answer e.store :: answers (e.narrowed r.narrowing) rs

/-- **What is seen of an engine step by step**, up to the first step in which propagation fails.  In each step
the domains are restricted and then propagated. -/
def follow : Engine π → List (List Restriction) → List Report
  | _, [] => []
  | e, rs :: steps =>
    match (e.restricted rs).propagate with
    | .ok _ e' => ⟨e.answers rs, .stable e'.store.view⟩ :: follow e' steps
    | .error (.refuted _ _) _ => [⟨e.answers rs, .conflict⟩]
    | .error (.fault cause) _ => [⟨e.answers rs, .fault cause⟩]

end Engine
end BranchBound
