import BranchBound.Proofs.Confluence.Steps
import BranchBound.Proofs.Construction
import BranchBound.Proofs.Filter
import BranchBound.Word

/-! # Stores that can be reached

A store can be reached if it is made from nothing by declaring variables, narrowing, opening levels, returning to
them and reading off the events, in any order (`Store.Reachable`).  The values that a variable is declared with
are in the range of values; the arguments of everything else may be any integers.

What is needed of such a store is an invariant of each of these steps (`Store.Sound`): its domains are valid and
were so at every level that is open, the values that they were created with are in the range of values, and what
the trail says was removed is among them.  **What a domain was created with never changes**
(`Domain.extent`), neither when it is narrowed nor when that is undone. -/
namespace BranchBound

namespace Domain
variable {d d' : Domain} {x : Int}

/-- The value is one of those at creation. -/
def Initial (d : Domain) (x : Int) : Prop := d.origin ≤ x ∧ x < d.origin + d.width

/-- What tells which values there were at creation. -/
def extent (d : Domain) : Int × Nat := (d.origin, d.width)

theorem initial_congr (h : d'.extent = d.extent) : d'.Initial x ↔ d.Initial x := by
  obtain ⟨origin, width⟩ := Prod.mk.inj h
  unfold Initial
  rw [origin, width]

theorem Valid.initial (hd : d.Valid) (hx : d.lower ≤ x ∧ x ≤ d.upper) : d.Initial x :=
  ⟨Int.le_trans hd.origin_le_lower hx.1, Int.lt_of_le_of_lt hx.2 hd.upper_lt⟩

theorem initial_ofRange {lower upper : Int} (h : (ofRange lower upper).Initial x) : lower ≤ x ∧ x ≤ upper := by
  obtain ⟨least, most⟩ := h
  simp only [ofRange] at least most
  omega

end Domain

theorem Shrinks.extent_eq {v : Var} {d d' : Domain} {c : Change} {e : Event} (h : Shrinks v d d' c e) :
    d'.extent = d.extent := by cases h <;> rfl

namespace Store
variable {s t : Store} {v : Var} {x : Int} {k : Nat}

theorem Narrows.extent_eq (h : s.Narrows t) (v : Var) : (t.domain v).extent = (s.domain v).extent := by
  induction h with
  | refl => rfl
  | @shrink t w d d' c e _ hd hsh ih =>
    rw [← ih]
    by_cases hwv : w = v
    · subst w
      rw [domain_of (domain?_record_self hd), domain_of hd, hsh.extent_eq]
    · rw [domain, domain?_record_ne hwv, ← domain]

theorem extent_undo (domains : Arena Domain) (c : Change) (v : Var) :
    ((undo domains c).get? v).map Domain.extent = (domains.get? v).map Domain.extent := by
  cases c <;>
  · simp only [undo, Arena.get?_modify]
    split
    · rw [Option.map_map]
      rfl
    · rfl

theorem extent_domainsAt (s : Store) (k : Nat) (v : Var) :
    ((s.domainsAt k).get? v).map Domain.extent = (s.domains.get? v).map Domain.extent := by
  have undone (cs : List Change) (domains : Arena Domain) :
      ((cs.foldl undo domains).get? v).map Domain.extent = (domains.get? v).map Domain.extent := by
    induction cs generalizing domains with
    | nil => rfl
    | cons c cs ih => rw [List.foldl_cons, ih, extent_undo]
  exact undone _ _

/-! ## What every step keeps -/

/-- The domains are valid at every level, what they were created with is in the range of values, and the values
that were removed are among that. -/
structure Sound (s : Store) : Prop where
  space : ∃ cells, Space.Valid ⟨s, cells⟩
  inRange : ∀ v, v < s.numVars → ∀ x, (s.domain v).Initial x → -Word.maxValue - 1 ≤ x ∧ x ≤ Word.maxValue
  removed : ∀ v x, Change.hole v x ∈ s.trail.changes → v < s.numVars ∧ (s.domain v).Initial x

namespace Sound

theorem valid (h : s.Sound) : s.Valid := h.space.choose_spec.store

theorem bounds_inRange (h : s.Sound) (hv : v < s.numVars) :
    -Word.maxValue - 1 ≤ s.lower v ∧ s.upper v ≤ Word.maxValue := by
  have valid := h.valid.domain v
  have le := valid.lower_le_upper
  have first := h.inRange v hv _ (valid.initial ⟨Int.le_refl _, le⟩)
  have last := h.inRange v hv _ (valid.initial ⟨le, Int.le_refl _⟩)
  exact ⟨first.1, last.2⟩

theorem empty : Sound {} := by
  have none : ∀ range ∈ ([] : List (Int × Int)), range.1 ≤ range.2 := by simp
  refine ⟨⟨{}, Space.valid_ofRanges none⟩, fun v hv => ?_, fun v x hx => ?_⟩
  · exact absurd hv (Nat.not_lt_zero v)
  · cases hx

theorem declare {lower upper : Int} (h : s.Sound) (first : -Word.maxValue - 1 ≤ lower)
    (last : upper ≤ Word.maxValue) (run : s.declare lower upper = .ok t) : t.Sound := by
  unfold Store.declare at run
  split at run
  · rename_i le
    obtain rfl := Except.ok.inj run
    obtain ⟨cells, valid⟩ := h.space
    have here (v : Var) : ({ s with domains := s.domains.push (.ofRange lower upper) } : Store).domain? v =
        if v = s.numVars then some (.ofRange lower upper) else s.domain? v := Arena.get?_push _ _ v
    have known (v : Var) (hv : v < s.numVars) :
        ({ s with domains := s.domains.push (.ofRange lower upper) } : Store).domain v = s.domain v := by
      rw [Store.domain, here, if_neg (Nat.ne_of_lt hv), Store.domain]
    have size : ({ s with domains := s.domains.push (.ofRange lower upper) } : Store).numVars =
        s.numVars + 1 := Arena.size_push _ _
    refine ⟨⟨cells, valid.push (Domain.valid_ofRange le)⟩, fun v hv x hx => ?_, fun v x hx => ?_⟩
    · by_cases new : v = s.numVars
      · rw [domain_of ((here v).trans (if_pos new))] at hx
        have := Domain.initial_ofRange hx
        omega
      · have hv : v < s.numVars := by omega
        rw [known v hv] at hx
        exact h.inRange v hv x hx
    · obtain ⟨hv, initial⟩ := h.removed v x hx
      rw [size, known v hv]
      exact ⟨Nat.lt_succ_of_lt hv, initial⟩
  · cases run

/-- A value that is removed is between the bounds. -/
theorem removed_of_narrows (h : s.Sound) (hn : s.Narrows t) :
    ∀ v x, Change.hole v x ∈ t.trail.changes → v < t.numVars ∧ (t.domain v).Initial x := by
  induction hn with
  | refl => exact h.removed
  | @shrink t w d d' c e hn hd hsh ih =>
    intro v x hx
    have extent := (Narrows.single hd hsh).extent_eq v
    rw [numVars_record, Domain.initial_congr extent]
    rcases List.mem_cons.mp hx with rfl | hx
    · cases hsh with
      | drop droppable =>
        refine ⟨lt_numVars_of hd, ?_⟩
        rw [domain_of hd]
        exact (hn.valid h.valid _ _ hd).initial
          ⟨Int.le_of_lt droppable.lower_lt, Int.le_of_lt droppable.lt_upper⟩
    · exact ih v x hx

theorem narrows (h : s.Sound) (hn : s.Narrows t) : t.Sound := by
  obtain ⟨cells, valid⟩ := h.space
  have kept : Space.Narrows Filter.noCells ⟨s, cells⟩ ⟨t, cells⟩ := .of_store hn
  refine ⟨⟨cells, kept.valid valid⟩, fun v hv x hx => ?_, h.removed_of_narrows hn⟩
  exact h.inRange v (hn.numVars_eq ▸ hv) x ((Domain.initial_congr (hn.extent_eq v)).mp hx)

theorem restrict (h : s.Sound) (r : Restriction) : (r.after s).Sound := by
  have keeps := r.keeps h.valid
  unfold Restriction.after
  cases run : r.narrowing s with
  | ok changed t => exact h.narrows (keeps.of_ok run).narrows
  | error halt t => exact (keeps.of_error run).eq ▸ h

theorem checkpoint (h : s.Sound) : s.checkpoint.Sound := by
  obtain ⟨cells, valid⟩ := h.space
  refine ⟨⟨_, valid.checkpoint⟩, h.inRange, fun v x hx => ?_⟩
  exact h.removed v x (Trail.changes_checkpoint s.trail ▸ hx)

theorem restore (h : s.Sound) (run : s.restore k = .ok t) : t.Sound := by
  obtain ⟨cells, valid⟩ := h.space
  have lt : k < s.level := by
    refine Nat.lt_of_not_le fun closed => ?_
    unfold Store.restore at run
    rw [Trail.restore_eq_error_iff.mpr closed] at run
    cases run
  have back := Space.restore_eq valid lt
  obtain rfl : t = ⟨s.domainsAt k, s.trail.back k, []⟩ := by
    unfold Store.restore at run
    rw [Trail.restore_eq lt] at run
    exact (Except.ok.inj run).symm
  have restored := Space.restored valid back
  have size : Store.numVars ⟨s.domainsAt k, s.trail.back k, []⟩ = s.numVars := restored.numVars_eq
  have same {v : Var} (hv : v < s.numVars) {x : Int} :
      (Store.domain ⟨s.domainsAt k, s.trail.back k, []⟩ v).Initial x ↔ (s.domain v).Initial x := by
    refine Domain.initial_congr (Option.some.inj ?_)
    have now := s.extent_domainsAt k v
    change Option.map _ (Store.domain? ⟨s.domainsAt k, s.trail.back k, []⟩ v) = Option.map _ (s.domain? v) at now
    rwa [domain?_eq_some (size.symm ▸ hv), domain?_eq_some hv] at now
  refine ⟨⟨_, restored.valid⟩, fun v hv x hx => ?_, fun v x hx => ?_⟩
  · rw [size] at hv
    exact h.inRange v hv x ((same hv).mp hx)
  · have before := h.removed v x (Trail.undone_append_back s.trail k ▸ List.mem_append_right _ hx)
    rw [size]
    exact ⟨before.1, (same before.1).mpr before.2⟩

theorem drain (h : s.Sound) : s.drain.Sound := by
  obtain ⟨cells, valid⟩ := h.space
  exact ⟨⟨cells, valid.drain⟩, h.inRange, h.removed⟩

end Sound

/-! ## Stores that can be reached -/

/-- The store can be made from nothing. -/
inductive Reachable : Store → Prop
  | empty : Reachable {}
  | declare {s t : Store} {lower upper : Int} (h : Reachable s) (first : -Word.maxValue - 1 ≤ lower)
    (last : upper ≤ Word.maxValue) (run : s.declare lower upper = .ok t) : Reachable t
  | restrict {s : Store} (h : Reachable s) (r : Restriction) : Reachable (r.after s)
  | checkpoint {s : Store} (h : Reachable s) : Reachable s.checkpoint
  | restore {s t : Store} {k : Nat} (h : Reachable s) (run : s.restore k = .ok t) : Reachable t
  | drain {s : Store} (h : Reachable s) : Reachable s.drain

/-- **Every store that can be reached is sound.** -/
theorem Reachable.sound (h : s.Reachable) : s.Sound := by
  induction h with
  | empty => exact .empty
  | declare _ first last run ih => exact ih.declare first last run
  | restrict _ r ih => exact ih.restrict r
  | checkpoint _ ih => exact ih.checkpoint
  | restore _ run ih => exact ih.restore run
  | drain _ ih => exact ih.drain

/-- A variable that has lost the value between its bounds, above an open level. -/
def holed : Store := (Restriction.remove 0 2).after (checkpoint { domains := .ofList [.ofRange 1 3] })

theorem reachable_holed : holed.Reachable := by
  have declared : declare {} 1 3 = .ok { domains := .ofList [.ofRange 1 3] } := rfl
  exact .restrict (.checkpoint (.declare .empty (by decide) (by decide) declared)) (.remove 0 2)

end Store
end BranchBound
