import BranchBound.Portfolio.Barrier
import Mathlib.Data.Fintype.Card

/-! # Barriers hold back nobody for ever

A party at a barrier waits as long as its generation lasts, or it is released and has not looked yet.  As
many wait as were counted, and never all of them (`Barrier.Sound`).  Coming to a sound barrier or looking
again is one of three things (`Barrier.Sound.Comes`): the party waits, it finds that it was released, or it
is the last and all others are released. -/
namespace BranchBound
namespace Barrier
variable {ι : Type} [DecidableEq ι] {b b' : Barrier ι} {p q : ι} {passes : Bool}

/-- A party has to wait for the others. -/
def Waits (b : Barrier ι) (p : ι) : Prop := b.inside p = some b.generation

/-- A party may go on, but it has not looked yet. -/
def Released (b : Barrier ι) (p : ι) : Prop := b.inside p ≠ none ∧ b.inside p ≠ some b.generation

omit [DecidableEq ι] in
theorem outside_iff : b.inside p = none ↔ ¬ b.Waits p ∧ ¬ b.Released p := by
  unfold Waits Released
  constructor
  · intro outside
    rw [outside]
    exact ⟨Option.some_ne_none _ ∘ Eq.symm, fun h => h.1 rfl⟩
  · rintro ⟨waits, released⟩
    by_contra inside
    exact released ⟨inside, waits⟩

instance : DecidablePred b.Waits := fun p => inferInstanceAs (Decidable (b.inside p = some b.generation))

instance : DecidablePred b.Released := fun _ => inferInstanceAs (Decidable (_ ∧ _))

/-- Where a party is seen that goes on from a place: there, unless it was released. -/
def seen {ρ : Type} (b : Barrier ι) (p : ι) (place : ρ) (next? : Option ρ) : ρ :=
  if b.Released p then next?.getD place else place

omit [DecidableEq ι] in
theorem seen_of_free {ρ : Type} {place : ρ} {next? : Option ρ} (h : ¬ b.Released p) :
    b.seen p place next? = place := if_neg h

theorem following_ne (generation : Nat) : following generation ≠ generation := by
  intro same
  unfold following at same
  have size : 1 < Word.size := by decide
  have lt : generation < Word.size := same ▸ Nat.mod_lt _ (Nat.lt_of_succ_lt size)
  rcases Nat.lt_or_ge (generation + 1) Word.size with less | full
  · rw [Nat.mod_eq_of_lt less] at same
    exact absurd same (Nat.succ_ne_self _)
  · have all : generation + 1 = Word.size := Nat.le_antisymm lt full
    rw [all, Nat.mod_self] at same
    omega

/-! ## What a party makes of a barrier -/

/-- A party has come, and waits inside. -/
def entered (b : Barrier ι) (p : ι) : Barrier ι :=
  { b with count := b.count + 1, inside := Function.update b.inside p (some b.generation) }

/-- The last party has come. -/
def turned (b : Barrier ι) : Barrier ι := { b with count := 0, generation := following b.generation }

/-- A party that was released has gone on. -/
def left (b : Barrier ι) (p : ι) : Barrier ι := { b with inside := Function.update b.inside p none }

theorem wait?_of_outside {parties : Nat} (h : b.inside p = none) : b.wait? parties p =
    if b.count + 1 < parties then some (false, b.entered p) else some (true, b.turned) := by
  unfold wait?
  rw [h]
  rfl

theorem wait?_of_released {parties : Nat} (h : b.Released p) :
    b.wait? parties p = some (true, b.left p) := by
  obtain ⟨came, inside⟩ := Option.ne_none_iff_exists'.mp h.1
  have other : came ≠ b.generation := fun same => h.2 (same ▸ inside)
  unfold wait?
  rw [inside]
  exact if_neg other

theorem wait?_eq_none_iff {parties : Nat} : b.wait? parties p = none ↔ b.Waits p := by
  by_cases waits : b.Waits p
  · refine iff_of_true ?_ waits
    unfold wait?
    rw [show b.inside p = some b.generation from waits]
    exact if_pos rfl
  · refine iff_of_false ?_ waits
    by_cases released : b.Released p
    · rw [wait?_of_released released]
      exact Option.some_ne_none _
    · rw [wait?_of_outside (outside_iff.mpr ⟨waits, released⟩)]
      split <;> exact Option.some_ne_none _

theorem waits_entered_iff : (b.entered p).Waits q ↔ b.Waits q ∨ q = p := by
  unfold Waits entered
  by_cases same : q = p
  · subst same
    exact iff_of_true (Function.update_self ..) (.inr rfl)
  · dsimp only
    rw [Function.update_of_ne same]
    exact ⟨.inl, fun h => h.resolve_right same⟩

theorem released_entered_iff (outside : b.inside p = none) :
    (b.entered p).Released q ↔ b.Released q := by
  unfold Released entered
  by_cases same : q = p
  · subst same
    dsimp only
    rw [Function.update_self]
    exact iff_of_false (fun h => h.2 rfl) fun h => h.1 outside
  · dsimp only
    rw [Function.update_of_ne same]

theorem inside_entered_ne (h : q ≠ p) : (b.entered p).inside q = b.inside q := Function.update_of_ne h ..

theorem inside_left_self : (b.left p).inside p = none := Function.update_self ..

theorem inside_left_ne (h : q ≠ p) : (b.left p).inside q = b.inside q := Function.update_of_ne h ..

theorem released_left_iff : (b.left p).Released q ↔ b.Released q ∧ q ≠ p := by
  by_cases same : q = p
  · subst same
    exact iff_of_false (outside_iff.mp inside_left_self).2 fun h => h.2 rfl
  · unfold Released
    rw [inside_left_ne same]
    exact ⟨fun h => ⟨h, same⟩, And.left⟩

omit [DecidableEq ι] in
/-- Who waits is released when the last party comes. -/
theorem released_turned (h : b.Waits q) : b.turned.Released q := by
  have inside : b.turned.inside q = some b.generation := h
  refine ⟨?_, ?_⟩
  · rw [inside]
    exact Option.some_ne_none _
  · rw [inside]
    exact fun same => following_ne b.generation (Option.some.inj same).symm

omit [DecidableEq ι] in
theorem released_turned_iff (outside : b.inside p = none) (others : ∀ q, q ≠ p → b.Waits q) :
    b.turned.Released q ↔ q ≠ p := by
  constructor
  · rintro released rfl
    exact released.1 outside
  · exact fun other => released_turned (others q other)

/-! ## Sound barriers -/

variable [Fintype ι]

/-- As many wait as were counted, and not all. -/
structure Sound (b : Barrier ι) : Prop where
  count_eq : b.count = (Finset.univ.filter b.Waits).card
  count_lt : b.count < Fintype.card ι

omit [DecidableEq ι] in
theorem sound_open [Nonempty ι] : ({} : Barrier ι).Sound where
  count_eq := by
    symm
    rw [Finset.card_eq_zero, Finset.filter_eq_empty_iff]
    intro p _ h
    cases h
  count_lt := Fintype.card_pos

namespace Sound

omit [DecidableEq ι] in
/-- Somebody does not wait. -/
theorem exists_free (h : b.Sound) : ∃ p, ¬ b.Waits p := by
  by_contra all
  have every : Finset.univ.filter b.Waits = Finset.univ :=
    Finset.filter_true_of_mem fun p _ => by_contra fun free => all ⟨p, free⟩
  have count := h.count_eq
  rw [every, Finset.card_univ] at count
  exact Nat.lt_irrefl _ (count ▸ h.count_lt)

omit [DecidableEq ι] in
theorem not_mem_waiting (outside : b.inside p = none) : p ∉ Finset.univ.filter b.Waits := by
  intro mem
  exact (outside_iff.mp outside).1 (Finset.mem_filter.mp mem).2

theorem entered (h : b.Sound) (outside : b.inside p = none) (room : b.count + 1 < Fintype.card ι) :
    (b.entered p).Sound where
  count_eq := by
    have grown : Finset.univ.filter (b.entered p).Waits = insert p (Finset.univ.filter b.Waits) := by
      ext q
      simp only [Finset.mem_filter, Finset.mem_univ, true_and, Finset.mem_insert, waits_entered_iff]
      exact or_comm
    rw [grown, Finset.card_insert_of_notMem (not_mem_waiting outside), ← h.count_eq]
    rfl
  count_lt := room

theorem left (h : b.Sound) (released : b.Released p) : (b.left p).Sound where
  count_eq := by
    refine h.count_eq.trans (congrArg Finset.card (Finset.filter_congr fun q _ => ?_))
    by_cases same : q = p
    · subst same
      exact iff_of_false released.2 (outside_iff.mp inside_left_self).1
    · unfold Waits
      rw [inside_left_ne same]
      rfl
  count_lt := h.count_lt

/-- Where there is no room for one more to wait, all others wait. -/
theorem waits_of_full (h : b.Sound) (outside : b.inside p = none) (full : ¬ b.count + 1 < Fintype.card ι)
    (other : q ≠ p) : b.Waits q := by
  have all : insert p (Finset.univ.filter b.Waits) = Finset.univ := by
    rw [← Finset.card_eq_iff_eq_univ, Finset.card_insert_of_notMem (not_mem_waiting outside), ← h.count_eq]
    have := h.count_lt
    omega
  have mem : q ∈ insert p (Finset.univ.filter b.Waits) := by
    rw [all]
    exact Finset.mem_univ q
  exact (Finset.mem_filter.mp ((Finset.mem_insert.mp mem).resolve_left other)).2

omit [DecidableEq ι] in
/-- Nobody waits when the last party has come. -/
theorem of_last (outside : b.inside p = none) (others : ∀ q, q ≠ p → b.Waits q) :
    b.turned.Sound where
  count_eq := by
    symm
    rw [show b.turned.count = 0 from rfl, Finset.card_eq_zero, Finset.filter_eq_empty_iff]
    intro q _ waits
    by_cases same : q = p
    · subst same
      rw [show b.inside q = some b.turned.generation from waits] at outside
      cases outside
    · exact (released_turned (others q same)).2 waits
  count_lt := Fintype.card_pos_iff.mpr ⟨p⟩

/-- What becomes of a barrier when a party comes to it or looks again. -/
inductive Comes (b : Barrier ι) (p : ι) : Bool → Barrier ι → Prop
  /-- Others have not come yet. -/
  | waits (outside : b.inside p = none) : Comes b p false (b.entered p)
  /-- The others went on before. -/
  | late (released : b.Released p) : Comes b p true (b.left p)
  /-- All others have come already. -/
  | last (outside : b.inside p = none) (others : ∀ q, q ≠ p → b.Waits q) : Comes b p true b.turned

/-- **Whoever comes to a sound barrier, it stays sound.** -/
theorem comes (h : b.Sound) (hw : b.wait? (Fintype.card ι) p = some (passes, b')) :
    b'.Sound ∧ Comes b p passes b' := by
  have free : ¬ b.Waits p := fun waits => by
    rw [wait?_eq_none_iff.mpr waits] at hw
    cases hw
  by_cases released : b.Released p
  · rw [wait?_of_released released] at hw
    cases hw
    exact ⟨h.left released, .late released⟩
  · have outside := outside_iff.mpr ⟨free, released⟩
    rw [wait?_of_outside outside] at hw
    by_cases room : b.count + 1 < Fintype.card ι
    · rw [if_pos room] at hw
      cases hw
      exact ⟨h.entered outside room, .waits outside⟩
    · rw [if_neg room] at hw
      cases hw
      have others (q : ι) (other : q ≠ p) : b.Waits q := h.waits_of_full outside room other
      exact ⟨of_last outside others, .last outside others⟩

end Sound
end Barrier
end BranchBound
