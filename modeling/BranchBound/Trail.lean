import BranchBound.Fault

/-! # Trails

A trail is a stack of changes that is divided into levels.  Opening a level (`checkpoint`)
marks the place to return to; returning to level `n` (`restore`) hands back every change
that was made since level `n` was left, the latest first, so that the caller can undo
them in that order.

A trail is kept as its segments: the changes of the current level, then those of the
levels below. -/
namespace BranchBound

structure Trail (α : Type) where
  /-- The changes of the current level, latest first. -/
  recent : List α := []
  /-- The changes of the levels below, each latest first, the highest level first. -/
  below : List (List α) := []
  deriving Repr, DecidableEq

namespace Trail
variable {α : Type}

instance : Inhabited (Trail α) := ⟨{}⟩

/-- The number of levels that were opened and not returned from. -/
def level (t : Trail α) : Nat := t.below.length

/-- All changes, latest first. -/
def changes (t : Trail α) : List α := t.recent ++ t.below.flatten

def push (t : Trail α) (change : α) : Trail α := { t with recent := change :: t.recent }

/-- Opens a level. -/
def checkpoint (t : Trail α) : Trail α := ⟨[], t.recent :: t.below⟩

/-- Leaves the `n` highest levels; the changes made since are handed back, latest first. -/
def unwind : Nat → List α → List (List α) → List α × Trail α
  | 0, recent, below => ([], ⟨recent, below⟩)
  | _ + 1, recent, [] => ([], ⟨recent, []⟩)
  | n + 1, recent, segment :: below =>
    let (undone, t) := unwind n segment below
    (recent ++ undone, t)

/-- Returns to level `target`, which has to be below the current one. -/
def restore (t : Trail α) (target : Nat) : Except Fault (List α × Trail α) :=
  if target < t.level then .ok (unwind (t.level - target) t.recent t.below)
  else .error (.levelNotOpen target t.level)

theorem level_push (t : Trail α) (a : α) : (t.push a).level = t.level := rfl

theorem level_checkpoint (t : Trail α) : t.checkpoint.level = t.level + 1 := by
  simp [level, checkpoint]

theorem changes_checkpoint (t : Trail α) : t.checkpoint.changes = t.changes := by
  simp [changes, checkpoint]

theorem changes_unwind (n : Nat) (recent : List α) (below : List (List α)) :
    (unwind n recent below).1 ++ (unwind n recent below).2.changes = recent ++ below.flatten := by
  induction n generalizing recent below with
  | zero => simp [unwind, changes]
  | succ n ih =>
    cases below with
    | nil => simp [unwind, changes]
    | cons segment below => simp [unwind, ih]

theorem level_unwind (n : Nat) (recent : List α) (below : List (List α)) :
    (unwind n recent below).2.level = below.length - n := by
  induction n generalizing recent below with
  | zero => simp [unwind, level]
  | succ n ih =>
    cases below with
    | nil => simp [unwind, level]
    | cons segment below => simp [unwind, ih]

/-- A level is open exactly as long as it can be returned to. -/
theorem restore_eq_error_iff {t : Trail α} {n : Nat} :
    t.restore n = .error (.levelNotOpen n t.level) ↔ t.level ≤ n := by
  unfold restore
  split <;> simp <;> omega

end Trail
end BranchBound
