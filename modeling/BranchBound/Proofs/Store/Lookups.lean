import BranchBound.Proofs.Store.Reachable

/-! # Where flags are looked up

Whether a value is present is answered for every integer (`Domain.isPresent`), but there are flags only for the
values that a domain was created with.  Here a flag is looked up only where there is one (`Domain.flag?`), and
the search for a value that is present goes from flag to flag with no bound of its own (`Domain.Finds`).  The
operations that look up flags in this way (`Restriction.checked`) fail as soon as one is missing, and they have
no answer if a search does not end.

**In a store that can be reached they do exactly what the operations do** (`Restriction.checked_eq`), so no search
and no lookup leaves the values that a domain was created with.  The reason is that both bounds of a domain are
values that are present, and that nobody looks beyond them: a search from between the bounds meets one of them in
time (`Domain.Valid.finds_up`, `Domain.Valid.finds_down`). -/
namespace BranchBound

namespace Domain
variable {d : Domain} {x b c step first last : Int}

instance : Decidable (d.Initial x) := inferInstanceAs (Decidable (_ ∧ _))

/-- The flag of a value at creation; a plain interval keeps all of them. -/
def flag? (d : Domain) (x : Int) : Option Bool :=
  if d.Initial x then if d.hasHoles then d.present[(x - d.origin).toNat]? else some true else none

/-- **Every value at creation has a flag.** -/
theorem Valid.flag?_eq (hd : d.Valid) (hx : d.Initial x) : d.flag? x = some (d.isPresent x) := by
  unfold flag?
  rw [if_pos hx]
  cases holes : d.hasHoles with
  | false => simp [isPresent_of_not_hasHoles holes]
  | true =>
    have size := hd.size_present holes
    obtain ⟨least, most⟩ := hx
    have lt : (x - d.origin).toNat < d.present.size := by omega
    simp [isPresent, lt]

/-! ## Searches -/

/-- The search from `x` for a value that is present, which is `b`. -/
inductive Finds (d : Domain) (step : Int) : Int → Int → Prop
  | here {x : Int} (present : d.flag? x = some true) : Finds d step x x
  | onward {x b : Int} (absent : d.flag? x = some false) (rest : Finds d step (x + step) b) : Finds d step x b

theorem Finds.unique (h : d.Finds step x b) (h' : d.Finds step x c) : b = c := by
  induction h with
  | here present =>
    cases h' with
    | here => rfl
    | onward absent => cases present.symm.trans absent
  | onward absent _ ih =>
    cases h' with
    | here present => cases present.symm.trans absent
    | onward _ rest => exact ih rest

open Classical in
/-- What the search from `x` finds, if it ends. -/
noncomputable def seek (d : Domain) (step x : Int) : Option Int :=
  if h : ∃ b, d.Finds step x b then some h.choose else none

theorem Finds.seek_eq (h : d.Finds step x b) : d.seek step x = some b := by
  unfold seek
  rw [dif_pos ⟨b, h⟩]
  exact congrArg some ((Exists.choose_spec (p := (d.Finds step x ·)) ⟨b, h⟩).unique h)

theorem Valid.finds_firstPresent (hd : d.Valid) {n : Nat} (initial : ∀ y, x ≤ y → y < x + n → d.Initial y)
    (h : d.firstPresent x n = some b) : d.Finds 1 x b := by
  induction n generalizing x with
  | zero => cases h
  | succ n ih =>
    have flag := hd.flag?_eq (initial x (Int.le_refl x) (by omega))
    unfold firstPresent at h
    split at h
    · rename_i present
      obtain rfl := Option.some.inj h
      exact .here (flag.trans (congrArg some present))
    · rename_i absent
      refine .onward (flag.trans (congrArg some (Bool.not_eq_true _ ▸ absent))) (ih (fun y h1 h2 => ?_) h)
      exact initial y (by omega) (by omega)

theorem Valid.finds_lastPresent (hd : d.Valid) {n : Nat} (initial : ∀ y, y ≤ x → x < y + n → d.Initial y)
    (h : d.lastPresent x n = some b) : d.Finds (-1) x b := by
  induction n generalizing x with
  | zero => cases h
  | succ n ih =>
    have flag := hd.flag?_eq (initial x (Int.le_refl x) (by omega))
    unfold lastPresent at h
    split at h
    · rename_i present
      obtain rfl := Option.some.inj h
      exact .here (flag.trans (congrArg some present))
    · rename_i absent
      refine .onward (flag.trans (congrArg some (Bool.not_eq_true _ ▸ absent))) (ih (fun y h1 h2 => ?_) h)
      exact initial y (by omega) (by omega)

/-- **A search upwards from between the bounds ends**, at the upper bound if not before. -/
theorem Valid.finds_up (hd : d.Valid) (hl : d.lower ≤ x) (hu : x ≤ d.upper) :
    ∃ b, d.ceil x = some b ∧ d.Finds 1 x b := by
  cases found : d.ceil x with
  | none =>
    have := (ceil_eq_none_iff hl).mp found d.upper hu
    exact absurd (hd.contains_upper.symm.trans this) (by simp)
  | some b =>
    refine ⟨b, rfl, hd.finds_firstPresent (fun y h1 h2 => hd.initial ⟨?_, ?_⟩) found⟩
    · exact Int.le_trans hl h1
    · omega

/-- **A search downwards from between the bounds ends**, at the lower bound if not before. -/
theorem Valid.finds_down (hd : d.Valid) (hl : d.lower ≤ x) (hu : x ≤ d.upper) :
    ∃ b, d.floor x = some b ∧ d.Finds (-1) x b := by
  cases found : d.floor x with
  | none =>
    have := (floor_eq_none_iff hu).mp found d.lower hl
    exact absurd (hd.contains_lower.symm.trans this) (by simp)
  | some b =>
    refine ⟨b, rfl, hd.finds_lastPresent (fun y h1 h2 => hd.initial ⟨?_, ?_⟩) found⟩
    · omega
    · exact Int.le_trans h1 hu

/-! ## Lookups -/

/-- Whether a value is in the domain; only between the bounds is there a need to look. -/
def member? (d : Domain) (x : Int) : Option Bool :=
  if d.lower ≤ x ∧ x ≤ d.upper then d.flag? x else some false

theorem Valid.member?_eq (hd : d.Valid) : d.member? x = some (d.contains x) := by
  unfold member?
  split
  · rename_i inside
    rw [hd.flag?_eq (hd.initial inside)]
    simp [contains, inside]
  · rename_i outside
    refine congrArg some (Bool.eq_false_iff.mpr fun inside => outside ?_).symm
    obtain ⟨hl, hu, -⟩ := contains_iff.mp inside
    exact ⟨hl, hu⟩

/-- The integers from `first` to `last`. -/
def stretch (first last : Int) : List Int := (List.range (last - first + 1).toNat).map fun i : Nat => first + i

theorem mem_stretch : x ∈ stretch first last ↔ first ≤ x ∧ x ≤ last := by
  simp only [stretch, List.mem_map, List.mem_range]
  constructor
  · rintro ⟨i, hi, rfl⟩
    omega
  · exact fun h => ⟨(x - first).toNat, by omega, by omega⟩

/-- The values that are present from `first` to `last`. -/
def between? (d : Domain) (first last : Int) : Option (List Int) :=
  if ∀ x ∈ stretch first last, (d.flag? x).isSome then
    some ((stretch first last).filter fun x => d.flag? x = some true)
  else none

theorem Valid.between?_eq (hd : d.Valid) (initial : ∀ x, first ≤ x → x ≤ last → d.Initial x) :
    d.between? first last = some ((stretch first last).filter d.isPresent) := by
  have flag (x : Int) (hx : x ∈ stretch first last) : d.flag? x = some (d.isPresent x) := by
    obtain ⟨hl, hu⟩ := mem_stretch.mp hx
    exact hd.flag?_eq (initial x hl hu)
  unfold between?
  rw [if_pos fun x hx => by rw [flag x hx]; rfl]
  exact congrArg some (List.filter_congr fun x hx => by rw [flag x hx]; simp)

theorem Valid.count_eq (hd : d.Valid) (initial : ∀ x, first ≤ x → x ≤ last → d.Initial x)
    (origin : d.origin ≤ first) :
    (d.between? first last).map List.length = some (d.countBetween first last) := by
  rw [hd.between?_eq initial, Option.map_some, countBetween_eq_length origin]
  rfl

theorem Valid.count_lost_below (hd : d.Valid) (hb : d.contains b = true) :
    (d.between? d.lower (b - 1)).map List.length = some (d.countBetween d.lower (b - 1)) := by
  obtain ⟨-, hu, -⟩ := contains_iff.mp hb
  exact hd.count_eq (fun x h1 h2 => hd.initial ⟨h1, by omega⟩) hd.origin_le_lower

theorem Valid.count_lost_above (hd : d.Valid) (hb : d.contains b = true) :
    (d.between? (b + 1) d.upper).map List.length = some (d.countBetween (b + 1) d.upper) := by
  obtain ⟨hl, -, -⟩ := contains_iff.mp hb
  have origin := hd.origin_le_lower
  exact hd.count_eq (fun x h1 h2 => hd.initial ⟨by omega, h2⟩) (by omega)

/-- To count what is lost is enough. -/
theorem Valid.raise_eq (hd : d.Valid) (hb : d.contains b = true) :
    d.raise b = { d with lower := b, size := d.size - d.countBetween d.lower (b - 1) } := by
  obtain ⟨hl, hu, -⟩ := contains_iff.mp hb
  have kept := size_raise hd.size_eq hd.origin_le_lower hl hu
  have sum := countBetween_add (d := d) (b - 1) hd.origin_le_lower (by omega) (show b - 1 ≤ d.upper by omega)
  rw [Int.sub_add_cancel] at sum
  have size := hd.size_eq
  have lost : (d.raise b).size = d.size - d.countBetween d.lower (b - 1) := by omega
  rw [← lost]
  rfl

theorem Valid.cut_eq (hd : d.Valid) (hb : d.contains b = true) :
    d.cut b = { d with upper := b, size := d.size - d.countBetween (b + 1) d.upper } := by
  obtain ⟨hl, hu, -⟩ := contains_iff.mp hb
  have kept := size_cut hd.size_eq hd.origin_le_lower hl hu
  have sum := countBetween_add (d := d) b hd.origin_le_lower (by omega) hu
  have size := hd.size_eq
  have lost : (d.cut b).size = d.size - d.countBetween (b + 1) d.upper := by omega
  rw [← lost]
  rfl

/-! ## What a domain is -/

/-- The bounds are present, the size counts what is present between them, and whoever looks from between them
finds. -/
structure Represented (d : Domain) : Prop where
  lower_le_upper : d.lower ≤ d.upper
  lower_flag : d.flag? d.lower = some true
  upper_flag : d.flag? d.upper = some true
  size_eq : d.size = (stretch d.lower d.upper).countP fun x => d.flag? x = some true
  size_pos : 1 ≤ d.size
  size_eq_one_iff : d.size = 1 ↔ d.isFixed = true
  increasing : d.values.Pairwise (· < ·)
  mem_values : ∀ x, x ∈ d.values ↔ (d.lower ≤ x ∧ x ≤ d.upper) ∧ d.flag? x = some true
  listed : d.between? d.lower d.upper = some d.values
  member : ∀ x, d.member? x = some (d.contains x)
  above : ∀ x, d.lower ≤ x → x ≤ d.upper → ∃ b, d.ceil x = some b ∧ d.Finds 1 x b
  below : ∀ x, d.lower ≤ x → x ≤ d.upper → ∃ b, d.floor x = some b ∧ d.Finds (-1) x b

theorem pairwise_values (d : Domain) : d.values.Pairwise (· < ·) := by
  refine List.Pairwise.filter _ (List.pairwise_map.mpr ?_)
  exact List.pairwise_lt_range.imp fun lt => by omega

theorem Valid.mem_values_iff (hd : d.Valid) :
    x ∈ d.values ↔ (d.lower ≤ x ∧ x ≤ d.upper) ∧ d.flag? x = some true := by
  rw [mem_values, contains_iff, ← and_assoc]
  refine and_congr_right fun inside => ?_
  rw [hd.flag?_eq (hd.initial inside), Option.some.injEq]

theorem represented_of_valid (hd : d.Valid) : d.Represented where
  lower_le_upper := hd.lower_le_upper
  lower_flag := by
    rw [hd.flag?_eq (hd.initial ⟨Int.le_refl _, hd.lower_le_upper⟩), hd.lower_present]
  upper_flag := by
    rw [hd.flag?_eq (hd.initial ⟨hd.lower_le_upper, Int.le_refl _⟩), hd.upper_present]
  size_eq := by
    rw [hd.size_eq, countBetween_eq_length hd.origin_le_lower, ← List.countP_eq_length_filter]
    refine List.countP_congr fun x hx => ?_
    rw [hd.flag?_eq (hd.initial (mem_stretch.mp hx))]
    simp
  size_pos := by
    rw [hd.size_eq_length]
    exact List.length_pos_of_mem (mem_values.mpr hd.contains_lower)
  size_eq_one_iff := by
    rw [hd.size_eq_length]
    constructor
    · intro one
      obtain ⟨x, hx⟩ := List.length_eq_one_iff.mp one
      have lower := mem_values.mpr hd.contains_lower
      have upper := mem_values.mpr hd.contains_upper
      rw [hx, List.mem_singleton] at lower upper
      exact isFixed_iff.mpr (lower.trans upper.symm)
    · intro fixed
      rw [values_of_isFixed hd fixed]
      rfl
  increasing := d.pairwise_values
  mem_values _ := hd.mem_values_iff
  listed := hd.between?_eq fun _ hl hu => hd.initial ⟨hl, hu⟩
  member _ := hd.member?_eq
  above _ := hd.finds_up
  below _ := hd.finds_down

end Domain

/-! ## Operations that look up every flag -/

namespace Store.Checked
variable {s : Store} {v : Var} {x first last : Int}

/-- Keeps the values that are at least `x`. -/
noncomputable def setLower (v : Var) (x : Int) : Narrowing := withDomain v fun d =>
  if x ≤ d.lower then pure false
  else if d.upper < x then refute .emptyDomain
  else do
    let bound ← demand (d.seek 1 x)
    let lost ← demand ((d.between? d.lower (bound - 1)).map List.length)
    modifyGet fun s => (true, s.record v { d with lower := bound, size := d.size - lost }
      (.lower v d.lower d.size) .lowerBound)

/-- Keeps the values that are at most `x`. -/
noncomputable def setUpper (v : Var) (x : Int) : Narrowing := withDomain v fun d =>
  if d.upper ≤ x then pure false
  else if x < d.lower then refute .emptyDomain
  else do
    let bound ← demand (d.seek (-1) x)
    let lost ← demand ((d.between? (bound + 1) d.upper).map List.length)
    modifyGet fun s => (true, s.record v { d with upper := bound, size := d.size - lost }
      (.upper v d.upper d.size) .upperBound)

/-- Keeps the values other than `x`. -/
noncomputable def remove (v : Var) (x : Int) : Narrowing := withDomain v fun d => do
  let inside ← demand (d.member? x)
  if !inside then pure false
  else if d.lower = d.upper then refute .emptyDomain
  else if x = d.lower then setLower v (x + 1)
  else if x = d.upper then setUpper v (x - 1)
  else if d.hasHoles then modifyGet fun s => (true, s.record v (d.drop x) (.hole v x) .removal)
  else pure false

/-- Keeps the value `x` alone. -/
noncomputable def assign (v : Var) (x : Int) : Narrowing := withDomain v fun d => do
  let inside ← demand (d.member? x)
  if inside then both (setLower v x) (setUpper v x) else refute .emptyDomain

/-- Keeps the values from `first` to `last`. -/
noncomputable def narrow (v : Var) (first last : Int) : Narrowing := withDomain v fun d =>
  let first := max first d.lower
  let last := min last d.upper
  if last < first then refute .emptyDomain
  else do
    let bound ← demand (d.seek 1 first)
    if last < bound then refute .emptyDomain else both (setLower v first) (setUpper v last)

section
variable (hs : s.Valid)
include hs

/-- **The way up looks up nothing but flags that there are**, and so do all the others. -/
theorem setLower_eq : setLower v x s = Store.setLower v x s := by
  refine withDomain_congr fun d hd => ?_
  have valid := hs v d hd
  split
  · rfl
  · rename_i hl
    split
    · rename_i hu
      have none : d.ceil x = none := (Domain.ceil_eq_none_iff (by omega)).mpr fun y hy =>
        Bool.eq_false_iff.mpr fun inside => by have := Domain.contains_iff.mp inside; omega
      rw [none]
    · rename_i hu
      obtain ⟨b, found, finds⟩ := valid.finds_up (Int.le_of_not_le hl) (Int.not_lt.mp hu)
      obtain ⟨-, mem, -⟩ := Domain.ceil_eq_some found (by omega)
      rw [finds.seek_eq, found, bind_of_ok (demand_some b s), valid.count_lost_below mem,
        bind_of_ok (demand_some _ s), ← valid.raise_eq mem]

theorem setUpper_eq : setUpper v x s = Store.setUpper v x s := by
  refine withDomain_congr fun d hd => ?_
  have valid := hs v d hd
  split
  · rfl
  · rename_i hu
    split
    · rename_i hl
      have none : d.floor x = none := (Domain.floor_eq_none_iff (by omega)).mpr fun y hy =>
        Bool.eq_false_iff.mpr fun inside => by have := Domain.contains_iff.mp inside; omega
      rw [none]
    · rename_i hl
      obtain ⟨b, found, finds⟩ := valid.finds_down (Int.not_lt.mp hl) (Int.le_of_not_le hu)
      obtain ⟨-, mem, -⟩ := Domain.floor_eq_some found (by omega)
      rw [finds.seek_eq, found, bind_of_ok (demand_some b s), valid.count_lost_above mem,
        bind_of_ok (demand_some _ s), ← valid.cut_eq mem]

theorem remove_eq : remove v x s = Store.remove v x s := by
  refine withDomain_congr fun d hd => ?_
  rw [(hs v d hd).member?_eq, bind_of_ok (demand_some _ s)]
  split
  · rfl
  · split
    · rfl
    · split
      · exact setLower_eq hs
      · split
        · exact setUpper_eq hs
        · rfl

theorem both_eq : both (setLower v first) (setUpper v last) s =
    both (Store.setLower v first) (Store.setUpper v last) s := by
  unfold both
  have kept : Keeps s v (first ≤ ·) (Store.setLower v first) := keeps_setLower hs
  cases run : Store.setLower v first s with
  | ok changed t =>
    rw [bind_of_ok run, bind_of_ok ((setLower_eq hs).trans run)]
    have same : setUpper v last t = Store.setUpper v last t := setUpper_eq ((kept.of_ok run).narrows.valid hs)
    cases run' : Store.setUpper v last t with
    | ok changed' u => rw [bind_of_ok run', bind_of_ok (same.trans run')]
    | error halt u => rw [bind_of_error run', bind_of_error (same.trans run')]
  | error halt t => rw [bind_of_error run, bind_of_error ((setLower_eq hs).trans run)]

theorem assign_eq : assign v x s = Store.assign v x s := by
  refine withDomain_congr fun d hd => ?_
  rw [(hs v d hd).member?_eq, bind_of_ok (demand_some _ s)]
  split
  · exact both_eq hs
  · rfl

theorem narrow_eq : narrow v first last s = Store.narrow v first last s := by
  refine withDomain_congr fun d hd => ?_
  have valid := hs v d hd
  split
  · rename_i crossed
    cases found : d.ceil (max first d.lower) with
    | none => rfl
    | some b =>
      -- what is found from beyond the last value on is too late
      have := (Domain.ceil_eq_some found (by omega)).1
      dsimp only
      rw [if_neg (by omega)]
  · rename_i apart
    obtain ⟨b, found, finds⟩ := valid.finds_up (x := max first d.lower) (by omega) (by omega)
    rw [finds.seek_eq, found, bind_of_ok (demand_some b s)]
    dsimp only
    by_cases late : min last d.upper < b
    · rw [if_pos late, if_neg (by omega)]
    · rw [if_neg late, if_pos (by omega)]
      exact both_eq hs

end

end Store.Checked

namespace Restriction
variable {s : Store} {r : Restriction}

/-- The operation that looks up every flag. -/
noncomputable def checked : Restriction → Store.Narrowing
  | .setLower v x => Store.Checked.setLower v x
  | .setUpper v x => Store.Checked.setUpper v x
  | .remove v x => Store.Checked.remove v x
  | .assign v x => Store.Checked.assign v x
  | .narrow v first last => Store.Checked.narrow v first last

/-- **To look up every flag makes no difference.** -/
theorem checked_eq (hs : s.Valid) (r : Restriction) : r.checked s = r.narrowing s := by
  cases r with
  | setLower v x => exact Store.Checked.setLower_eq hs
  | setUpper v x => exact Store.Checked.setUpper_eq hs
  | remove v x => exact Store.Checked.remove_eq hs
  | assign v x => exact Store.Checked.assign_eq hs
  | narrow v first last => exact Store.Checked.narrow_eq hs

/-- An operation on a variable that there is has an answer. -/
theorem narrowing_ne_fault (hs : s.Valid) (hv : r.var < s.numVars) (cause : Fault) (t : Store) :
    r.narrowing s ≠ .error (.fault cause) t := by
  intro run
  cases (r.keeps hs).of_error run with
  | unknown missing => exact absurd (Store.domain?_eq_none_iff.mp missing) (Nat.not_le_of_lt hv)

end Restriction

namespace Store
variable {s : Store}

/-- **Every domain of a store that can be reached is what it should be**: its bounds are present, its size is the
number of values between them, and its values are listed in increasing order.  Every search and every lookup of
an operation stays within what the domain was created with, and so does what is put back when a level is left. -/
theorem Reachable.represented (h : s.Reachable) :
    (∀ v d, s.domain? v = some d → d.Represented) ∧
    (∀ r : Restriction, r.var < s.numVars →
      r.checked s = r.narrowing s ∧ ∀ cause t, r.checked s ≠ .error (.fault cause) t) ∧
    ∀ v x, Change.hole v x ∈ s.trail.changes → ∃ d, s.domain? v = some d ∧ d.Initial x := by
  have valid := h.sound.valid
  refine ⟨fun v d hd => Domain.represented_of_valid (valid v d hd), fun r hv => ?_, fun v x hx => ?_⟩
  · have same := r.checked_eq valid
    refine ⟨same, fun cause t => ?_⟩
    rw [same]
    exact r.narrowing_ne_fault valid hv cause t
  · obtain ⟨hv, initial⟩ := h.sound.removed v x hx
    exact ⟨_, domain?_eq_some hv, initial⟩

theorem represented_holed : holed.Reachable ∧ (holed.domain 0).size = 2 ∧ (holed.domain 0).Finds 1 2 3 ∧
    (Restriction.setLower 0 2).checked holed = (Restriction.setLower 0 2).narrowing holed := by
  obtain ⟨domains, operations, -⟩ := Reachable.represented reachable_holed
  obtain ⟨b, found, finds⟩ := (domains 0 _ rfl).above 2 (by decide) (by decide)
  obtain rfl : 3 = b := Option.some.inj found
  exact ⟨reachable_holed, rfl, finds, (operations _ (by decide)).1⟩

end Store
end BranchBound
