import BranchBound.Proofs.Domain
import BranchBound.Proofs.Outcome
import BranchBound.Store
import BranchBound.Sum

/-! # Narrowing

A store narrows by single changes, in each of which the domain of one variable shrinks
(`Shrinks`); any number of them, one after another, is a **narrowing** (`Store.Narrows`).  A
narrowing keeps a store valid, takes values away and adds none.

The five operations of a store are narrowings, and each **intersects the values of its variable
with the set that it names** (`Narrowed`), unless nothing would be left, in which case it is refused
and changes nothing (`Refused`).

A store *encloses* another one if it has all of its values (`Store.Encloses`), as the store before a
narrowing does.  What is fixed in it is fixed to the same value in the other, and its bounds are no
closer. -/
namespace BranchBound

/-- A domain shrinks: what it becomes, what undoes that, and the event that it causes. -/
inductive Shrinks (v : Var) (d : Domain) : Domain → Change → Event → Prop
  | raise {b : Int} (lt : d.lower < b) (mem : d.contains b = true) :
    Shrinks v d (d.raise b) (.lower v d.lower d.size) .lowerBound
  | cut {b : Int} (lt : b < d.upper) (mem : d.contains b = true) :
    Shrinks v d (d.cut b) (.upper v d.upper d.size) .upperBound
  | drop {x : Int} (h : d.Droppable x) : Shrinks v d (d.drop x) (.hole v x) .removal

namespace Shrinks
variable {v : Var} {d d' : Domain} {c : Change} {e : Event}

theorem valid (h : Shrinks v d d' c e) (hd : d.Valid) : d'.Valid := by
  cases h with
  | raise lt mem => exact hd.raise mem
  | cut lt mem => exact hd.cut mem
  | drop hx => exact Domain.Valid.drop hd hx

theorem size_lt (h : Shrinks v d d' c e) (hd : d.Valid) : d'.size < d.size := by
  cases h with
  | raise lt mem => exact Domain.size_raise_lt hd lt (Domain.contains_iff.mp mem).2.1
  | cut lt mem => exact Domain.size_cut_lt hd (Domain.contains_iff.mp mem).1 lt
  | drop hx => exact Domain.size_drop_lt hd hx

theorem contains (h : Shrinks v d d' c e) (hd : d.Valid) {y : Int} (hy : d'.contains y = true) :
    d.contains y = true := by
  cases h with
  | raise lt mem => exact ((Domain.contains_raise (Int.le_of_lt lt)).mp hy).1
  | cut lt mem => exact ((Domain.contains_cut (Int.le_of_lt lt)).mp hy).1
  | drop hx => exact ((Domain.contains_drop hd hx).mp hy).1

/-- Only a domain that is not fixed shrinks. -/
theorem not_isFixed (h : Shrinks v d d' c e) : d.isFixed = false := by
  rw [← Bool.not_eq_true, Domain.isFixed_iff]
  cases h with
  | raise lt mem => have := (Domain.contains_iff.mp mem).2.1; omega
  | cut lt mem => have := (Domain.contains_iff.mp mem).1; omega
  | drop hx => have := hx.lower_lt; have := hx.lt_upper; omega

theorem lower_eq (h : Shrinks v d d' c e) (he : e ≠ .lowerBound) : d'.lower = d.lower := by
  cases h with
  | raise lt mem => exact absurd rfl he
  | cut lt mem => rfl
  | drop hx => rfl

theorem upper_eq (h : Shrinks v d d' c e) (he : e ≠ .upperBound) : d'.upper = d.upper := by
  cases h with
  | raise lt mem => rfl
  | cut lt mem => exact absurd rfl he
  | drop hx => rfl

theorem width_eq (h : Shrinks v d d' c e) : d'.width = d.width := by cases h <;> rfl

end Shrinks

namespace Store
variable {s t u : Store} {v w : Var} {d d' : Domain} {c : Change} {e : Event} {x y : Int}

/-- Every domain is valid. -/
def Valid (s : Store) : Prop := ∀ v d, s.domain? v = some d → d.Valid

theorem domain_of (h : s.domain? v = some d) : s.domain v = d := by simp [domain, h]

theorem domain?_eq_some (h : v < s.numVars) : s.domain? v = some (s.domain v) := by
  have : s.domains.get? v = some s.domains.items[v] := Array.getElem?_eq_getElem h
  simp [domain, domain?, this]

theorem lt_numVars_of (h : s.domain? v = some d) : v < s.numVars := by
  obtain ⟨hv, -⟩ := Array.getElem?_eq_some_iff.mp h
  exact hv

theorem domain?_eq_none_iff : s.domain? v = none ↔ s.numVars ≤ v := by
  simp [domain?, numVars, Arena.get?, Arena.size]

theorem domain_of_numVars_le (h : s.numVars ≤ v) : s.domain v = default := by
  simp [domain, domain?_eq_none_iff.mpr h]

/-- Every variable of a store is in the other as well, with the same domain. -/
def Grows (s t : Store) : Prop := ∀ v d, s.domain? v = some d → t.domain? v = some d

theorem Grows.known (h : s.Grows t) (hv : v < s.numVars) : v < t.numVars ∧ t.domain v = s.domain v :=
  have now := h v _ (domain?_eq_some hv)
  ⟨lt_numVars_of now, domain_of now⟩

theorem grows_of_domains (h : t.domains = s.domains) : s.Grows t := fun v d hd => by
  rw [domain?, h]
  exact hd

theorem Valid.domain (hs : s.Valid) (v : Var) : (s.domain v).Valid := by
  by_cases h : v < s.numVars
  · exact hs v _ (domain?_eq_some h)
  · rw [domain_of_numVars_le (Nat.le_of_not_lt h)]
    exact Domain.valid_ofRange (Int.le_refl 0)

theorem Valid.contains_lower (hs : s.Valid) (v : Var) : s.contains v (s.lower v) = true :=
  (hs.domain v).contains_lower

theorem Valid.contains_upper (hs : s.Valid) (v : Var) : s.contains v (s.upper v) = true :=
  (hs.domain v).contains_upper

theorem Valid.lower_le_upper (hs : s.Valid) (v : Var) : s.lower v ≤ s.upper v :=
  (hs.domain v).lower_le_upper

theorem bounds_of_contains (h : s.contains v x = true) : s.lower v ≤ x ∧ x ≤ s.upper v := by
  have := Domain.contains_iff.mp h
  exact ⟨this.1, this.2.1⟩

theorem isFixed_iff : s.isFixed v = true ↔ s.lower v = s.upper v := Domain.isFixed_iff

theorem fixed?_eq_some_iff : s.fixed? v = some x ↔ s.lower v = x ∧ s.upper v = x :=
  Domain.fixed?_eq_some_iff

theorem fixed?_eq_none_iff : s.fixed? v = none ↔ s.isFixed v = false := by
  rw [← Bool.not_eq_true, isFixed_iff]
  exact Domain.fixed?_eq_none_iff

theorem isFixed_of_fixed? (h : s.fixed? v = some x) : s.isFixed v = true := by
  obtain ⟨lower, upper⟩ := fixed?_eq_some_iff.mp h
  exact isFixed_iff.mpr (lower.trans upper.symm)

theorem isFixed_iff_fixed? : s.isFixed v = true ↔ s.fixed? v = some (s.lower v) := by
  rw [isFixed_iff, fixed?_eq_some_iff]
  exact ⟨fun h => ⟨rfl, h.symm⟩, fun h => h.2.symm⟩

theorem Valid.contains_of_fixed? (hs : s.Valid) (h : s.fixed? v = some x) : s.contains v x = true := by
  rw [← (fixed?_eq_some_iff.mp h).1]
  exact hs.contains_lower v

theorem eq_of_fixed? (h : s.fixed? v = some x) (hy : s.contains v y = true) : y = x := by
  have := bounds_of_contains hy
  have := fixed?_eq_some_iff.mp h
  omega

/-- A variable stays fixed when values are taken away. -/
theorem isFixed_of_within (ht : t.Valid) (within : ∀ x, t.contains v x = true → s.contains v x = true)
    (h : s.isFixed v = true) : t.isFixed v = true := by
  have := bounds_of_contains (within _ (ht.contains_lower v))
  have := bounds_of_contains (within _ (ht.contains_upper v))
  rw [isFixed_iff] at h ⊢
  omega

theorem mem_values : x ∈ s.values v ↔ s.contains v x = true := Domain.mem_values

/-! ## Single changes -/

theorem domain?_record :
    (s.record v d c e).domain? w = if v = w then (s.domain? w).map fun _ => d else s.domain? w := by
  simp [domain?, record, Arena.get?_set]

theorem domain?_record_self (hd : s.domain? v = some d) :
    (s.record v d' c e).domain? v = some d' := by
  simp [domain?_record, hd]

theorem domain?_record_ne (h : v ≠ w) : (s.record v d c e).domain? w = s.domain? w := by
  simp [domain?_record, h]

@[simp] theorem numVars_record : (s.record v d c e).numVars = s.numVars := Arena.size_set _ _ _

theorem numValues_eq (s : Store) : s.numValues = sumNat (s.domains.items.toList.map Domain.size) := by
  have fold (l : List Domain) (n : Nat) :
      l.foldl (fun n d => n + d.size) n = n + sumNat (l.map Domain.size) := by
    induction l generalizing n with
    | nil => rfl
    | cons d l ih => simp only [List.foldl_cons, List.map_cons, sumNat, ih]; omega
  rw [numValues, ← Array.foldl_toList, fold, Nat.zero_add]

/-- Replacing one summand. -/
theorem sumNat_set (l : List Nat) (i n : Nat) (h : i < l.length) :
    sumNat (l.set i n) + l[i] = sumNat l + n := by
  induction l generalizing i with
  | nil => exact absurd h (Nat.not_lt_zero i)
  | cons m l ih =>
    cases i with
    | zero => simp only [List.set_cons_zero, sumNat, List.getElem_cons_zero]; omega
    | succ i =>
      have := ih i (Nat.lt_of_succ_lt_succ h)
      simp only [List.set_cons_succ, sumNat, List.getElem_cons_succ]
      omega

theorem numValues_record_lt (hd : s.domain? v = some d) (h : d'.size < d.size) :
    (s.record v d' c e).numValues < s.numValues := by
  obtain ⟨hv, hget⟩ := Array.getElem?_eq_some_iff.mp hd
  have replaced := sumNat_set (s.domains.items.toList.map Domain.size) v d'.size (by simpa using hv)
  rw [List.getElem_map, Array.getElem_toList, hget] at replaced
  have set : (s.record v d' c e).numValues =
      sumNat ((s.domains.items.toList.map Domain.size).set v d'.size) := by
    rw [numValues_eq]
    simp [record, Arena.set, List.map_set]
  rw [set, numValues_eq]
  omega

theorem Valid.record (hs : s.Valid) (hd : s.domain? v = some d) (h : Shrinks v d d' c e) :
    (s.record v d' c e).Valid := by
  intro w dw hw
  rw [domain?_record] at hw
  split at hw
  · subst w
    rw [hd] at hw
    obtain rfl : d' = dw := by simpa using hw
    exact h.valid (hs v d hd)
  · exact hs w dw hw

/-! ## Narrowings -/

/-- What a store comes to when domains shrink one after another. -/
inductive Narrows (s : Store) : Store → Prop
  | refl : Narrows s s
  | shrink {t : Store} {v : Var} {d d' : Domain} {c : Change} {e : Event} (h : Narrows s t)
    (hd : t.domain? v = some d) (hs : Shrinks v d d' c e) : Narrows s (t.record v d' c e)

namespace Narrows

theorem single (hd : s.domain? v = some d) (h : Shrinks v d d' c e) :
    Narrows s (s.record v d' c e) := .shrink .refl hd h

theorem trans (h : Narrows s t) (h' : Narrows t u) : Narrows s u := by
  induction h' with
  | refl => exact h
  | shrink _ hd hs ih => exact .shrink ih hd hs

theorem valid (h : Narrows s t) (hs : s.Valid) : t.Valid := by
  induction h with
  | refl => exact hs
  | shrink _ hd hsh ih => exact ih.record hd hsh

theorem numVars_eq (h : Narrows s t) : t.numVars = s.numVars := by
  induction h with
  | refl => rfl
  | shrink _ hd hsh ih => rw [numVars_record, ih]

theorem width_eq (h : Narrows s t) (v : Var) : (t.domain v).width = (s.domain v).width := by
  induction h with
  | refl => rfl
  | @shrink t w d d' c e _ hd hsh ih =>
    rw [← ih]
    by_cases hwv : w = v
    · subst w
      rw [domain_of (domain?_record_self hd), domain_of hd, hsh.width_eq]
    · rw [domain, domain?_record_ne hwv, ← domain]

theorem contains (h : Narrows s t) (hs : s.Valid) (hy : t.contains v y = true) :
    s.contains v y = true := by
  induction h with
  | refl => exact hy
  | @shrink t w d d' c e h hd hsh ih =>
    refine ih ?_
    by_cases hw : w = v
    · subst hw
      rw [Store.contains, domain_of (domain?_record_self hd)] at hy
      rw [Store.contains, domain_of hd]
      exact hsh.contains (h.valid hs _ _ hd) hy
    · rw [Store.contains, domain, domain?_record_ne hw] at hy
      exact hy

/-- What is gone stays gone. -/
theorem contains_eq_false (h : Narrows s t) (hs : s.Valid) (gone : s.contains v x = false) :
    t.contains v x = false :=
  Bool.eq_false_iff.mpr (mt (h.contains hs) (Bool.eq_false_iff.mp gone))

theorem lower_le (h : Narrows s t) (hs : s.Valid) (v : Var) : s.lower v ≤ t.lower v :=
  (bounds_of_contains (h.contains hs ((h.valid hs).contains_lower v))).1

theorem upper_le (h : Narrows s t) (hs : s.Valid) (v : Var) : t.upper v ≤ s.upper v :=
  (bounds_of_contains (h.contains hs ((h.valid hs).contains_upper v))).2

/-- What is fixed stays fixed. -/
theorem fixed? (h : Narrows s t) (hs : s.Valid) (hx : s.fixed? v = some x) :
    t.fixed? v = some x := by
  have bounds := fixed?_eq_some_iff.mp hx
  have := h.lower_le hs v
  have := h.upper_le hs v
  have := (h.valid hs).lower_le_upper v
  exact fixed?_eq_some_iff.mpr (by omega)

/-- What is fixed stays as it is. -/
theorem isFixed (h : Narrows s t) (hs : s.Valid) (hf : s.isFixed v = true) :
    t.isFixed v = true ∧ t.lower v = s.lower v := by
  have fixed := h.fixed? hs (isFixed_iff_fixed?.mp hf)
  exact ⟨isFixed_of_fixed? fixed, (fixed?_eq_some_iff.mp fixed).1⟩

theorem level_eq (h : Narrows s t) : t.level = s.level := by
  induction h with
  | refl => rfl
  | shrink _ _ _ ih => exact ih

end Narrows

/-! ## What an operation does -/

/-- An operation has kept the values of `v` in a set, and answered whether that changed the domain. -/
structure Narrowed (s : Store) (v : Var) (keep : Int → Prop) (changed : Bool) (t : Store) :
    Prop where
  narrows : s.Narrows t
  contains_iff : ∀ y, t.contains v y = true ↔ s.contains v y = true ∧ keep y
  others : ∀ w, w ≠ v → t.domain? w = s.domain? w
  unchanged : changed = false → t = s
  changed_lt : changed = true → t.numValues < s.numValues

/-- An operation has changed nothing, because no value would be left or there is no variable. -/
inductive Refused (s : Store) (v : Var) (keep : Int → Prop) : Halt → Store → Prop
  | empty (hv : v < s.numVars) (h : ∀ y, s.contains v y = true → ¬ keep y) :
    Refused s v keep (.inconsistent .emptyDomain) s
  | unknown (h : s.domain? v = none) : Refused s v keep (.fault .outOfRange) s

section
variable {keep keep' : Int → Prop}

theorem Narrowed.refl (h : ∀ y, s.contains v y = true → keep y) : Narrowed s v keep false s where
  narrows := .refl
  contains_iff y := ⟨fun hy => ⟨hy, h y hy⟩, And.left⟩
  others _ _ := rfl
  unchanged _ := rfl
  changed_lt h := by cases h

theorem Narrowed.congr {changed : Bool} (h : Narrowed s v keep changed t)
    (same : ∀ y, s.contains v y = true → (keep y ↔ keep' y)) : Narrowed s v keep' changed t where
  narrows := h.narrows
  contains_iff y := (h.contains_iff y).trans (and_congr_right (same y))
  others := h.others
  unchanged := h.unchanged
  changed_lt := h.changed_lt

theorem Refused.congr {halt : Halt} (h : Refused s v keep halt t)
    (same : ∀ y, s.contains v y = true → (keep y ↔ keep' y)) : Refused s v keep' halt t := by
  cases h with
  | empty hv h => exact .empty hv fun y hy hk => h y hy ((same y hy).mpr hk)
  | unknown h => exact .unknown h

theorem Refused.eq {halt : Halt} (h : Refused s v keep halt t) : t = s := by cases h <;> rfl

theorem narrowed_record (hs : s.Valid) (hd : s.domain? v = some d) (h : Shrinks v d d' c e)
    (same : ∀ y, d'.contains y = true ↔ d.contains y = true ∧ keep y) :
    Narrowed s v keep true (s.record v d' c e) where
  narrows := .single hd h
  contains_iff y := by
    rw [contains, contains, domain_of hd, domain_of (domain?_record_self hd)]
    exact same y
  others _ hw := domain?_record_ne (Ne.symm hw)
  unchanged h := by cases h
  changed_lt _ := numValues_record_lt hd (h.size_lt (hs v d hd))

/-- Both of two operations on the same variable. -/
theorem Narrowed.both {a b : Bool} (h : Narrowed s v keep a t) (h' : Narrowed t v keep' b u) :
    Narrowed s v (fun y => keep y ∧ keep' y) (a || b) u where
  narrows := h.narrows.trans h'.narrows
  contains_iff y := by rw [h'.contains_iff, h.contains_iff, and_assoc]
  others w hw := (h'.others w hw).trans (h.others w hw)
  unchanged hab := by
    simp only [Bool.or_eq_false_iff] at hab
    rw [h'.unchanged hab.2, h.unchanged hab.1]
  changed_lt hab := by
    rw [Bool.or_eq_true] at hab
    cases a with
    | false =>
      have := h'.changed_lt (by simpa using hab)
      rwa [h.unchanged rfl] at this
    | true =>
      have first := h.changed_lt rfl
      cases b with
      | false => rwa [h'.unchanged rfl]
      | true => exact Nat.lt_trans (h'.changed_lt rfl) first

end

/-- An operation keeps the values of `v` in a set, unless there are none. -/
abbrev Keeps (s : Store) (v : Var) (keep : Int → Prop) (f : Narrowing) : Prop :=
  Ends (f s) (Narrowed s v keep) (Refused s v keep)

/-- Only the domain that there is makes a difference. -/
theorem withDomain_congr {f g : Domain → Narrowing} (h : ∀ d, s.domain? v = some d → f d s = g d s) :
    withDomain v f s = withDomain v g s := by
  unfold withDomain
  cases hd : s.domain? v with
  | none => rfl
  | some d => exact h d hd

theorem ends_withDomain {f : Domain → Narrowing} {Q : Bool → Store → Prop} {E : Halt → Store → Prop}
    (unknown : s.domain? v = none → E (.fault .outOfRange) s)
    (h : ∀ d, s.domain? v = some d → Ends (f d s) Q E) : Ends (withDomain v f s) Q E := by
  unfold withDomain
  cases hd : s.domain? v with
  | none => exact unknown hd
  | some d => exact h d hd

theorem keeps_withDomain {keep : Int → Prop} {f : Domain → Narrowing}
    (h : ∀ d, s.domain? v = some d → Keeps s v keep (f d)) : Keeps s v keep (withDomain v f) :=
  ends_withDomain .unknown h

end Store

/-! ## Where bounds move to -/

namespace Domain
variable {d : Domain} {x b : Int}

theorem firstPresent_eq_some {n : Nat} (h : d.firstPresent x n = some b) :
    x ≤ b ∧ b < x + n ∧ d.isPresent b = true ∧ ∀ y, x ≤ y → y < b → d.isPresent y = false := by
  induction n generalizing x with
  | zero => simp [firstPresent] at h
  | succ n ih =>
    unfold firstPresent at h
    split at h
    · rename_i hp
      obtain rfl : x = b := by simpa using h
      exact ⟨Int.le_refl x, by omega, hp, fun y h1 h2 => by omega⟩
    · rename_i hp
      obtain ⟨hl, hu, hpb, least⟩ := ih h
      refine ⟨by omega, by omega, hpb, fun y h1 h2 => ?_⟩
      by_cases hxy : y = x
      · subst hxy; simpa using hp
      · exact least y (by omega) h2

theorem lastPresent_eq_some {n : Nat} (h : d.lastPresent x n = some b) :
    b ≤ x ∧ x < b + n ∧ d.isPresent b = true ∧ ∀ y, b < y → y ≤ x → d.isPresent y = false := by
  induction n generalizing x with
  | zero => simp [lastPresent] at h
  | succ n ih =>
    unfold lastPresent at h
    split at h
    · rename_i hp
      obtain rfl : x = b := by simpa using h
      exact ⟨Int.le_refl x, by omega, hp, fun y h1 h2 => by omega⟩
    · rename_i hp
      obtain ⟨hl, hu, hpb, greatest⟩ := ih h
      refine ⟨by omega, by omega, hpb, fun y h1 h2 => ?_⟩
      by_cases hxy : y = x
      · subst hxy; simpa using hp
      · exact greatest y h1 (by omega)

/-- What is found is the least value from `x` on. -/
theorem ceil_eq_some (h : d.ceil x = some b) (hx : d.lower ≤ x) :
    x ≤ b ∧ d.contains b = true ∧ ∀ y, d.contains y = true → x ≤ y → b ≤ y := by
  obtain ⟨hl, hu, hp, least⟩ := firstPresent_eq_some h
  refine ⟨hl, contains_iff.mpr ⟨by omega, by omega, hp⟩, fun y hy hxy => ?_⟩
  rcases Int.lt_or_le y b with hlt | hle
  · have := least y hxy hlt
    rw [(contains_iff.mp hy).2.2] at this
    cases this
  · exact hle

/-- What is found is the greatest value up to `x`. -/
theorem floor_eq_some (h : d.floor x = some b) (hx : x ≤ d.upper) :
    b ≤ x ∧ d.contains b = true ∧ ∀ y, d.contains y = true → y ≤ x → y ≤ b := by
  obtain ⟨hl, hu, hp, greatest⟩ := lastPresent_eq_some h
  refine ⟨hl, contains_iff.mpr ⟨by omega, by omega, hp⟩, fun y hy hxy => ?_⟩
  rcases Int.lt_or_le b y with hlt | hle
  · have := greatest y hlt hxy
    rw [(contains_iff.mp hy).2.2] at this
    cases this
  · exact hle

end Domain

/-! ## The operations -/

namespace Store
variable {s : Store} {v : Var} {x : Int}

theorem keeps_setLower (hs : s.Valid) : Keeps s v (x ≤ ·) (setLower v x) := by
  refine keeps_withDomain fun d hd => ?_
  have here (y : Int) : s.contains v y = d.contains y := by rw [contains, domain_of hd]
  split
  · rename_i hx
    refine .refl fun y hy => ?_
    rw [here] at hy
    exact Int.le_trans hx (Domain.contains_iff.mp hy).1
  · rename_i hx
    split
    · rename_i hn
      refine .empty (lt_numVars_of hd) fun y hy hk => ?_
      rw [here, (Domain.ceil_eq_none_iff (by omega)).mp hn y hk] at hy
      cases hy
    · rename_i b hb
      obtain ⟨hxb, mem, least⟩ := Domain.ceil_eq_some hb (by omega)
      refine narrowed_record hs hd (.raise (by omega) mem) fun y => ?_
      rw [Domain.contains_raise (by omega)]
      exact and_congr_right fun hy => ⟨fun h => Int.le_trans hxb h, least y hy⟩

theorem keeps_setUpper (hs : s.Valid) : Keeps s v (· ≤ x) (setUpper v x) := by
  refine keeps_withDomain fun d hd => ?_
  have here (y : Int) : s.contains v y = d.contains y := by rw [contains, domain_of hd]
  split
  · rename_i hx
    refine .refl fun y hy => ?_
    rw [here] at hy
    exact Int.le_trans (Domain.contains_iff.mp hy).2.1 hx
  · rename_i hx
    split
    · rename_i hn
      refine .empty (lt_numVars_of hd) fun y hy hk => ?_
      rw [here, (Domain.floor_eq_none_iff (by omega)).mp hn y hk] at hy
      cases hy
    · rename_i b hb
      obtain ⟨hbx, mem, greatest⟩ := Domain.floor_eq_some hb (by omega)
      refine narrowed_record hs hd (.cut (by omega) mem) fun y => ?_
      rw [Domain.contains_cut (by omega)]
      exact and_congr_right fun hy => ⟨fun h => Int.le_trans h hbx, greatest y hy⟩

/-- Which values are left when `x` is removed: a plain interval keeps what is between its bounds. -/
def Remaining (s : Store) (v : Var) (x y : Int) : Prop :=
  y ≠ x ∨ ((s.domain v).hasHoles = false ∧ s.lower v < x ∧ x < s.upper v)

theorem keeps_remove (hs : s.Valid) : Keeps s v (s.Remaining v x) (remove v x) := by
  refine keeps_withDomain fun d hd => ?_
  have here (y : Int) : s.contains v y = d.contains y := by rw [contains, domain_of hd]
  have remaining {y : Int} : s.Remaining v x y ↔
      y ≠ x ∨ (d.hasHoles = false ∧ d.lower < x ∧ x < d.upper) := by
    rw [Remaining, lower, upper, domain_of hd]
  by_cases hx : d.contains x = true
  · simp only [hx, Bool.not_true, Bool.false_eq_true, if_false]
    obtain ⟨hl, hu, hp⟩ := Domain.contains_iff.mp hx
    split
    · rename_i hfix
      refine .empty (lt_numVars_of hd) fun y hy hk => ?_
      have := Domain.contains_iff.mp ((here y).symm.trans hy)
      have := remaining.mp hk
      omega
    · rename_i hfix
      split
      · rename_i hxl
        have same (y : Int) (hy : s.contains v y = true) : x + 1 ≤ y ↔ s.Remaining v x y := by
          have := Domain.contains_iff.mp ((here y).symm.trans hy)
          rw [remaining]
          omega
        exact (keeps_setLower hs).mono (fun _ _ h => h.congr same) fun _ _ h => h.congr same
      · rename_i hxl
        split
        · rename_i hxu
          have same (y : Int) (hy : s.contains v y = true) : y ≤ x - 1 ↔ s.Remaining v x y := by
            have := Domain.contains_iff.mp ((here y).symm.trans hy)
            rw [remaining]
            omega
          exact (keeps_setUpper hs).mono (fun _ _ h => h.congr same) fun _ _ h => h.congr same
        · rename_i hxu
          split
          · rename_i holes
            have hdrop : d.Droppable x := ⟨by omega, by omega, hp, holes⟩
            refine narrowed_record hs hd (.drop hdrop) fun y => ?_
            rw [Domain.contains_drop (hs v d hd) hdrop, remaining, holes]
            simp
          · rename_i holes
            refine .refl fun y _ => remaining.mpr (.inr ⟨by simpa using holes, by omega, by omega⟩)
  · simp only [hx, Bool.not_false, if_true]
    refine .refl fun y hy => .inl ?_
    rintro rfl
    exact hx ((here y).symm.trans hy)

/-- A value is gone when it was removed from a domain that can have holes. -/
theorem Narrowed.removed {changed : Bool} (h : s.Narrowed v (s.Remaining v x) changed t) (hs : s.Valid)
    (width : (s.domain v).width ≤ Domain.holeLimit) : t.contains v x = false := by
  refine Bool.eq_false_iff.mpr fun hin => ?_
  rcases ((h.contains_iff x).mp hin).2 with hne | ⟨plain, -⟩
  · exact hne rfl
  · rw [(hs.domain v).hasHoles_iff.mpr width] at plain
    cases plain

theorem keeps_both {s : Store} {keep keep' : Int → Prop} {f g : Narrowing}
    (hf : Keeps s v keep f) (hg : ∀ t, s.Narrows t → (∀ w, w ≠ v → t.domain? w = s.domain? w) →
      (∀ y, t.contains v y = true ↔ s.contains v y = true ∧ keep y) → Keeps t v keep' g)
    (possible : ∃ y, s.contains v y = true ∧ keep y ∧ keep' y) (hv : s.domain? v ≠ none) :
    Keeps s v (fun y => keep y ∧ keep' y) (both f g) := by
  obtain ⟨z, hz, hk, hk'⟩ := possible
  unfold Keeps both
  rw [ends_bind]
  refine Ends.mono hf (fun a t ht => ?_) fun e t ht => ?_
  · rw [ends_bind]
    refine Ends.mono (hg t ht.narrows ht.others ht.contains_iff) (fun b u hu => ?_) fun e u hu => ?_
    · exact ht.both hu
    · cases hu with
      | empty _ h => exact absurd hk' (h z ((ht.contains_iff z).mpr ⟨hz, hk⟩))
      | unknown h =>
        have := ht.narrows.numVars_eq
        rw [domain?_eq_none_iff] at h
        exact absurd (domain?_eq_none_iff.mpr (by omega)) hv
  · cases ht with
    | empty _ h => exact absurd hk (h z hz)
    | unknown h => exact absurd h hv

theorem keeps_assign (hs : s.Valid) : Keeps s v (· = x) (assign v x) := by
  refine keeps_withDomain fun d hd => ?_
  have here (y : Int) : s.contains v y = d.contains y := by rw [contains, domain_of hd]
  split
  · rename_i hx
    have both : Keeps s v (fun y => x ≤ y ∧ y ≤ x) (both (setLower v x) (setUpper v x)) :=
      keeps_both (keeps_setLower hs) (fun t h _ _ => keeps_setUpper (h.valid hs))
        ⟨x, (here x).trans hx, Int.le_refl x, Int.le_refl x⟩ (by simp [hd])
    have same (y : Int) (_ : s.contains v y = true) : (x ≤ y ∧ y ≤ x) ↔ y = x := by omega
    exact both.mono (fun _ _ h => h.congr same) fun _ _ h => h.congr same
  · rename_i hx
    refine .empty (lt_numVars_of hd) fun y hy hyx => hx ?_
    subst hyx
    exact (here y).symm.trans hy

theorem keeps_narrow {first last : Int} (hs : s.Valid) :
    Keeps s v (fun y => first ≤ y ∧ y ≤ last) (narrow v first last) := by
  refine keeps_withDomain fun d hd => ?_
  have here (y : Int) : s.contains v y = d.contains y := by rw [contains, domain_of hd]
  have same (y : Int) (hy : s.contains v y = true) :
      (max first d.lower ≤ y ∧ y ≤ min last d.upper) ↔ (first ≤ y ∧ y ≤ last) := by
    have := Domain.contains_iff.mp ((here y).symm.trans hy)
    omega
  dsimp only
  split
  · rename_i hn
    refine .empty (lt_numVars_of hd) fun y hy hk => ?_
    have := (Domain.ceil_eq_none_iff (by omega)).mp hn y ((same y hy).mpr hk).1
    rw [here, this] at hy
    cases hy
  · rename_i b hb
    obtain ⟨hfb, mem, least⟩ := Domain.ceil_eq_some hb (by omega)
    split
    · rename_i hbl
      have both : Keeps s v (fun y => max first d.lower ≤ y ∧ y ≤ min last d.upper)
          (both (setLower v (max first d.lower)) (setUpper v (min last d.upper))) :=
        keeps_both (keeps_setLower hs) (fun t h _ _ => keeps_setUpper (h.valid hs))
          ⟨b, (here b).trans mem, hfb, hbl⟩ (by simp [hd])
      exact both.mono (fun _ _ h => h.congr same) fun _ _ h => h.congr same
    · rename_i hbl
      refine .empty (lt_numVars_of hd) fun y hy hk => ?_
      have kept := (same y hy).mpr hk
      have := least y ((here y).symm.trans hy) kept.1
      omega

/-! ## Stores with more values -/

/-- All values of the variables in one store are values in the other. -/
structure Encloses (s F : Store) : Prop where
  numVars_eq : s.numVars = F.numVars
  contains : ∀ v x, F.contains v x = true → s.contains v x = true

namespace Encloses
variable {s t F : Store} {v : Var} {x : Int}

theorem refl (s : Store) : s.Encloses s := ⟨rfl, fun _ _ => id⟩

theorem trans (h : s.Encloses t) (h' : t.Encloses F) : s.Encloses F :=
  ⟨h.numVars_eq.trans h'.numVars_eq, fun v x hx => h.contains v x (h'.contains v x hx)⟩

theorem congr (h : s.Encloses F) (domains : t.domains = s.domains) : t.Encloses F := by
  have domain (v : Var) : t.domain v = s.domain v := by
    unfold domain domain?
    rw [domains]
  refine ⟨(congrArg Arena.size domains).trans h.numVars_eq, fun v x hx => ?_⟩
  rw [Store.contains, domain]
  exact h.contains v x hx

theorem of_narrows (h : s.Narrows t) (hs : s.Valid) : s.Encloses t :=
  ⟨h.numVars_eq.symm, fun _ _ hx => h.contains hs hx⟩

theorem contains_eq_false (h : s.Encloses F) (gone : s.contains v x = false) : F.contains v x = false := by
  refine Bool.eq_false_iff.mpr fun hx => ?_
  rw [h.contains v x hx] at gone
  cases gone

variable (h : s.Encloses F) (hF : F.Valid)
include h hF

theorem lower_le (v : Var) : s.lower v ≤ F.lower v := (bounds_of_contains (h.contains v _ (hF.contains_lower v))).1

theorem upper_le (v : Var) : F.upper v ≤ s.upper v := (bounds_of_contains (h.contains v _ (hF.contains_upper v))).2

/-- What is fixed in a store is fixed to the same value in every store that it encloses. -/
theorem fixed? (hx : s.fixed? v = some x) : F.fixed? v = some x := by
  obtain ⟨lower, upper⟩ := fixed?_eq_some_iff.mp hx
  have := h.lower_le hF v
  have := h.upper_le hF v
  have := hF.lower_le_upper v
  exact fixed?_eq_some_iff.mpr (by omega)

theorem isFixed (hx : s.isFixed v = true) : F.isFixed v = true := by
  have lower := isFixed_iff.mp hx
  have := h.lower_le hF v
  have := h.upper_le hF v
  have := hF.lower_le_upper v
  exact isFixed_iff.mpr (by omega)

/-- What is open in an enclosed store is open. -/
theorem fixed?_eq_none (hx : F.fixed? v = none) : s.fixed? v = none := by
  cases hs : s.fixed? v with
  | none => rfl
  | some x =>
    rw [h.fixed? hF hs] at hx
    cases hx

end Encloses
end Store
end BranchBound
