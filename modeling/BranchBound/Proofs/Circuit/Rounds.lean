import BranchBound.Proofs.Circuit.Filter

/-! # Rounds of any circuit

Whatever the variables of a circuit are, and whatever its trailed integers hold, its rounds come to an end: a node
is put down as pending only if a domain loses a value with it (`Circuit.falls_removePredecessor`), which weighs
more.  So **every round that asks for another one lowers the potential** (`Circuit.lowers_rounds`). -/
namespace BranchBound
namespace Circuit
variable {c : Circuit} {α β : Type} {i : Nat} {x : Int}

/-- A computation that never raises the potential, whatever it is. -/
def Falls (m : Step α) : Prop :=
  ∀ r : List Nat × Space, r.2.Valid →
    Ends (m r) (fun _ r' => r'.2.Valid ∧ potential r' ≤ potential r) (fun _ _ => True)

theorem falls_pure {a : α} : Falls (pure a) := fun _ hr => ⟨hr, Nat.le_refl _⟩

theorem falls_bind {m : Step α} {f : α → Step β} (hm : Falls m) (hf : ∀ a, Falls (f a)) : Falls (m >>= f) :=
  fun r hr => (hm r hr).bind fun a r' hr' =>
    (hf a r' hr'.1).mono_ok fun _ _ last => ⟨last.1, Nat.le_trans last.2 hr'.2⟩

theorem falls_refute {cause : Inconsistency} : Falls (refute cause : Step α) := fun _ _ => trivial

theorem falls_demand {o : Option α} : Falls (demand o : Step α) :=
  fun _ hr => ends_demand (fun _ _ => ⟨hr, Nat.le_refl _⟩) fun _ => trivial

theorem falls_cell : Falls (cell i) := fun _ hr => ⟨hr, Nat.le_refl _⟩

theorem falls_read {f : Store → α} : Falls (Filter.read f).beside := fun _ hr => ⟨hr, Nat.le_refl _⟩

theorem falls_assignCell : Falls (Filter.assignCell i x).beside := fun _ hr =>
  have assigned : Space.Narrows (fun _ => True) _ _ := .assign .refl trivial
  ⟨assigned.valid hr, Nat.le_refl _⟩

theorem falls_ite {p : Prop} [Decidable p] {m m' : Step α} (h : Falls m) (h' : Falls m') :
    Falls (if p then m else m') := by
  split
  · exact h
  · exact h'

theorem falls_forM {l : List β} {f : β → Step PUnit} (h : ∀ b, Falls (f b)) : Falls (l.forM f) :=
  fun r hr => ends_forM (I := fun _ r' => r'.2.Valid ∧ potential r' ≤ potential r)
    (fun _ b _ _ r' hr' => (h b r' hr'.1).mono_ok fun _ _ next => ⟨next.1, Nat.le_trans next.2 hr'.2⟩)
    ⟨hr, Nat.le_refl _⟩

/-- A node that has to be joined has lost a value. -/
theorem falls_removePredecessor : Falls (c.removePredecessor i x) := by
  rintro ⟨pending, t⟩ ht
  refine ends_removePredecessor_of ?_
  rw [Filter.remove, Filter.ends_onStore]
  refine (Store.keeps_remove ht.store).mono (fun changed store hn => ?_) fun _ _ _ => trivial
  have narrows : t.Narrows Filter.noCells ⟨store, t.cells⟩ := .of_store hn.narrows
  exact ⟨narrows.valid ht, potential_le_of_grown hn waiting_cases⟩

theorem falls_join {source node : Nat} : Falls (c.join source node) :=
  falls_bind falls_cell fun _ => falls_bind falls_cell fun _ => falls_bind falls_cell fun _ => falls_ite
    (falls_ite falls_refute falls_pure)
    (falls_bind falls_cell fun _ => falls_bind falls_assignCell fun _ => falls_bind falls_assignCell fun _ =>
      falls_bind falls_assignCell fun _ => falls_ite falls_removePredecessor falls_pure)

theorem falls_merge {node : Nat} : Falls (c.merge node) := by
  refine falls_bind falls_cell fun _ => falls_bind falls_read fun _ => ?_
  split
  · exact falls_bind falls_assignCell fun _ =>
      falls_bind (falls_forM fun _ => falls_removePredecessor) fun _ => falls_bind falls_demand fun _ => falls_join
  · exact falls_pure

/-- What has come from a pair by changes is valid, and has less potential if there were any. -/
def Sunk (r : List Nat × Space) (changed : Bool) (r' : List Nat × Space) : Prop :=
  r'.2.Valid ∧ if changed then potential r' < potential r else potential r' ≤ potential r

theorem Sunk.trans {r r' r'' : List Nat × Space} {a b : Bool} (h : Sunk r a r') (h' : Sunk r' b r'') :
    Sunk r (b || a) r'' := by
  obtain ⟨-, less⟩ := h
  obtain ⟨valid, less'⟩ := h'
  refine ⟨valid, ?_⟩
  cases a <;> cases b <;> simp only [Bool.or_false, Bool.or_true, Bool.false_eq_true, if_false, if_true] at * <;>
    omega

theorem sinks_assignOnly {r : List Nat × Space} {value count : Nat} (hr : r.2.Valid) :
    Ends (c.assignOnly value count r) (Sunk r) (fun _ _ => True) := by
  obtain ⟨pending, t⟩ := r
  have stay : Sunk (pending, t) false (pending, t) := ⟨hr, Nat.le_refl _⟩
  refine ends_assignOnly_of (fun _ => trivial) (fun _ node _ _ => ?_) fun _ _ => stay
  rw [Filter.assign, Filter.ends_onStore]
  refine (Store.keeps_assign hr.store).mono (fun changed store hn => ?_) fun _ _ _ => trivial
  cases changed with
  | true =>
    have narrows : t.Narrows Filter.noCells ⟨store, t.cells⟩ := .of_store hn.narrows
    exact ⟨narrows.valid hr, potential_lt_of_grown hn rfl (.inr rfl)⟩
  | false =>
    obtain rfl := hn.unchanged rfl
    exact stay

theorem sinks_supports {r : List Nat × Space} (hr : r.2.Valid) :
    Ends (c.supports r) (Sunk r) (fun _ _ => True) := by
  obtain ⟨pending, t⟩ := r
  exact ends_supports_of (I := Sunk (pending, t)) ⟨hr, Nat.le_refl _⟩ fun _ _ _ _ hr' =>
    (sinks_assignOnly hr'.1).mono_ok fun _ _ next => hr'.trans next

/-- **Every round that asks for another one lowers the potential**, whatever the circuit. -/
theorem lowers_rounds : Lowers potential c.round fun r => r.2.Valid := by
  intro r r' hr hround
  suffices Ends (c.round r) (fun more r' => more = true → r'.2.Valid ∧ potential r' < potential r)
      (fun _ _ => True) from this.of_ok hround rfl
  obtain ⟨pending, t⟩ := r
  cases pending with
  | nil =>
    refine ends_round_nil.mpr ((sinks_supports hr).mono_ok fun more r' sunk asked => ?_)
    subst asked
    exact sunk
  | cons node rest =>
    exact ends_round_cons.mpr ((falls_merge (rest, t) hr).mono_ok fun _ r' fallen _ =>
      ⟨fallen.1, Nat.lt_of_le_of_lt fallen.2 potential_lt_cons⟩)

end Circuit
end BranchBound
