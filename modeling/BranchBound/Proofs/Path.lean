import Mathlib.Data.List.Nodup
import Mathlib.Data.List.Perm.Subperm

/-! # Paths and loops

A path leads from node to node along a relation, and a loop is a path that leads back from its last node
to its first.  If every node has at most one node before it, a loop contains every other loop that it
meets (`Loop.subset`); so a loop through all nodes leaves no room for a smaller one. -/
namespace BranchBound

/-- A path along a relation, with its first and its last node. -/
inductive Path (R : Nat → Nat → Prop) : Nat → List Nat → Nat → Prop
  | single (x : Nat) : Path R x [x] x
  | step {x y z : Nat} {l : List Nat} (h : R x y) (p : Path R y l z) : Path R x (x :: l) z

namespace Path
variable {R R' : Nat → Nat → Prop} {x y z u v : Nat} {l m : List Nat}

theorem first_mem (p : Path R x l y) : x ∈ l := by cases p <;> exact List.mem_cons_self

theorem last_mem (p : Path R x l y) : y ∈ l := by
  induction p with
  | single x => exact List.mem_cons_self
  | step _ _ ih => exact List.mem_cons_of_mem _ ih

theorem append (p : Path R x l y) (h : R y z) (q : Path R z m u) : Path R x (l ++ m) u := by
  induction p with
  | single x => exact .step h q
  | step h' _ ih => exact .step h' (ih h)

theorem mono (p : Path R x l y) (h : ∀ u v, v ∈ l → R u v → R' u v) : Path R' x l y := by
  induction p with
  | single x => exact .single x
  | step hxy p ih =>
    exact .step (h _ _ (List.mem_cons_of_mem _ p.first_mem) hxy)
      (ih fun u v hv => h u v (List.mem_cons_of_mem _ hv))

theorem pred_of_mem (p : Path R x l y) (hv : v ∈ l) : v = x ∨ ∃ u ∈ l, R u v := by
  induction p with
  | single x => exact .inl (List.mem_singleton.mp hv)
  | @step x y z l hxy p ih =>
    rcases List.mem_cons.mp hv with rfl | hv
    · exact .inl rfl
    · rcases ih hv with rfl | ⟨u, hu, h⟩
      · exact .inr ⟨x, List.mem_cons_self, hxy⟩
      · exact .inr ⟨u, List.mem_cons_of_mem _ hu, h⟩

theorem succ_of_mem (p : Path R x l y) (hu : u ∈ l) : u = y ∨ ∃ v ∈ l, R u v := by
  induction p with
  | single x => exact .inl (List.mem_singleton.mp hu)
  | @step x y z l hxy p ih =>
    rcases List.mem_cons.mp hu with rfl | hu
    · exact .inr ⟨y, List.mem_cons_of_mem _ p.first_mem, hxy⟩
    · rcases ih hu with rfl | ⟨v, hv, h⟩
      · exact .inl rfl
      · exact .inr ⟨v, List.mem_cons_of_mem _ hv, h⟩

/-- A path to every node of a path begins it. -/
theorem exists_prefix (p : Path R x l y) (hu : u ∈ l) : ∃ m, Path R x m u ∧ m <+: l := by
  induction p with
  | single x =>
    obtain rfl := List.mem_singleton.mp hu
    exact ⟨[u], .single u, List.prefix_refl _⟩
  | @step x z y l h p ih =>
    rcases List.mem_cons.mp hu with rfl | hu
    · exact ⟨[u], .single u, l, rfl⟩
    · obtain ⟨m, q, before⟩ := ih hu
      exact ⟨x :: m, .step h q, (List.prefix_cons_inj x).mpr before⟩

/-- A path from every node of a path ends it. -/
theorem exists_suffix (p : Path R x l y) (hu : u ∈ l) : ∃ m, Path R u m y ∧ m <:+ l := by
  induction p with
  | single x =>
    obtain rfl := List.mem_singleton.mp hu
    exact ⟨[u], .single u, List.suffix_refl _⟩
  | @step x z y l h p ih =>
    rcases List.mem_cons.mp hu with rfl | hu
    · exact ⟨u :: l, .step h p, List.suffix_refl _⟩
    · obtain ⟨m, q, after⟩ := ih hu
      exact ⟨m, q, after.trans (List.suffix_cons x l)⟩

/-- A list of nodes begins in the first node of the path and ends in the last. -/
theorem ends_eq (p : Path R x l y) (q : Path R' u l v) : x = u ∧ y = v := by
  induction p generalizing u with
  | single x =>
    cases q with
    | single _ => exact ⟨rfl, rfl⟩
    | step _ q => cases q
  | step _ p ih =>
    cases q with
    | single _ => cases p
    | step _ q => exact ⟨rfl, (ih q).2⟩

theorem of_cons (p : Path R x (u :: l) y) :
    x = u ∧ ((l = [] ∧ x = y) ∨ ∃ next, R x next ∧ Path R next l y) := by
  cases p with
  | single _ => exact ⟨rfl, .inl ⟨rfl, rfl⟩⟩
  | step h p => exact ⟨rfl, .inr ⟨_, h, p⟩⟩

/-- One node of a path and the next are related. -/
theorem of_mem_zip (p : Path R x l y) (h : (u, v) ∈ l.zip l.tail) : R u v := by
  induction p with
  | single x => cases h
  | @step x z y l hxz p ih =>
    obtain ⟨m, rfl⟩ : ∃ m, l = z :: m := by cases p <;> exact ⟨_, rfl⟩
    rw [List.tail_cons, List.zip_cons_cons] at h
    rcases List.mem_cons.mp h with heq | h
    · obtain ⟨rfl, rfl⟩ := Prod.mk.inj heq
      exact hxz
    · exact ih h

/-- A path through a node leads to it, and on from it. -/
theorem split (p : Path R x (l ++ z :: m) y) :
    Path R z (z :: m) y ∧ ((l = [] ∧ x = z) ∨ ∃ w, Path R x l w ∧ R w z) := by
  induction l generalizing x with
  | nil =>
    obtain ⟨rfl, -⟩ := p.of_cons
    exact ⟨p, .inl ⟨rfl, rfl⟩⟩
  | cons first l ih =>
    obtain ⟨rfl, ⟨hnil, -⟩ | ⟨next, h, p⟩⟩ := p.of_cons
    · exact absurd hnil (by simp)
    · obtain ⟨rest, head⟩ := ih p
      refine ⟨rest, .inr ?_⟩
      rcases head with ⟨rfl, rfl⟩ | ⟨w, p, hw⟩
      · exact ⟨x, .single x, h⟩
      · exact ⟨w, .step h p, hw⟩

/-- What is closed under going back holds at the start of a path, and on all of it if at its end. -/
theorem back {S : Nat → Prop} (p : Path R x l y) (closed : ∀ u v, R u v → S v → S u) :
    (∀ v ∈ l, S v → S x) ∧ (S y → ∀ v ∈ l, S v) := by
  induction p with
  | single x => exact ⟨by simp, by simp⟩
  | step h p ih =>
    refine ⟨fun v hv hS => ?_, fun hS v hv => ?_⟩
    · rcases List.mem_cons.mp hv with rfl | hv
      · exact hS
      · exact closed _ _ h (ih.1 v hv hS)
    · rcases List.mem_cons.mp hv with rfl | hv
      · exact closed _ _ h (ih.2 hS _ p.first_mem)
      · exact ih.2 hS v hv

/-- What is closed under going on holds on all of a path, if at its start. -/
theorem forth {S : Nat → Prop} (p : Path R x l y) (closed : ∀ u v, v ∈ l.tail → R u v → S u → S v)
    (hx : S x) : ∀ v ∈ l, S v := by
  induction p with
  | single x => exact fun v hv => List.mem_singleton.mp hv ▸ hx
  | @step x z y l h p ih =>
    have next : S z := closed x z p.first_mem h hx
    intro v hv
    rcases List.mem_cons.mp hv with rfl | hv
    · exact hx
    · exact ih (fun u v hv => closed u v (List.mem_of_mem_tail hv)) next v hv

end Path

/-- A path that leads back to its first node. -/
def Loop (R : Nat → Nat → Prop) (l : List Nat) : Prop :=
  ∃ first last, Path R first l last ∧ R last first

namespace Loop
variable {R R' : Nat → Nat → Prop} {u v z : Nat} {l m : List Nat}

theorem mono (h : Loop R l) (hR : ∀ u v, v ∈ l → R u v → R' u v) : Loop R' l := by
  obtain ⟨first, last, p, back⟩ := h
  exact ⟨first, last, p.mono hR, hR _ _ p.first_mem back⟩

theorem pred_of_mem (h : Loop R l) (hv : v ∈ l) : ∃ u ∈ l, R u v := by
  obtain ⟨first, last, p, back⟩ := h
  rcases p.pred_of_mem hv with rfl | found
  · exact ⟨last, p.last_mem, back⟩
  · exact found

theorem succ_of_mem (h : Loop R l) (hu : u ∈ l) : ∃ v ∈ l, R u v := by
  obtain ⟨first, last, p, back⟩ := h
  rcases p.succ_of_mem hu with rfl | found
  · exact ⟨first, p.first_mem, back⟩
  · exact found

/-- A loop can start at any of its nodes. -/
theorem rotate (h : Loop R (l ++ z :: m)) : ∃ last, Path R z (z :: m ++ l) last ∧ R last z := by
  obtain ⟨first, last, p, back⟩ := h
  obtain ⟨rest, ⟨rfl, rfl⟩ | ⟨w, p, hw⟩⟩ := p.split
  · rw [List.append_nil]
    exact ⟨last, rest, back⟩
  · exact ⟨w, rest.append back p, hw⟩

/-- **A loop contains every loop that it meets**, if every node has one node before it. -/
theorem subset (h : Loop R l) (h' : Loop R m) (unique : ∀ u u' v, R u v → R u' v → u = u')
    (hl : v ∈ l) (hm : v ∈ m) : l ⊆ m := by
  obtain ⟨first, last, p, back⟩ := h
  have closed (u v : Nat) (huv : R u v) (hv : v ∈ m) : u ∈ m := by
    obtain ⟨u', hu', h⟩ := h'.pred_of_mem hv
    exact unique u u' v huv h ▸ hu'
  exact (p.back closed).2 (closed _ _ back ((p.back closed).1 v hl hm))

end Loop
end BranchBound
