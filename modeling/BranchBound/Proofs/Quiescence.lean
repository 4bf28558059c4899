import BranchBound.Proofs.Backtracking
import BranchBound.Proofs.Circuit.Tight

/-! # Quiescence is a common fixpoint

A propagator is not called again because of its own changes, and it watches less than it reads.  Still, when
an engine has become quiet, every propagator could be called once more and would change neither a domain nor
a trailed integer (`Engine.Assembled.common_fixpoint`).

Every constraint that is tidy (`Constraint.Tidy`) keeps a contract by which it has nothing to do as long as
it has settled: the rules are idempotent (`Rule.Idempotent.contract`), and a circuit rests
(`Circuit.restContract`).  An engine that is assembled from such constraints meets all of their contracts
(`Engine.Assembled.exists_resting`), so when it is quiet all of them have settled.

In a run, levels are opened only while the engine is quiet, and it still is afterwards
(`Engine.Run.quiet_of_checkpoint`). -/
namespace BranchBound

/-- Whether somebody is ready depends on the variables that were there and on its own trailed integers. -/
def Contract.Stable {π : Type} [Propagator π] (k : Contract π) : Prop :=
  ∀ p s t due, k.Ready p s due → s.store.Grows t.store → s.cells.values.size ≤ t.cells.values.size →
    (∀ i, k.own i → t.cells.value i = s.cells.value i) → k.Ready p t due

theorem Contract.Stable.keptPrivate {π : Type} [Propagator π] {k : Contract π} (h : k.Stable) : k.Private :=
  fun p s t due ready store size cells =>
    h p s t due ready (Store.grows_of_domains (congrArg Store.domains store)) size cells

/-- Who has settled would change nothing. -/
def Contract.Rests {π : Type} [Propagator π] (k : Contract π) : Prop :=
  ∀ p s, k.Ready p s [] → s.Valid → k.Settled s → ∃ q, Propagator.propagate p s = .ok () (q, s)

namespace Rule.Idempotent
variable {π : Type} [Propagator π] {p : π} {r : Rule} {Fit : Store → Prop} (i : r.Idempotent Fit)
  (h : Follows p r)

theorem stable_contract : (i.contract h).Stable :=
  fun _ _ _ _ ready grown _ _ => ⟨ready.1, i.grows ready.2 grown⟩

theorem rests_contract : (i.contract h).Rests := by
  intro q s ready hs settled
  obtain ⟨rfl, -⟩ := ready
  exact ⟨q, settled.propagate_eq h hs⟩

end Rule.Idempotent

/-! ## Circuits -/

namespace Circuit
variable {c : Circuit} {s t : Space} {pending : List Nat} {due : List (Nat × Event)}

/-- What is relied on of a circuit that has nothing to do as long as it has settled.  The list of the nodes
that were told to it is forgotten when it is called or the space returns to an earlier level. -/
def restContract (c : Circuit) : Contract Constraint where
  watches := c.watches
  own := c.own
  Is p := ∃ pending, p = .circuit { c with pending }
  Ready p s due := ∃ pending, p = .circuit { c with pending } ∧ c.Prepared pending s due ∧ c.Taut s
  Settled s := c.Resting s ∧ c.Taut s
  Holds _ := False
  Sure := False
  is_of_ready ready := ready.imp fun _ h => h.1
  ready_mono ready sub := ready.imp fun _ h => ⟨h.1, h.2.1.mono sub, h.2.2⟩
  ready_congr ready hb := ready.imp fun _ h => ⟨h.1, h.2.1.congr_bare hb, h.2.2.congr_bare hb⟩
  settled_congr settled hb := ⟨settled.1.congr_bare hb, settled.2.congr_bare hb⟩
  ready_narrows ready hs hn disjoint told sub due := ready.imp fun _ h =>
    ⟨h.1, h.2.1.narrows hs hn disjoint told sub due, h.2.2.narrows hs hn disjoint⟩
  settled_narrows settled hs hn disjoint told away :=
    ⟨settled.1.narrows hs hn disjoint told away, settled.2.narrows hs hn disjoint⟩
  notified {p s i v event due} hw ready := by
    obtain ⟨pending, rfl, ready, taut⟩ := ready
    refine ⟨⟨if event = .assign then i :: pending else pending, ?_, ready.notify hw, taut⟩, rfl⟩
    exact congrArg Constraint.circuit (Circuit.notify_eq { c with pending } i event)
  synchronised is _ settled := by
    obtain ⟨pending, rfl⟩ := is
    exact ⟨[], rfl, settled.1.prepared, settled.2⟩
  propagated ready hs := by
    obtain ⟨pending, rfl, ready, taut⟩ := ready
    rw [ends_propagate]
    refine ((ready.ends_filter hs).and (taut.ends_filter hs ready.fit ready.pending_lt)).mono
      (fun _ r hr => ?_) fun halt r hr => ⟨hr.1, ⟨r.1, rfl⟩, fun h => h.elim⟩
    obtain ⟨⟨narrows, none, resting⟩, taut'⟩ := hr
    exact ⟨narrows, ⟨[], by rw [none], resting.prepared, taut'⟩, resting, taut'⟩
  spares _ _ _ holds := holds.elim

theorem stable_restContract (c : Circuit) : c.restContract.Stable :=
  fun _ _ _ _ ready grown size cells => ready.imp fun _ h =>
    ⟨h.1, h.2.1.grows grown size cells, h.2.2.grows grown size cells⟩

theorem rests_restContract (c : Circuit) : c.restContract.Rests := by
  intro p s ready hs settled
  obtain ⟨pending, rfl, prepared, -⟩ := ready
  have rest : Resting c s := settled.1
  have called : Ends (Propagator.propagate (Constraint.circuit { c with pending }) s)
      (fun _ r => r = (.circuit { c with pending := [] }, s)) fun _ _ => False := by
    rw [ends_propagate, rest.filter_eq hs prepared.pending_lt]
    rfl
  exact ⟨_, eq_ok_of_ends (called.mono_ok fun _ _ h => ⟨rfl, h⟩)⟩

/-- A circuit is prepared from the start. -/
theorem prepared_attach (fit : c.Fit s.store) :
    (c.attach s.cells.values.size s.store).Prepared (c.attach s.cells.values.size s.store).pending
      ⟨s.store, c.initialCells.foldl Cells.grow s.cells⟩ [] := by
  refine ⟨⟨fit.injective, fit.known, fit.sources, fit.width_le⟩, fun i hi => ?_,
    fun two => ready_attach two fit.injective fit.known fit.sources⟩
  exact mem_nodes.mp (List.mem_filter.mp (List.mem_reverse.mp hi)).1

/-- A circuit is taut from the start. -/
theorem taut_attach (fit : c.Fit s.store) : (c.attach s.cells.values.size s.store).Taut
    ⟨s.store, c.initialCells.foldl Cells.grow s.cells⟩ := by
  refine ⟨inOrder_of_initial ?_ fit.known fun _ _ h => Cells.value_foldl_grow h,
    tight_of_initial fun _ _ h => Cells.value_foldl_grow h⟩
  rw [Cells.size_foldl_grow, length_initialCells]
  exact Nat.le_refl _

theorem attaches_restContract (fit : c.Fit s.store) :
    (c.attach s.cells.values.size s.store).restContract.Attaches (.circuit c) s where
  watches := rfl
  own _ := own_attach
  ready := ⟨_, rfl, prepared_attach fit, taut_attach fit⟩
  keptPrivate := (stable_restContract _).keptPrivate

/-- A circuit whose domains are fit suits them if it has several nodes. -/
theorem Fit.suits {s : Store} (h : c.Fit s) (two_le : 2 ≤ c.numNodes) : c.Suits s :=
  ⟨two_le, h.injective, h.known, h.sources⟩

end Circuit

/-! ## Tidy constraints -/

namespace Constraint

/-- The variables that a constraint is about; the variable of a time counts once, even if several nodes
share it. -/
def arguments : Constraint → List Var
  | .circuit c => c.predecessors.toList
  | .timeWindow c => c.predecessors.toList ++ c.timeVars
  | .linearSum c => c.total :: c.terms
  | .productionLink c => c.plan :: c.indicators
  | .cumulativeProduction c => c.produced
  | .demandCapacity c => c.plan
  | .stockingCost c => c.cost :: c.produced.toList
  | .changeoverCost c => c.cost :: c.plan

/-- Those of which a value says whether something is produced. -/
def indicators : Constraint → List Var
  | .productionLink c => c.indicators
  | .cumulativeProduction c => c.produced
  | .stockingCost c => c.produced.toList
  | _ => []

/-- Those whose values are nodes or items: predecessors and plans. -/
def choices : Constraint → List Var
  | .circuit c => c.predecessors.toList
  | .timeWindow c => c.predecessors.toList
  | .productionLink c => [c.plan]
  | .demandCapacity c => c.plan
  | .changeoverCost c => c.plan
  | _ => []

/-- Whether a value of these is a node, or else an item or idle. -/
def InRange : Constraint → Int → Prop
  | .circuit c, x => 0 ≤ x ∧ x < c.numNodes
  | .timeWindow c, x => 0 ≤ x ∧ x < c.numNodes
  | .productionLink c, x => idle ≤ x ∧ x < c.indicators.length
  | .demandCapacity c, x => idle ≤ x ∧ x < c.required.numRows
  | .changeoverCost c, x => idle ≤ x ∧ x < c.costs.numRows
  | _, _ => True

/-- The arguments are known and distinct, indicators are 0 or 1, and the values of predecessors and plans
are in range and few enough to be removed one by one. -/
structure Tidy (c : Constraint) (s : Store) : Prop where
  known : ∀ v ∈ c.arguments, v < s.numVars
  distinct : c.arguments.Nodup
  binary : ∀ v ∈ c.indicators, ∀ x, s.contains v x = true ↔ x = 0 ∨ x = 1
  inRange : ∀ v ∈ c.choices, ∀ x, s.contains v x = true → c.InRange x
  width_le : ∀ v ∈ c.choices, (s.domain v).width ≤ Domain.holeLimit

variable {c : Constraint} {s : Store}

theorem Tidy.fit_circuit {d : Circuit} (h : Tidy (.circuit d) s) : d.Fit s := by
  have mem {i : Nat} (hi : i < d.numNodes) : d.predecessor i ∈ d.predecessors.toList := by
    have lt : i < d.predecessors.size := hi
    simp [Circuit.predecessor, lt]
  refine ⟨fun i j hi hj heq => ?_, fun i hi => h.known _ (mem hi), fun i hi x hx => ?_,
    fun i hi => h.width_le _ (mem hi)⟩
  · have distinct : d.predecessors.toList.Nodup := h.distinct
    have lti : i < d.predecessors.size := hi
    have ltj : j < d.predecessors.size := hj
    unfold Circuit.predecessor at heq
    simp only [Array.getD_eq_getD_getElem?, Array.getElem?_eq_getElem lti, Array.getElem?_eq_getElem ltj,
      Option.getD_some] at heq
    rw [← Array.getElem_toList, ← Array.getElem_toList] at heq
    exact distinct.getElem_inj_iff.mp heq
  · obtain ⟨nonneg, lt⟩ : 0 ≤ x ∧ x < d.numNodes := h.inRange _ (mem hi) x hx
    exact ⟨x.toNat, by omega, by omega⟩

/-- **A circuit is tidy if its variables are distinct and were declared within the nodes**, and these are few
enough for values to be removed. -/
theorem tidy_circuit {vars : Array Var} (lower upper : Int) (nonneg : 0 ≤ lower) (lt : upper < vars.size)
    (few : vars.size ≤ Domain.holeLimit) (distinct : vars.toList.Nodup)
    (known : ∀ v ∈ vars.toList, v < s.numVars)
    (declared : ∀ v ∈ vars.toList, s.domain v = .ofRange lower upper) :
    Tidy (.circuit { predecessors := vars }) s := by
  refine ⟨known, distinct, fun v hv => (by cases hv), fun v hv x hx => ?_, fun v hv => ?_⟩
  · rw [Store.contains, declared v hv] at hx
    have range := Domain.contains_ofRange.mp hx
    exact ⟨Int.le_trans nonneg range.1, Int.lt_of_le_of_lt range.2 lt⟩
  · rw [declared v hv]
    change (upper - lower + 1).toNat ≤ _
    omega

/-- What the domains are like for which a constraint is idempotent. -/
def Fit : Constraint → Store → Prop
  | .circuit d => d.Fit
  | .productionLink d => d.Fit
  | .demandCapacity d => d.Fit
  | .stockingCost d => d.Fit
  | .changeoverCost d => d.Fit
  | .timeWindow _ | .linearSum _ | .cumulativeProduction _ => fun _ => True

/-- **The rule of a constraint is idempotent** for domains that are fit for it. -/
theorem idempotent {r : Rule} (hr : c.rule? = some r) : r.Idempotent c.Fit := by
  cases c <;> cases hr
  case timeWindow d => exact d.idempotent
  case linearSum d => exact d.idempotent
  case productionLink d => exact d.idempotent
  case cumulativeProduction d => exact d.idempotent
  case demandCapacity d => exact d.idempotent
  case stockingCost d => exact d.idempotent
  case changeoverCost d => exact d.idempotent

/-- The domains are fit for a tidy constraint. -/
theorem Tidy.fit (h : c.Tidy s) (hs : s.Valid) : c.Fit s := by
  cases c with
  | circuit d => exact h.fit_circuit
  | productionLink d =>
    refine ⟨h.known _ List.mem_cons_self, fun v hv => h.known v (List.mem_cons_of_mem _ hv), h.distinct,
      fun v hv => ?_, h.width_le _ (List.mem_singleton_self _)⟩
    have lower := (h.binary v hv _).mp (hs.contains_lower v)
    have upper := (h.binary v hv _).mp (hs.contains_upper v)
    omega
  | demandCapacity d => exact fun v hv => ⟨h.known v hv, h.width_le v hv⟩
  | stockingCost d =>
    exact ⟨h.known _ List.mem_cons_self, fun v hv => h.known v (List.mem_cons_of_mem _ hv),
      fun v hv x hx => (h.binary v hv x).mp hx, (List.nodup_cons.mp h.distinct).1⟩
  | changeoverCost d =>
    exact ⟨h.known _ List.mem_cons_self, fun v hv => h.known v (List.mem_cons_of_mem _ hv),
      (List.nodup_cons.mp h.distinct).1⟩
  | timeWindow _ | linearSum _ | cumulativeProduction _ => exact trivial

/-- What a constraint has come to that has nothing more to do, wherever its trailed integers are. -/
structure Rested (c : Constraint) (s : Space) : Prop where
  circuit : ∀ d : Circuit, c = .circuit d →
    ∃ d' : Circuit, d'.predecessors = d.predecessors ∧ d'.Resting s ∧ d'.Taut s
  rule : ∀ r, c.rule? = some r → r.Quiescent c.Fit s

/-- **Domains that are fit for a constraint let it keep a contract by which it rests.** -/
theorem exists_restContract {s : Space} (h : c.Fit s.store) :
    ∃ k : Contract Constraint, k.Attaches c s ∧ k.Stable ∧ k.Rests ∧ ∀ t, k.Settled t → c.Rested t := by
  cases hr : c.rule? with
  | some r =>
    refine ⟨_, (idempotent hr).attaches_contract (follows hr) h, (idempotent hr).stable_contract _,
      (idempotent hr).rests_contract _, fun t settled => ⟨fun d hd => ?_, fun r' hr' => ?_⟩⟩
    · subst hd
      cases hr
    · cases hr.symm.trans hr'
      exact settled
  | none =>
    obtain ⟨d, rfl⟩ := exists_circuit hr
    refine ⟨_, Circuit.attaches_restContract h, Circuit.stable_restContract _,
      Circuit.rests_restContract _, fun t settled => ⟨fun d' hd => ?_, fun r' hr' => (by cases hr')⟩⟩
    cases hd
    exact ⟨d.attach s.cells.values.size s.store, rfl, settled⟩

end Constraint

/-! ## Engines that are assembled -/

namespace Engine

/-- The engines that are made by declaring variables and posting tidy constraints. -/
inductive Assembled : Engine Constraint → Prop
  | empty : Assembled {}
  | declare {e e' : Engine Constraint} {lower upper : Int} (h : Assembled e)
    (hd : e.declare lower upper = .ok e') : Assembled e'
  | post {e e' : Engine Constraint} {c : Constraint} (h : Assembled e) (tidy : c.Tidy e.store)
    (hp : e.post c = .ok e') : Assembled e'

variable {e e' e₀ : Engine Constraint} {m : Mode} {k : Nat}

/-- An engine in which constraints were posted that rest when they have settled. -/
structure Resting (e : Engine Constraint) (ks : List (Contract Constraint)) : Prop where
  posting : Posting ks e
  stable : ∀ k ∈ ks, k.Stable
  rests : ∀ k ∈ ks, k.Rests

theorem resting_empty : Resting {} [] where
  posting := {
    valid := valid_empty
    served := {
      length_eq := rfl
      mem_affected := fun id i event v => by
        refine ⟨fun h => (by cases h), fun h => ?_⟩
        obtain ⟨_, hc, -⟩ := h
        cases hc
      disjoint := fun _ _ _ _ _ h => by cases h }
    own_lt := fun _ hc => by cases hc
    ready := fun _ _ _ hc => by cases hc
    waits := fun _ hid => absurd hid (Nat.not_lt_zero _) }
  stable _ hk := by cases hk
  rests _ hk := by cases hk

theorem Resting.declare {ks : List (Contract Constraint)} {lower upper : Int} (h : e.Resting ks)
    (hd : e.declare lower upper = .ok e') : e'.Resting ks := by
  have grown := grows_declare hd
  refine ⟨h.posting.declare hd fun k hk q due ready => ?_, h.stable, h.rests⟩
  obtain ⟨-, rfl⟩ := declare_eq_ok hd
  exact h.stable k hk q _ _ due ready grown (Nat.le_refl _) fun _ _ => rfl

theorem Resting.post {ks : List (Contract Constraint)} {c : Constraint} (h : e.Resting ks)
    (tidy : c.Tidy e.store) (hp : e.post c = .ok e') : ∃ k, e'.Resting (ks ++ [k]) := by
  obtain ⟨k, attaches, stable, rests, -⟩ :=
    Constraint.exists_restContract (s := e.space) (tidy.fit h.posting.valid.space.store)
  have both {P : Contract Constraint → Prop} (hks : ∀ k' ∈ ks, P k') (hk : P k) :
      ∀ k' ∈ ks ++ [k], P k' := fun k' hk' => by
    rcases List.mem_append.mp hk' with hk' | hk'
    · exact hks k' hk'
    · exact List.mem_singleton.mp hk' ▸ hk
  exact ⟨k, h.posting.attach hp attaches fun k' hk' => (h.stable k' hk').keptPrivate,
    both h.stable stable, both h.rests rests⟩

/-- **An engine that is assembled meets contracts by which its constraints rest.** -/
theorem Assembled.exists_resting (h : e.Assembled) : ∃ ks, e.Resting ks := by
  induction h with
  | empty => exact ⟨[], resting_empty⟩
  | declare _ hd ih =>
    obtain ⟨ks, resting⟩ := ih
    exact ⟨ks, resting.declare hd⟩
  | post _ tidy hp ih =>
    obtain ⟨ks, resting⟩ := ih
    obtain ⟨k, resting'⟩ := resting.post tidy hp
    exact ⟨_, resting'⟩

/-- **Quiescence is a common fixpoint.**  When an engine has become quiet in a run, every propagator could be
called once more, and nothing in the space would change. -/
theorem Assembled.common_fixpoint (h₀ : e₀.Assembled) (run : e₀.Run m e) (idle : m.Idle)
    (quiet : e.propagate = .ok () e') {id : Nat} {p : Constraint} (posted : e'.propagator? id = some p) :
    ∃ q, Propagator.propagate p e'.space = .ok () (q, e'.space) := by
  obtain ⟨ks, resting⟩ := h₀.exists_resting
  have meets := resting.posting.meets
  have run' := run.quiet_of_propagate resting.posting.valid idle quiet
  have inside := run'.inside resting.posting.valid
  obtain ⟨served, kept⟩ := run'.kept meets
  obtain ⟨q, hq, rfl⟩ := Option.map_eq_some_iff.mp posted
  obtain ⟨k, hk⟩ : ∃ k, ks[id]? = some k :=
    ⟨_, List.getElem?_eq_getElem (served.length_eq ▸ lt_numPropagators_of hq)⟩
  have mem := List.mem_of_getElem? hk
  have ready := kept.ready (by simp) id k q hk hq
  rw [deliveries_of_silent (inside.silent (.inr rfl))] at ready
  exact resting.rests k mem _ _ ready inside.valid.space (run'.settled meets k mem)

/-! ## A sample -/

/-- Three nodes, each of which can come before any. -/
def threeNodes : Engine Constraint :=
  (do
    let e ← ({} : Engine Constraint).declare 0 2
    let e ← e.declare 0 2
    e.declare 0 2 : Except Fault (Engine Constraint)).toOption.getD {}

/-- A cycle through three nodes. -/
def triangle : Engine Constraint :=
  (do
    let e ← ({} : Engine Constraint).declare 0 2
    let e ← e.declare 0 2
    let e ← e.declare 0 2
    e.post (.circuit { predecessors := #[0, 1, 2] }) : Except Fault (Engine Constraint)).toOption.getD {}

/-- After a first propagation a level is opened, and a node is put before another. -/
def turned : Engine Constraint := triangle.propagated.checkpoint.narrowed (Store.assign 1 2)

theorem tidy_threeNodes : Constraint.Tidy (.circuit { predecessors := #[0, 1, 2] }) threeNodes.store :=
  Constraint.tidy_circuit 0 2 (by decide) (by decide) (by decide) (by decide) (by decide) (by decide)

theorem made_threeNodes : threeNodes.Made :=
  @Made.declare _ _ _ _ 0 2 (@Made.declare _ _ _ _ 0 2 (@Made.declare _ _ _ _ 0 2 .empty rfl) rfl) rfl

theorem post_threeNodes : threeNodes.post (.circuit { predecessors := #[0, 1, 2] }) = .ok triangle := rfl

theorem assembled_triangle : triangle.Assembled :=
  have declared : threeNodes.Assembled :=
    @Assembled.declare _ _ 0 2 (@Assembled.declare _ _ 0 2 (@Assembled.declare _ _ 0 2 .empty rfl) rfl) rfl
  declared.post tidy_threeNodes post_threeNodes

theorem propagate_triangle : triangle.propagate = .ok () triangle.propagated :=
  propagate_eq_of_isSome (by decide +kernel)

theorem run_turned : triangle.Run .free turned := by
  obtain ⟨ks, resting⟩ := assembled_triangle.exists_resting
  have valid := resting.posting.valid
  have quiet := Run.quiet_of_propagate valid .start (.inl rfl) propagate_triangle
  exact Run.narrowed valid quiet.checkpoint (.inl rfl) (.of_keeps fun _ hs => Store.keeps_assign hs)

theorem propagate_turned : turned.propagate = .ok () turned.propagated :=
  propagate_eq_of_isSome (by decide +kernel)

theorem common_fixpoint_triangle : ∃ e p q, triangle.Assembled ∧ triangle.Run .free turned ∧
    turned.propagate = .ok () e ∧ e.propagator? 0 = some p ∧
    Propagator.propagate p e.space = .ok () (q, e.space) := by
  obtain ⟨ks, resting⟩ := assembled_triangle.exists_resting
  have valid := resting.posting.valid
  obtain ⟨_, e, he⟩ := exists_ok_of_run' (s := turned)
    (m := (Engine.propagate : EStateM Failure (Engine Constraint) Unit)) (by decide +kernel)
  have inside := (Run.quiet_of_propagate valid run_turned (.inl rfl) he).inside valid
  have one : 0 < e.numPropagators := inside.numPropagators_eq ▸ (by decide)
  obtain ⟨p, hp⟩ := posted_eq_some one
  have found : e.propagator? 0 = some p.propagator := congrArg (Option.map Posted.propagator) hp
  obtain ⟨q, hq⟩ := assembled_triangle.common_fixpoint run_turned (.inl rfl) he found
  exact ⟨e, p.propagator, q, assembled_triangle, run_turned, he, found, hq⟩

end Engine
end BranchBound
