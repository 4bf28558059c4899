import BranchBound.Proofs.Constraint
import BranchBound.Proofs.Search

/-! # Models that are loaded

A model is set up in an empty engine by declaring its variables (`exists_declareAll`) and posting its
constraints (`exists_posted`).  **If the constraints suit the ranges of the variables, this succeeds, and
the engine is faithful to the model** (`Model.exists_load`): it spares the assignments for which all
constraints hold, it does not break down, and whenever it is quiet every constraint has had its say.

If the decisions of the model decide everything (`Engine.Decisive`), nothing excuses a breakdown of a search
(`Faithful.flawless`). -/
namespace BranchBound

namespace WatchList
variable {w : WatchList} {watches : List (Var × List Event)}

theorem exists_watch (id n : Nat) (h : ∀ v events, (v, events) ∈ watches → v < w.registrations.size) :
    ∃ w', (watches.zipIdx n).foldlM
        (fun w ((v, events), position) => w.watch ⟨id, position⟩ v events) w = Except.ok w' ∧
      w'.registrations.size = w.registrations.size := by
  induction watches generalizing w n with
  | nil => exact ⟨w, rfl, rfl⟩
  | cons first watches ih =>
    obtain ⟨v, events⟩ := first
    have known := h v events List.mem_cons_self
    have size : (w.registrations.modify v (· ++ [⟨⟨id, n⟩, events⟩])).size = w.registrations.size :=
      Arena.size_modify _ _ _
    obtain ⟨w', hw', same⟩ := ih (w := ⟨w.registrations.modify v (· ++ [⟨⟨id, n⟩, events⟩])⟩)
      (n := n + 1) fun u events' hu => size.symm ▸ h u events' (List.mem_cons_of_mem _ hu)
    refine ⟨w', ?_, same.trans size⟩
    rw [List.zipIdx_cons, List.foldlM_cons]
    dsimp only
    unfold watch
    rw [if_pos known]
    exact hw'

end WatchList

namespace Store

/-- The variables have just the given ranges. -/
structure Spans (s : Store) (ranges : List (Int × Int)) : Prop where
  numVars_eq : s.numVars = ranges.length
  contains_iff : ∀ v lower upper, ranges[v]? = some (lower, upper) →
    ∀ x, s.contains v x = true ↔ lower ≤ x ∧ x ≤ upper
  width_eq : ∀ v lower upper, ranges[v]? = some (lower, upper) →
    (s.domain v).width = (upper - lower + 1).toNat

variable {s : Store} {ranges : List (Int × Int)} {a : Assignment}

/-- An assignment is within the domains if it is within the ranges. -/
theorem Spans.admits_iff (h : s.Spans ranges) : s.Admits a ↔
    ∀ v lower upper, ranges[v]? = some (lower, upper) → lower ≤ a v ∧ a v ≤ upper := by
  constructor
  · intro ha v lower upper hv
    refine (h.contains_iff v lower upper hv _).mp (ha v ?_)
    rw [h.numVars_eq]
    exact (List.getElem?_eq_some_iff.mp hv).1
  · intro ha v hv
    rw [h.numVars_eq] at hv
    have here := List.getElem?_eq_getElem hv
    exact (h.contains_iff v _ _ here _).mpr (ha v _ _ here)

end Store

/-- What a search for the best solution of a model starts from. -/
def Model.root {π : Type} (m : Model π) (e : Engine π) : Search.Root π :=
  ⟨e, m.objective, m.decisions⟩

/-! ## What is loaded -/

namespace Engine
variable {π : Type} [Propagator π] [LawfulPropagator π] {e e' : Engine π} {ranges : List (Int × Int)}

/-- An engine that was made, with its variables within some ranges. -/
structure Loaded (e : Engine π) (ranges : List (Int × Int)) : Prop where
  made : e.Made
  within : ∀ v x, v < e.store.numVars → e.store.contains v x = true →
    ∃ r ∈ ranges, r.1 ≤ x ∧ x ≤ r.2

omit [LawfulPropagator π] in
theorem Loaded.declare {lower upper : Int} (h : e.Loaded ranges) (hr : (lower, upper) ∈ ranges)
    (hd : e.declare lower upper = .ok e') : e'.Loaded ranges := by
  refine ⟨h.made.declare hd, fun v x hv hx => ?_⟩
  obtain ⟨-, rfl⟩ := declare_eq_ok hd
  change v < (e.store.domains.push (.ofRange lower upper)).size at hv
  change (((e.store.domains.push (.ofRange lower upper)).get? v).getD default).contains x = true at hx
  rw [Arena.size_push] at hv
  rw [Arena.get?_push] at hx
  split at hx
  · exact ⟨_, hr, Domain.contains_ofRange.mp hx⟩
  · rename_i other
    exact h.within v x (Nat.lt_of_le_of_ne (Nat.le_of_lt_succ hv) other) hx

theorem Loaded.punch {hole : Var × Int} (h : e.Loaded ranges) (hp : Model.punch e hole = .ok e') :
    e'.Loaded ranges := by
  have valid := h.made.valid.space.store
  have kept {store : Store} (hn : e.store.Narrows store) : (e.withStore store).Loaded ranges :=
    ⟨h.made.narrow hn, fun v x hv hx => h.within v x
      ((keeps_withStore h.made.valid hn).below.numVars_eq ▸ hv) (hn.contains valid hx)⟩
  have removed := Store.keeps_remove (v := hole.1) (x := hole.2) valid
  unfold Model.punch at hp
  split at hp
  · rename_i hr
    cases hp
    exact kept (removed.of_ok hr).narrows
  · rename_i hr
    cases hp
    exact (removed.of_error hr).eq ▸ kept .refl
  · cases hp

omit [LawfulPropagator π] in
theorem Loaded.post {p : π} (h : e.Loaded ranges) (hp : e.post p = .ok e') : e'.Loaded ranges := by
  refine ⟨h.made.post hp, ?_⟩
  obtain ⟨-, watchList, -, rfl⟩ := post_eq_ok hp
  exact h.within

omit [LawfulPropagator π] in
/-- A model is loaded in three parts. -/
theorem load_eq_ok {m : Model π} (h : m.load = .ok e) : ∃ declared punched,
    m.declareAll {} = .ok declared ∧ m.holes.foldlM Model.punch declared = .ok punched ∧
      m.constraints.foldlM (fun (e : Engine π) c => e.post c) punched = .ok e := by
  unfold Model.load at h
  cases hd : m.declareAll {} with
  | error cause => rw [hd] at h; cases h
  | ok declared =>
    rw [hd] at h
    change (m.holes.foldlM Model.punch declared).bind _ = _ at h
    cases hp : m.holes.foldlM Model.punch declared with
    | error cause => rw [hp] at h; cases h
    | ok punched =>
      rw [hp] at h
      exact ⟨declared, punched, rfl, hp, h⟩

/-- **Whatever model is loaded, the engine was made**, and its variables are within their ranges. -/
theorem loaded_of_load {m : Model π} (h : m.load = .ok e) : e.Loaded m.ranges := by
  have all {α : Type} {f : Engine π → α → Except Fault (Engine π)} {xs : List α} {a b : Engine π}
      (step : ∀ x ∈ xs, ∀ a b : Engine π, a.Loaded m.ranges → f a x = .ok b → b.Loaded m.ranges)
      (ha : a.Loaded m.ranges) (hb : xs.foldlM f a = .ok b) : b.Loaded m.ranges := by
    have kept := foldlM_except (I := fun _ e => Loaded e m.ranges) (E := fun _ => True) (f := f) (l := xs)
      (fun before x rest hxs a b => step x (by rw [hxs]; exact List.mem_append_right _ List.mem_cons_self) a b)
      (fun _ _ _ _ _ _ _ _ => trivial) ha
    exact kept.1 b hb
  obtain ⟨declared, punched, hd, hp, hc⟩ := load_eq_ok h
  have empty : ({} : Engine π).Loaded m.ranges := ⟨.empty, fun _ _ hv => absurd hv (Nat.not_lt_zero _)⟩
  have first := all (fun r hr a b ha => ha.declare hr) empty hd
  have second := all (fun hole _ a b ha => ha.punch) first hp
  exact all (fun c _ a b ha => ha.post) second hc

/-! ## Declaring -/

/-- An engine in which nothing was posted yet. -/
structure Fresh (e : Engine π) (ranges : List (Int × Int)) : Prop where
  made : e.Made
  spans : e.store.Spans ranges
  registrations : e.watchList.registrations.size = e.store.numVars
  posted : e.numPropagators = 0
  unwatched : ∀ event v, e.watchList.affected event v = []

omit [LawfulPropagator π] in
theorem Fresh.declare {lower upper : Int} (h : e.Fresh ranges) (hle : lower ≤ upper) :
    ∃ e', e.declare lower upper = .ok e' ∧ e'.Fresh (ranges ++ [(lower, upper)]) := by
  obtain ⟨e', he'⟩ : ∃ e', e.declare lower upper = .ok e' := by
    unfold Engine.declare Store.declare
    rw [if_pos hle]
    exact ⟨_, rfl⟩
  have made := h.made.declare he'
  obtain ⟨-, rfl⟩ := declare_eq_ok he'
  have size : (e.store.domains.push (.ofRange lower upper)).size = e.store.numVars + 1 :=
    Arena.size_push _ _
  have length := h.spans.numVars_eq
  change e.store.domains.size = _ at length
  -- either the range is an old one, of a variable that is as it was, or it is the last
  have ranged (v : Var) (l u : Int) (hv : (ranges ++ [(lower, upper)])[v]? = some (l, u)) :
      (ranges[v]? = some (l, u) ∧ v ≠ e.store.domains.size) ∨
        (v = e.store.domains.size ∧ l = lower ∧ u = upper) := by
    rw [List.getElem?_append] at hv
    split at hv
    · rename_i hlt
      exact .inl ⟨hv, Nat.ne_of_lt (length ▸ hlt)⟩
    · rename_i hge
      have hlt := (List.getElem?_eq_some_iff.mp hv).1
      rw [List.length_singleton] at hlt
      have last : v = ranges.length :=
        Nat.le_antisymm (Nat.le_of_sub_eq_zero (Nat.lt_one_iff.mp hlt)) (Nat.le_of_not_lt hge)
      rw [last, Nat.sub_self, List.getElem?_cons_zero] at hv
      cases hv
      exact .inr ⟨last.trans length.symm, rfl, rfl⟩
  refine ⟨_, he', made, ⟨?_, fun v l u hv x => ?_, fun v l u hv => ?_⟩, ?_, h.posted, fun event v => ?_⟩
  · change (e.store.domains.push (.ofRange lower upper)).size = _
    rw [size, h.spans.numVars_eq, List.length_append]
    rfl
  · change (((e.store.domains.push (.ofRange lower upper)).get? v).getD default).contains x = true ↔ _
    rw [Arena.get?_push]
    rcases ranged v l u hv with ⟨hv, old⟩ | ⟨new, rfl, rfl⟩
    · rw [if_neg old]
      exact h.spans.contains_iff v l u hv x
    · rw [if_pos new]
      exact Domain.contains_ofRange
  · change (((e.store.domains.push (.ofRange lower upper)).get? v).getD default).width = _
    rw [Arena.get?_push]
    rcases ranged v l u hv with ⟨hv, old⟩ | ⟨new, rfl, rfl⟩
    · rw [if_neg old]
      exact h.spans.width_eq v l u hv
    · rw [if_pos new]
      rfl
  · change (e.watchList.registrations.push []).size = (e.store.domains.push _).size
    rw [Arena.size_push, size, h.registrations]
  · exact WatchList.affected_grow.trans (h.unwatched event v)

omit [LawfulPropagator π] in
theorem fresh_empty : Fresh ({} : Engine π) [] where
  made := .empty
  spans := ⟨rfl, fun _ _ _ hv => (by cases hv), fun _ _ _ hv => by cases hv⟩
  registrations := rfl
  posted := rfl
  unwatched _ _ := rfl

omit [LawfulPropagator π] in
/-- **The variables of a model can be declared**, if their ranges are not empty. -/
theorem exists_declareAll (m : Model π) (h : ∀ r ∈ m.ranges, r.1 ≤ r.2) :
    ∃ e, m.declareAll {} = .ok e ∧ e.Fresh m.ranges := by
  have declared (ranges : List (Int × Int)) (hr : ∀ r ∈ ranges, r.1 ≤ r.2) (e : Engine π)
      (done : List (Int × Int)) (he : e.Fresh done) :
      ∃ e', ranges.foldlM (fun e (r : Int × Int) => e.declare r.1 r.2) e = .ok e' ∧
        e'.Fresh (done ++ ranges) := by
    induction ranges generalizing e done with
    | nil => exact ⟨e, rfl, by rwa [List.append_nil]⟩
    | cons r ranges ih =>
      obtain ⟨e', he', fresh⟩ := he.declare (hr r List.mem_cons_self)
      rw [List.foldlM_cons, he', show done ++ r :: ranges = done ++ [(r.1, r.2)] ++ ranges by simp]
      exact ih (fun r' hr' => hr r' (List.mem_cons_of_mem r hr')) e' _ fresh
  exact declared m.ranges h {} [] fresh_empty

/-! ## Posting -/

theorem Fresh.posting (h : e.Fresh ranges) : Posting [] e where
  valid := h.made.valid
  served := {
    length_eq := h.posted
    mem_affected := fun id i event v => by simp [h.unwatched]
    disjoint := fun _ _ _ _ _ h => by cases h }
  own_lt _ hc := by cases hc
  ready _ _ _ hc := by cases hc
  waits _ hid := absurd hid (Nat.not_lt_zero _)

omit [LawfulPropagator π] in
/-- A propagator can be posted if its arguments fit together and it watches variables that are there. -/
theorem exists_post {p : π} (made : e.Made)
    (registrations : e.watchList.registrations.size = e.store.numVars) (fits : Propagator.fits p = true)
    (watched : ∀ v events, (v, events) ∈ Propagator.watches p → v < e.store.numVars) :
    ∃ e', e.post p = .ok e' ∧ e'.Made ∧ e'.store = e.store ∧
      e'.watchList.registrations.size = e'.store.numVars := by
  have known (v : Var) (events : List Event) (hv : (v, events) ∈ Propagator.watches p) :
      v < e.watchList.registrations.size := registrations.symm ▸ watched v events hv
  obtain ⟨watchList, hw, size⟩ := WatchList.exists_watch e.numPropagators 0 known
  have hp : e.post p = .ok (e.withPosted p watchList) := by
    unfold Engine.post
    rw [fits]
    dsimp only [Bool.not_true, Bool.false_eq_true, if_false]
    change (do
      let watchList ← (Propagator.watches p).zipIdx.foldlM
        (fun (w : WatchList) ((v, events), position) => w.watch ⟨e.numPropagators, position⟩ v events)
        e.watchList
      return e.withPosted p watchList) = _
    rw [hw]
    rfl
  exact ⟨_, hp, made.post hp, rfl, size.trans registrations⟩

omit [LawfulPropagator π] in
/-- **Propagators that suit the variables can be posted.** -/
theorem exists_posted {ps : List π} (made : e.Made)
    (registrations : e.watchList.registrations.size = e.store.numVars)
    (fits : ∀ p ∈ ps, Propagator.fits p = true)
    (watched : ∀ p ∈ ps, ∀ v events, (v, events) ∈ Propagator.watches p → v < e.store.numVars) :
    ∃ e', ps.foldlM (fun (e : Engine π) p => e.post p) e = .ok e' ∧ e'.Made ∧ e'.store = e.store := by
  induction ps generalizing e with
  | nil => exact ⟨e, rfl, made, rfl⟩
  | cons p ps ih =>
    obtain ⟨e₁, hp, made', same, registrations'⟩ := exists_post made registrations
      (fits p List.mem_cons_self) (watched p List.mem_cons_self)
    obtain ⟨e₂, hps, made'', same'⟩ := ih made' registrations'
      (fun q hq => fits q (List.mem_cons_of_mem p hq))
      (fun q hq => same ▸ watched q (List.mem_cons_of_mem p hq))
    refine ⟨e₂, ?_, made'', same'.trans same⟩
    rw [List.foldlM_cons, hp]
    exact hps

/-- **A model can be loaded if its propagators suit the ranges**, and then they keep their contracts. -/
theorem exists_loaded {m : Model π} (nonempty : ∀ r ∈ m.ranges, r.1 ≤ r.2) (holes : m.holes = [])
    (suits : ∀ s : Store, s.Valid → s.Spans m.ranges → ∀ p ∈ m.constraints, Propagator.fits p = true ∧
      ∀ v events, (v, events) ∈ Propagator.watches p → v < s.numVars) :
    ∃ e, m.load = .ok e ∧ e.Made ∧ e.store.Spans m.ranges ∧
      ∀ P : π → Contract π → Prop,
        (∀ p ∈ m.constraints, ∀ s : Space, s.Valid → s.store.Spans m.ranges →
          ∃ c : Contract π, c.Attaches p s ∧ P p c) →
        ∃ cs, Meets cs e ∧ (∀ c ∈ cs, ∃ p ∈ m.constraints, P p c) ∧ ∀ p ∈ m.constraints, ∃ c ∈ cs, P p c := by
  obtain ⟨e₁, declared, fresh⟩ := exists_declareAll m nonempty
  have suits' := suits _ fresh.made.valid.space.store fresh.spans
  obtain ⟨e₂, posted, made, same⟩ := exists_posted fresh.made fresh.registrations
    (fun p hp => (suits' p hp).1) fun p hp => (suits' p hp).2
  refine ⟨e₂, ?_, made, same ▸ fresh.spans, fun P contracts => ?_⟩
  · unfold Model.load
    rw [declared, holes]
    exact posted
  · obtain ⟨cs, posting, all, every⟩ := fresh.posting.exists_posted (P := P) (fun _ hc => by cases hc)
      (fun p hp s hs heq => contracts p hp s hs (heq.symm ▸ fresh.spans)) posted
    exact ⟨cs, posting.meets, all, every⟩

end Engine

namespace Engine
variable {e : Engine Constraint}

/-! ## Models with constraints -/

/-- An engine does what a model says. -/
structure Faithful (e : Engine Constraint) (m : Model Constraint) : Prop where
  made : e.Made
  spans : e.store.Spans m.ranges
  spares : ∀ a, (∀ c ∈ m.constraints, c.Holds a) → e.Spares a
  said : ∀ e', e.Run .quiet e' → ∀ c ∈ m.constraints, c.Said e'.store
  unfaulty : ∀ e' e'' cause, e.Run .busy e' → e'.turn ≠ .error (.fault cause) e''

/-- The objective and the decisions are variables, and when the decisions are fixed, so is everything. -/
structure Decisive (e : Engine Constraint) (m : Model Constraint) : Prop where
  objective_lt : m.objective < e.store.numVars
  decisions_lt : ∀ v ∈ m.decisions, v < e.store.numVars
  all_fixed : ∀ e', e.Run .quiet e' → (∀ v ∈ m.decisions, e'.store.isFixed v = true) →
    ∀ v, v < e'.store.numVars → e'.store.isFixed v = true

/-- **A search that is faithful to a model does not break down**, if its decisions decide everything. -/
theorem Faithful.flawless {m : Model Constraint} (h : e.Faithful m) (decisive : e.Decisive m)
    (cause : SearchError) : ¬ Search.Excuse (m.root e) cause := by
  intro excuse
  cases excuse with
  | @unknown v cause known hv =>
    have lt : v < e.store.numVars := by
      rcases known with rfl | hmem
      · exact decisive.objective_lt
      · exact decisive.decisions_lt v hmem
    exact absurd lt (Nat.not_lt_of_le hv)
  | fault run turn => exact h.unfaulty _ _ _ run turn
  | unfixed run fixed hv hopen =>
    rw [decisive.all_fixed _ run fixed _ hv] at hopen
    cases hopen

/-- **If its constraints suit the ranges, a model can be loaded**, and then the engine is faithful to it. -/
theorem exists_load {m : Model Constraint} (ranges : ∀ r ∈ m.ranges, r.1 ≤ r.2) (holes : m.holes = [])
    (suits : ∀ s : Store, s.Valid → s.Spans m.ranges → ∀ c ∈ m.constraints, c.Suits s) :
    ∃ e, m.load = .ok e ∧ e.Faithful m := by
  obtain ⟨e, load, made, spans, contracts⟩ := exists_loaded ranges holes fun s hs spans c hc =>
    ⟨(suits s hs spans c hc).fits, (suits s hs spans c hc).watched⟩
  obtain ⟨ks, meets, all, every⟩ := contracts Constraint.Keeps fun c hc s hs spans =>
    c.exists_contract s (suits _ hs.store spans c hc)
  have sure (k : Contract Constraint) (hk : k ∈ ks) : k.Sure := by
    obtain ⟨c, -, keeps⟩ := all k hk
    exact keeps.sure
  refine ⟨e, load, made, spans, fun a ha => spares_of_holds meets fun k hk => ?_, fun e' run c hc => ?_,
    fun e' e'' cause run => run.turn_ne_fault meets sure cause⟩
  · obtain ⟨c, hc, keeps⟩ := all k hk
    exact keeps.holds a (ha c hc)
  · obtain ⟨k, hk, keeps⟩ := every c hc
    exact keeps.said _ (run.settled meets k hk)

end Engine
end BranchBound
