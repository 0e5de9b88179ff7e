import DualDynamic.Proofs.CutPool.Activity

/-!
# Selection and the order of arrival

With a tolerance of zero a pool that selects by dominance knows which cuts are binding: at a tracked
state a position is among the best exactly if its cut is binding among all stored cuts
(`IsTied.mem_best_iff`). It comes to this in two ways, as a new cut competes at the states tracked so
far and as a new state ranks the cuts stored so far. Neither leaves a trace in the answer.

So what a pool contains, which of its cuts are active and at how many states each of them is best is
said by the offers alone (`HasTaken`), and offers that come in another order say the same
(`selection_ignores_order`).
-/

namespace DualDynamic

open Step

namespace CutPool

variable {K : Type} [ExactNumeral K] {s : Sense}

/-! ## Offers -/

section Offers

variable {tolerance : K} {n : ℕ}

/-- An offer to a pool for cuts of one side in `n` state variables: the cut is one of them, and a
state that comes with it is a vector of `n` numbers. -/
structure IsOffer (s : Sense) (n : ℕ) (item : Cut K × Option (Datum K)) : Prop where
  side : item.1.side = s.cutSide
  dimension : item.1.dimension = n
  state : ∀ d, item.2 = some d → ∃ x, d.block = .ok ⟨[n], x⟩

/-- The state that comes with an offer. -/
def stateOf (item : Cut K × Option (Datum K)) : Option (List K) :=
  item.2.bind fun d => d.entries.toOption

/-- The states that come with offers. -/
def statesOf (items : List (Cut K × Option (Datum K))) : List (List K) := items.filterMap stateOf

/-- A pool that knows no other dimension takes an offer. -/
theorem IsOrderly.exists_store {p : CutPool K} {item : Cut K × Option (Datum K)}
    (h : p.IsOrderly tolerance) (hdimension : ∀ m, p.dimension = some m → m = n)
    (hoffer : IsOffer s n item) : ∃ new q, p.store item.1 item.2 = .ok (new, q) := by
  have hknown : p.dimension.getD item.1.dimension = n := by
    cases hp : p.dimension with
    | none => exact hoffer.dimension
    | some m => exact hdimension m hp
  have hstoreAt : ∀ state, ∃ new q, p.storeAt item.1 state = .ok (new, q) := by
    intro state
    have hcheck : p.checkCut item.1 = .ok { p with dimension := some n } := by
      rw [CutPool.checkCut, hknown, hoffer.dimension, beq_self_eq_true, if_pos rfl]
    simp only [CutPool.storeAt, hcheck, bind, Except.bind, h.selection]
    exact ⟨_, _, rfl⟩
  unfold CutPool.store
  cases hstate : item.2 with
  | none => exact hstoreAt none
  | some d =>
    obtain ⟨x, hx⟩ := hoffer.state d hstate
    have hread : p.readState item.1 d = .ok (some x) := by
      simp only [readState, h.selection, Selection.prunes, if_true, hx, hknown, Except.mapError,
        bind, Except.bind, beq_self_eq_true]
      rfl
    simp only [hread]
    exact hstoreAt (some x)

/-- It takes offers one after the other. Its cuts are those of the offers, each once, and it tracks
the states that came with them. -/
theorem IsOrderly.exists_storeAll {items : List (Cut K × Option (Datum K))} {p : CutPool K}
    (h : p.IsOrderly tolerance) (hdimension : ∀ m, p.dimension = some m → m = n)
    (hoffers : ∀ item ∈ items, IsOffer s n item) :
    ∃ q, p.storeAll items = .ok q ∧ q.cuts = (items.map Prod.fst).foldl Cut.insertNew p.cuts ∧
      q.tracked.map Tracked.state = p.tracked.map Tracked.state ++ statesOf items := by
  induction items generalizing p with
  | nil => exact ⟨p, rfl, rfl, (List.append_nil _).symm⟩
  | cons item items ih =>
    rw [List.forall_mem_cons] at hoffers
    obtain ⟨new, r, hr⟩ := h.exists_store hdimension hoffers.1
    obtain ⟨horderly, hknown, read, hread, hstates⟩ := h.store hr
    have hdimension' : ∀ m, r.dimension = some m → m = n := by
      intro m hm
      rw [hknown, Option.some.injEq] at hm
      rw [← hm]
      cases hp : p.dimension with
      | none => exact hoffers.1.dimension
      | some m' => exact hdimension m' hp
    have hstate : stateOf item = read := by
      unfold stateOf
      cases hitem : item.2 <;> cases read <;> simp_all [Except.toOption]
    obtain ⟨q, hq, hcuts, htracked⟩ := ih horderly hdimension' hoffers.2
    refine ⟨q, ?_, ?_, ?_⟩
    · rw [storeAll, List.foldlM_cons, hr]
      exact hq
    · rw [hcuts, (store_eq_ok hr).2, List.map_cons, List.foldl_cons]
    · rw [htracked, hstates, statesOf, statesOf, List.append_assoc, ← hstate]
      cases hitem : stateOf item <;> simp [hitem]

end Offers

/-! ## Binding cuts -/

instance (s : Sense) (a b : K) : Decidable (s.Bounds a b) :=
  match s with
  | .minimize => inferInstanceAs (Decidable (a ≤ b))
  | .maximize => inferInstanceAs (Decidable (b ≤ a))

instance (s : Sense) (cuts : List (Cut K)) (state : List K) (c : Cut K) :
    Decidable (IsBinding s cuts state c) :=
  inferInstanceAs (Decidable (∀ d ∈ cuts, s.Bounds (d.evaluate state) (c.evaluate state)))

theorem isBinding_of_same {cuts : List (Cut K)} {state : List K} {c d : Cut K}
    (h : c.same d = true) : IsBinding s cuts state c ↔ IsBinding s cuts state d := by
  rw [IsBinding, IsBinding, Cut.evaluate_of_same h]

/-- With a tolerance of zero the best cuts are the binding ones. -/
theorem IsTied.mem_best_iff {cuts : List (Cut K)} {t : Tracked K} (h : IsTied s 0 cuts t) {i : ℕ} :
    i ∈ t.best ↔ ∃ c, cuts[i]? = some c ∧ IsBinding s cuts t.state c := by
  constructor
  · intro hi
    obtain ⟨c, hc, hties⟩ := h.ties i hi
    refine ⟨c, hc, fun d hd => ?_⟩
    rw [ties_zero.1 hties]
    rcases better_eq_false_iff.1 (h.unbeaten d hd) with heq | hbelow
    · rw [ties_zero.1 heq]
      exact s.bounds_refl _
    · exact hbelow
  · rintro ⟨c, hc, hbind⟩
    exact h.complete (tiesCompose_of_extreme (Or.inl rfl) _ _) i c hc
      (h.ties_of_isBinding le_rfl (List.mem_of_getElem? hc) hbind)

/-! ## Answers of a pool -/

/-- The number of tracked states at which a cut is best. -/
def bestAt (p : CutPool K) (c : Cut K) : ℕ :=
  p.tracked.countP fun t => t.best.any fun i => p.cuts[i]?.any c.same

/-- The count that is kept for a cut, if it is stored. -/
def countOf (p : CutPool K) (c : Cut K) : Option ℤ :=
  (p.cuts.findIdx? c.same).bind fun i => p.counts[i]?

/-- A pool with a tolerance of zero that has taken offers. -/
structure HasTaken (s : Sense) (items : List (Cut K × Option (Datum K))) (p : CutPool K) : Prop
    extends IsOrderly 0 p where
  tied : ∀ t ∈ p.tracked, IsTied s 0 p.cuts t
  taken : p.cuts = (items.map Prod.fst).foldl Cut.insertNew []
  given : p.tracked.map Tracked.state = statesOf items

theorem exists_hasTaken {n : ℕ} {dimension : Option ℕ} (hdimension : ∀ m, dimension = some m → m = n)
    {items : List (Cut K × Option (Datum K))} (hoffers : ∀ item ∈ items, IsOffer s n item) :
    ∃ p, (empty (.levelOne 0) dimension).storeAll items = .ok p ∧ HasTaken s items p := by
  obtain ⟨p, hp, hcuts, hstates⟩ :=
    (isOrderly_empty dimension).exists_storeAll hdimension hoffers
  obtain ⟨horderly, ⟨-, htied⟩, -⟩ := Tracks.storeAll (isKept_isTied le_rfl)
    (isOrderly_empty dimension) ⟨by simp [empty], by simp [empty]⟩
    (fun item hitem => (hoffers item hitem).side) hp
  exact ⟨p, hp, horderly, htied, hcuts, hstates⟩

namespace HasTaken

variable {items : List (Cut K × Option (Datum K))} {p : CutPool K}

/-- A pool contains the cuts of the offers. -/
theorem contains_eq (h : HasTaken s items p) (c : Cut K) :
    p.contains c = items.any fun item => c.same item.1 := by
  rw [contains, h.taken, Cut.any_foldl_insertNew Scalar.eqTransitive, List.nil_append,
    List.any_map]
  rfl

/-- Binding among the stored cuts is binding among all that were offered. -/
theorem isBinding_iff (h : HasTaken s items p) {state : List K} {c : Cut K} :
    IsBinding s p.cuts state c ↔ IsBinding s (items.map Prod.fst) state c := by
  constructor
  · intro hbind d hd
    obtain ⟨item, hitem, rfl⟩ := List.mem_map.1 hd
    have hstored : p.contains item.1 = true := by
      rw [h.contains_eq]
      exact List.any_eq_true.2 ⟨item, hitem, Cut.same_refl _⟩
    obtain ⟨e, he, hsame⟩ := List.any_eq_true.1 hstored
    rw [Cut.evaluate_of_same hsame]
    exact hbind e he
  · refine fun hbind => hbind.mono fun d hd => ?_
    rw [h.taken] at hd
    exact (Cut.mem_of_mem_foldl_insertNew hd).resolve_left (by simp)

/-- A stored cut is best at a tracked state if it is binding there. -/
theorem any_best_iff (h : HasTaken s items p) {t : Tracked K} (ht : t ∈ p.tracked) (c : Cut K) :
    (t.best.any fun i => p.cuts[i]?.any c.same) =
      (p.contains c && decide (IsBinding s (items.map Prod.fst) t.state c)) := by
  rw [Bool.eq_iff_iff, List.any_eq_true, Bool.and_eq_true, decide_eq_true_eq, ← h.isBinding_iff]
  constructor
  · rintro ⟨i, hi, hsame⟩
    obtain ⟨d, hd, hbind⟩ := (h.tied t ht).mem_best_iff.1 hi
    rw [hd, Option.any_some] at hsame
    exact ⟨List.any_eq_true.2 ⟨d, List.mem_of_getElem? hd, hsame⟩, (isBinding_of_same hsame).2 hbind⟩
  · rintro ⟨hstored, hbind⟩
    obtain ⟨d, hd, hsame⟩ := List.any_eq_true.1 hstored
    obtain ⟨i, hi⟩ := List.mem_iff_getElem?.1 hd
    exact ⟨i, (h.tied t ht).mem_best_iff.2 ⟨d, hi, (isBinding_of_same hsame).1 hbind⟩,
      by rwa [hi, Option.any_some]⟩

/-- A cut that was offered is best at the given states at which it is binding. -/
theorem bestAt_eq (h : HasTaken s items p) (c : Cut K) :
    p.bestAt c = (statesOf items).countP fun x =>
      p.contains c && decide (IsBinding s (items.map Prod.fst) x c) := by
  rw [bestAt, ← h.given, List.countP_map]
  exact List.countP_congr fun t ht => by rw [h.any_best_iff ht c]; rfl

/-- The count that is kept for a stored cut is the number of the states at which it is best. -/
theorem countOf_eq (h : HasTaken s items p) (c : Cut K) :
    p.countOf c = if p.contains c = true then some (p.bestAt c : ℤ) else none := by
  rw [countOf]
  cases hi : p.cuts.findIdx? c.same with
  | none =>
    have hno : p.contains c = false := List.any_eq_false.2 fun d hd => by
      simpa using List.findIdx?_eq_none_iff.1 hi d hd
    simp [hno]
  | some i =>
    obtain ⟨hlt, hsame, -⟩ := List.findIdx?_eq_some_iff_getElem.1 hi
    have hget : p.cuts[i]? = some p.cuts[i] := List.getElem?_eq_getElem hlt
    have hstored : p.contains c = true :=
      List.any_eq_true.2 ⟨p.cuts[i], List.getElem_mem hlt, hsame⟩
    have hwins : wins p.tracked i = (p.bestAt c : ℤ) := by
      rw [wins, bestAt]
      congr 1
      refine List.countP_congr fun t ht => ?_
      rw [h.any_best_iff ht, hstored, Bool.true_and, decide_eq_true_eq, List.contains_iff_mem,
        (h.tied t ht).mem_best_iff, hget, ← h.isBinding_iff]
      simp [isBinding_of_same hsame]
    rw [if_pos hstored, Option.bind_some, h.counts, List.getElem?_map,
      List.getElem?_range (show i < p.size from hlt), Option.map_some, hwins]

/-- A cut that was offered is active if no state was given or if it is best at one of them. -/
theorem any_active_eq (h : HasTaken s items p) (c : Cut K) :
    p.active.any c.same =
      (p.contains c && ((statesOf items).isEmpty || decide (0 < p.bestAt c))) := by
  rw [← h.given, List.isEmpty_map]
  cases htracked : p.tracked with
  | nil =>
    rw [active_eq_cuts (by simp [isSelective, htracked])]
    simp [contains]
  | cons t ts =>
    have hne : p.tracked ≠ [] := by simp [htracked]
    rw [Bool.eq_iff_iff, ← htracked]
    simp only [List.isEmpty_eq_false_iff.2 hne, Bool.false_or, Bool.and_eq_true,
      decide_eq_true_eq, List.any_eq_true, bestAt, List.countP_pos_iff,
      mem_active_iff_best h.toIsCounted h.selection hne]
    constructor
    · rintro ⟨d, ⟨i, hi, u, hu, hbest⟩, hsame⟩
      exact ⟨List.any_eq_true.2 ⟨d, List.mem_of_getElem? hi, hsame⟩, u, hu, i, hbest,
        by rwa [hi, Option.any_some]⟩
    · rintro ⟨-, u, hu, i, hbest, hsame⟩
      obtain ⟨d, hi, hsame⟩ := (Option.any_eq_true _ _).1 hsame
      exact ⟨d, ⟨i, hi, u, hu, hbest⟩, hsame⟩

end HasTaken

/-- Pools with a tolerance of zero that take the same offers in different orders contain the same
cuts, have the same cuts active, and agree for every cut on the number of the tracked states at which
it is best and on the count that they keep for it. -/
theorem selection_ignores_order (s : Sense) {n : ℕ} {items others : List (Cut K × Option (Datum K))}
    (hperm : items.Perm others) (hoffers : ∀ item ∈ items, IsOffer s n item)
    {dimension dimension' : Option ℕ} (hdimension : ∀ m, dimension = some m → m = n)
    (hdimension' : ∀ m, dimension' = some m → m = n) :
    ∃ p q, (empty (.levelOne 0) dimension).storeAll items = .ok p ∧
      (empty (.levelOne 0) dimension').storeAll others = .ok q ∧
      ∀ c, p.contains c = q.contains c ∧ p.active.any c.same = q.active.any c.same ∧
        p.bestAt c = q.bestAt c ∧ p.countOf c = q.countOf c := by
  obtain ⟨p, hp, htaken⟩ := exists_hasTaken hdimension hoffers
  obtain ⟨q, hq, htaken'⟩ :=
    exists_hasTaken hdimension' fun item hitem => hoffers item (hperm.mem_iff.2 hitem)
  have hstates : (statesOf items).Perm (statesOf others) := hperm.filterMap _
  refine ⟨p, q, hp, hq, fun c => ?_⟩
  have hcontains : p.contains c = q.contains c := by
    rw [htaken.contains_eq, htaken'.contains_eq]
    exact hperm.any_eq
  have hbinding : ∀ x, IsBinding s (items.map Prod.fst) x c ↔
      IsBinding s (others.map Prod.fst) x c := fun x =>
    forall_congr' fun d => by rw [(hperm.map Prod.fst).mem_iff]
  have hbest : p.bestAt c = q.bestAt c := by
    rw [htaken.bestAt_eq, htaken'.bestAt_eq, hcontains]
    simp only [hbinding]
    exact hstates.countP_eq _
  refine ⟨hcontains, ?_, hbest, ?_⟩
  · rw [htaken.any_active_eq, htaken'.any_active_eq, hcontains, hbest, hstates.isEmpty_eq]
  · rw [htaken.countOf_eq, htaken'.countOf_eq, hcontains, hbest]

/-- Two lower bounds that cross, one of them offered twice, and a state that is given twice. -/
def crossing : List (Cut ℚ × Option (Datum ℚ)) :=
  [(⟨0, [1], .atLeast, none, none, none⟩, some (.list [.real 1])),
    (⟨0, [-1], .atLeast, none, none, none⟩, some (.list [.real 1])),
    (⟨1, [0], .atLeast, none, none, none⟩, none),
    (⟨0, [1], .atLeast, some 1, none, none⟩, some (.list [.real (-2)]))]

/-- The crossing bounds, stored in the order given and backwards. -/
theorem selection_ignores_order_crossing :
    crossing.Perm crossing.reverse ∧ (∀ item ∈ crossing, IsOffer .minimize 1 item) ∧
      (∀ m, (none : Option ℕ) = some m → m = 1) ∧ (∀ m, some 1 = some m → m = 1) ∧
      ∃ p q, (empty (.levelOne 0) none).storeAll crossing = .ok p ∧
        (empty (.levelOne 0) (some 1)).storeAll crossing.reverse = .ok q ∧
        ∀ c, p.contains c = q.contains c ∧ p.active.any c.same = q.active.any c.same ∧
          p.bestAt c = q.bestAt c ∧ p.countOf c = q.countOf c := by
  have hperm : crossing.Perm crossing.reverse := (List.reverse_perm _).symm
  have hoffers : ∀ item ∈ crossing, IsOffer .minimize 1 item := by
    have hvector : ∀ x : ℚ, (Datum.list [Datum.real x]).block = .ok ⟨[1], [x]⟩ :=
      fun x => Datum.block_reals [x]
    simp only [crossing, List.forall_mem_cons]
    refine ⟨⟨rfl, rfl, ?_⟩, ⟨rfl, rfl, ?_⟩, ⟨rfl, rfl, ?_⟩, ⟨rfl, rfl, ?_⟩, by simp⟩
    all_goals simp [hvector]
  have hnone : ∀ m, (none : Option ℕ) = some m → m = 1 := by simp
  have hsome : ∀ m, some 1 = some m → m = 1 := fun m hm => (Option.some.inj hm).symm
  exact ⟨hperm, hoffers, hnone, hsome, selection_ignores_order .minimize hperm hoffers hnone hsome⟩

end CutPool

end DualDynamic
