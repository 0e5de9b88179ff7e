import DualDynamic.Proofs.Cut
import DualDynamic.Proofs.CutPool
import DualDynamic.Proofs.Datum

/-!
# The books of a pool

A pool that selects by dominance counts for each cut the tracked states at which it is best, by
increments and decrements as cuts and states arrive. The counts are right at all times
(`IsCounted`): a newcomer was best nowhere, so that it takes from the counts what it takes from the
best sets. Together with the shape of what is stored (`IsOrderly`) this holds after any sequence of
offers, those that are refused included. Nothing here depends on the arithmetic: comparisons may
answer as they do for a NaN.
-/

namespace DualDynamic

namespace CutPool

variable {K : Type}

/-! ## Counting -/

/-- The number of the tracked states at which the cut at a position is best. -/
def wins (tracked : List (Tracked K)) (i : ℕ) : ℤ := tracked.countP fun t => t.best.contains i

@[simp] theorem wins_nil (i : ℕ) : wins ([] : List (Tracked K)) i = 0 := rfl

@[simp] theorem wins_cons (t : Tracked K) (ts : List (Tracked K)) (i : ℕ) :
    wins (t :: ts) i = wins ts i + if i ∈ t.best then 1 else 0 := by
  by_cases h : i ∈ t.best <;> simp [wins, h]

theorem wins_append (ts us : List (Tracked K)) (i : ℕ) :
    wins (ts ++ us) i = wins ts i + wins us i := by
  simp [wins, List.countP_append]

theorem wins_pos {ts : List (Tracked K)} {i : ℕ} : 0 < wins ts i ↔ ∃ t ∈ ts, i ∈ t.best := by
  simp [wins, List.countP_pos_iff]

theorem getElem?_adjust (step : ℤ) (positions : List ℕ) (counts : List ℤ) (i : ℕ) :
    (adjust step positions counts)[i]? =
      counts[i]?.map fun n => n + if i ∈ positions then step else 0 := by
  rw [adjust, List.getElem?_mapIdx]
  by_cases h : i ∈ positions <;> simp [h]

section Numerals

variable [Numeral K] {tolerance : K}

/-- The tracked state after a cut has competed there. The counts have no part in it. -/
def ranked (tolerance : K) (i : ℕ) (c : Cut K) (t : Tracked K) : Tracked K :=
  (challenge tolerance i c [] t).2

theorem challenge_snd (i : ℕ) (c : Cut K) (counts : List ℤ) (t : Tracked K) :
    (challenge tolerance i c counts t).2 = ranked tolerance i c t := by
  unfold ranked challenge
  dsimp only
  split_ifs <;> rfl

@[simp] theorem state_ranked (i : ℕ) (c : Cut K) (t : Tracked K) :
    (ranked tolerance i c t).state = t.state := by
  unfold ranked challenge
  dsimp only
  split_ifs <;> rfl

theorem competeAt_snd (i : ℕ) (c : Cut K) (counts : List ℤ) (ts : List (Tracked K)) :
    (competeAt tolerance i c counts ts).2 = ts.map (ranked tolerance i c) := by
  induction ts generalizing counts with
  | nil => rfl
  | cons t ts ih => simp only [competeAt, List.map_cons, ih, challenge_snd]

/-- A cut that was best nowhere takes from the counts what it takes from the best sets. -/
theorem counts_challenge {i : ℕ} {c : Cut K} {t : Tracked K} (hi : i ∉ t.best) (counts : List ℤ)
    (j : ℕ) : (challenge tolerance i c counts t).1[j]? = counts[j]?.map fun n =>
      n + (wins [ranked tolerance i c t] j - wins [t] j) := by
  unfold ranked challenge
  dsimp only
  split_ifs with hbetter hties
  · rw [getElem?_adjust, getElem?_adjust, Option.map_map]
    congr 1
    funext n
    by_cases hj : j ∈ t.best <;> simp [hj]
    ring
  · rw [getElem?_adjust]
    congr 1
    funext n
    by_cases hj : j = i
    · simp [hj, hi]
    · simp [hj]
  · simp

theorem counts_competeAt {i : ℕ} {c : Cut K} {ts : List (Tracked K)} (hi : ∀ t ∈ ts, i ∉ t.best)
    (counts : List ℤ) (j : ℕ) : (competeAt tolerance i c counts ts).1[j]? =
      counts[j]?.map fun n => n + (wins (ts.map (ranked tolerance i c)) j - wins ts j) := by
  induction ts generalizing counts with
  | nil => simp [competeAt]
  | cons t ts ih =>
    rw [List.forall_mem_cons] at hi
    simp only [competeAt]
    rw [ih hi.2, counts_challenge hi.1, Option.map_map]
    congr 1
    funext n
    simp only [Function.comp_apply, List.map_cons, wins_cons, wins_nil]
    ring

/-! ## Right counts -/

/-- The counts of a pool are right, and its best positions are positions of cuts. -/
structure IsCounted (p : CutPool K) : Prop where
  stored : ∀ t ∈ p.tracked, ∀ i ∈ t.best, i < p.size
  counts : p.counts = (List.range p.size).map fun i => wins p.tracked i

omit [Numeral K] in
theorem IsCounted.not_mem_best {p : CutPool K} (h : p.IsCounted) {t : Tracked K}
    (ht : t ∈ p.tracked) : p.size ∉ t.best := fun hi => absurd (h.stored t ht _ hi) (lt_irrefl _)

theorem tracked_addCompeting (c : Cut K) (p : CutPool K) :
    (p.addCompeting tolerance c).tracked = p.tracked.map (ranked tolerance p.size c) :=
  competeAt_snd _ _ _ _

theorem size_addCompeting (c : Cut K) (p : CutPool K) :
    (p.addCompeting tolerance c).size = p.size + 1 := by
  simp [size, cuts_addCompeting]

/-- A cut that competes joins the best cuts, or takes the place of all of them, or leaves them. -/
theorem best_ranked (i : ℕ) (c : Cut K) (t : Tracked K) :
    (ranked tolerance i c t).best = [i] ∨ (ranked tolerance i c t).best = t.best ++ [i] ∨
      (ranked tolerance i c t).best = t.best := by
  unfold ranked challenge
  dsimp only
  split_ifs <;> simp

theorem IsCounted.addCompeting {p : CutPool K} (h : p.IsCounted) (c : Cut K) :
    (p.addCompeting tolerance c).IsCounted := by
  refine ⟨?_, ?_⟩
  · rw [tracked_addCompeting, List.forall_mem_map, size_addCompeting]
    intro t ht i hi
    have hold := h.stored t ht
    rcases best_ranked p.size c t with hbest | hbest | hbest <;> rw [hbest] at hi
    · obtain rfl := List.mem_singleton.1 hi
      omega
    · rcases List.mem_append.1 hi with hi | hi
      · have := hold i hi
        omega
      · obtain rfl := List.mem_singleton.1 hi
        omega
    · have := hold i hi
      omega
  · -- The newcomer starts with the count of a cut that is best nowhere.
    have hnone : wins p.tracked p.size = 0 := by
      have hnone : ¬ 0 < wins p.tracked p.size :=
        wins_pos.not.2 fun ⟨t, ht, hi⟩ => h.not_mem_best ht hi
      have hnonneg : 0 ≤ wins p.tracked p.size := Int.natCast_nonneg _
      omega
    have hold : p.counts ++ [0] = (List.range (p.size + 1)).map fun i => wins p.tracked i := by
      rw [List.range_succ, List.map_append, List.map_singleton, hnone, h.counts]
    refine List.ext_getElem? fun j => ?_
    rw [tracked_addCompeting, size_addCompeting]
    refine (counts_competeAt (fun t ht => h.not_mem_best ht) _ j).trans ?_
    rw [hold]
    rcases lt_or_ge j (p.size + 1) with hj | hj
    · simp [List.getElem?_range hj]
    · simp [List.getElem?_eq_none, hj]

theorem lt_of_mem_tyingAt {best : K} {values : List K} {i : ℕ}
    (h : i ∈ tyingAt tolerance best values) : i < values.length :=
  List.mem_range.1 (List.mem_of_mem_filter h)

theorem nodup_tyingAt (tolerance best : K) (values : List K) :
    (tyingAt tolerance best values).Nodup := List.nodup_range.filter _

/-- What tracking a state does to a pool that has cuts. -/
theorem track_eq (tolerance : K) {p : CutPool K} (hcuts : p.cuts ≠ []) (state : List K) :
    ∃ value, p.track tolerance state =
      let best := tyingAt tolerance value (p.cuts.map fun c => c.evaluate state)
      { p with tracked := p.tracked ++ [⟨state, value, best⟩], counts := adjust 1 best p.counts } := by
  obtain ⟨c, cs, hp⟩ := List.exists_cons_of_ne_nil hcuts
  simp only [track, hp, List.head?_cons, Option.bind_some, List.map_cons, bestOf]
  exact ⟨_, rfl⟩

theorem IsCounted.track {p : CutPool K} (h : p.IsCounted) (tolerance : K) (hcuts : p.cuts ≠ [])
    (state : List K) :
    (p.track tolerance state).IsCounted := by
  obtain ⟨value, htrack⟩ := track_eq tolerance hcuts state
  rw [htrack]
  refine ⟨?_, ?_⟩
  · rw [List.forall_mem_append, List.forall_mem_singleton]
    refine ⟨h.stored, fun i hi => ?_⟩
    simpa [size] using lt_of_mem_tyingAt hi
  · rw [h.counts]
    refine List.ext_getElem? fun j => ?_
    rw [getElem?_adjust]
    rcases lt_or_ge j p.cuts.length with hj | hj
    · simp [size, List.getElem?_range hj, wins_append]
    · simp [size, hj]

/-! ## Orderly pools -/

/-- A pool that selects by dominance, with its books in order. -/
structure IsOrderly (tolerance : K) (p : CutPool K) : Prop extends IsCounted p where
  selection : p.selection = .levelOne tolerance
  sets : ∀ t ∈ p.tracked, t.best.Nodup
  distinct : Cut.Distinct p.cuts
  cuts : ∀ c ∈ p.cuts, p.dimension = some c.dimension
  states : ∀ t ∈ p.tracked, p.dimension = some t.state.length

variable {p q : CutPool K} {c : Cut K} {new : Bool}

theorem isOrderly_empty (dimension : Option ℕ) :
    (empty (.levelOne tolerance) dimension).IsOrderly tolerance :=
  ⟨⟨by simp [empty], rfl⟩, rfl, by simp [empty], List.Pairwise.nil, by simp [empty], by simp [empty]⟩

/-- A pool that takes a cut knows its dimension afterwards, and is the same pool otherwise. -/
theorem IsOrderly.checkCut (h : p.IsOrderly tolerance) (hq : p.checkCut c = .ok q) :
    q.IsOrderly tolerance ∧ q.dimension = some (p.dimension.getD c.dimension) ∧
      q.dimension = some c.dimension ∧ q.cuts = p.cuts ∧ q.tracked = p.tracked := by
  simp only [CutPool.checkCut] at hq
  split_ifs at hq with hdimension
  obtain rfl := Except.ok.inj hq
  have hnew : p.dimension.getD c.dimension = c.dimension := (beq_iff_eq.1 hdimension).symm
  refine ⟨⟨⟨h.stored, h.counts⟩, h.selection, h.sets, h.distinct, fun d hd => ?_, fun t ht => ?_⟩,
    rfl, congrArg some hnew, rfl, rfl⟩
  · rw [h.cuts d hd, Option.getD_some]
  · rw [h.states t ht, Option.getD_some]

theorem IsOrderly.addCompeting (h : p.IsOrderly tolerance) (hc : p.dimension = some c.dimension)
    (hnew : p.contains c = false) : (p.addCompeting tolerance c).IsOrderly tolerance := by
  refine ⟨h.toIsCounted.addCompeting c, h.selection, ?_, ?_, ?_, ?_⟩
  · rw [tracked_addCompeting, List.forall_mem_map]
    intro t ht
    rcases best_ranked p.size c t with hbest | hbest | hbest <;> rw [hbest]
    · exact List.nodup_singleton _
    · exact List.nodup_append.2 ⟨h.sets t ht, List.nodup_singleton _, fun i hi j hj => by
        rintro rfl
        obtain rfl := List.mem_singleton.1 hj
        exact h.not_mem_best ht hi⟩
    · exact h.sets t ht
  · rw [cuts_addCompeting]
    exact h.distinct.concat hnew
  · rw [cuts_addCompeting, List.forall_mem_append, List.forall_mem_singleton]
    exact ⟨h.cuts, hc⟩
  · rw [tracked_addCompeting, List.forall_mem_map]
    intro t ht
    rw [state_ranked]
    exact h.states t ht

theorem IsOrderly.track (h : p.IsOrderly tolerance) (hcuts : p.cuts ≠ []) {state : List K}
    (hstate : p.dimension = some state.length) : (p.track tolerance state).IsOrderly tolerance := by
  have hcounted := h.toIsCounted.track tolerance hcuts state
  obtain ⟨value, htrack⟩ := track_eq tolerance hcuts state
  rw [htrack] at hcounted ⊢
  refine ⟨hcounted, h.selection, ?_, h.distinct, h.cuts, ?_⟩
  · rw [List.forall_mem_append, List.forall_mem_singleton]
    exact ⟨h.sets, nodup_tyingAt _ _ _⟩
  · rw [List.forall_mem_append, List.forall_mem_singleton]
    exact ⟨h.states, hstate⟩

theorem dimension_track (state : List K) (p : CutPool K) :
    (p.track tolerance state).dimension = p.dimension := by
  unfold CutPool.track
  dsimp only
  split <;> rfl

theorem states_addCompeting (c : Cut K) (p : CutPool K) :
    (p.addCompeting tolerance c).tracked.map Tracked.state = p.tracked.map Tracked.state := by
  rw [tracked_addCompeting, List.map_map]
  exact List.map_congr_left fun t _ => state_ranked _ _ _

/-- A pool with cuts tracks every state that it is given. -/
theorem states_track (hcuts : p.cuts ≠ []) (state : List K) :
    (p.track tolerance state).tracked.map Tracked.state =
      p.tracked.map Tracked.state ++ [state] := by
  obtain ⟨value, htrack⟩ := track_eq tolerance hcuts state
  rw [htrack]
  simp

/-- A pool that selects stores in two moves: a new cut competes, then a state is tracked. -/
theorem storeAt_levelOne {state : Option (List K)} (hselection : p.selection = .levelOne tolerance)
    (hstore : p.storeAt c state = .ok (new, q)) :
    ∃ r grown, p.checkCut c = .ok r ∧
      grown = (if r.contains c then r else r.addCompeting tolerance c) ∧
      q = state.elim grown fun x => grown.track tolerance x := by
  obtain ⟨r, hcheck, hstore⟩ := Step.exceptBind_eq_ok.1 hstore
  rw [(checkCut_eq_ok hcheck).2, hselection] at hstore
  obtain ⟨-, rfl⟩ := Prod.mk.inj (Except.ok.inj hstore)
  refine ⟨r, _, hcheck, rfl, ?_⟩
  cases state <;> cases r.contains c <;> rfl

/-- A pool with its books in order stores a cut, and tracks the state that came with it. -/
theorem IsOrderly.storeAt (h : p.IsOrderly tolerance) {state : Option (List K)}
    (hstate : ∀ x, state = some x → x.length = p.dimension.getD c.dimension)
    (hstore : p.storeAt c state = .ok (new, q)) :
    q.IsOrderly tolerance ∧ q.dimension = some (p.dimension.getD c.dimension) ∧
      q.tracked.map Tracked.state = p.tracked.map Tracked.state ++ state.toList := by
  obtain ⟨r, grown, hcheck, hgrown, hq⟩ := storeAt_levelOne h.selection hstore
  obtain ⟨hr, hknown, hc, hcuts, htracked⟩ := h.checkCut hcheck
  have horderly : grown.IsOrderly tolerance := by
    rw [hgrown]
    split_ifs with hold
    · exact hr
    · exact hr.addCompeting hc (by simpa using hold)
  have hdimension : grown.dimension = some (p.dimension.getD c.dimension) := by
    rw [hgrown, ← hknown]
    split_ifs <;> rfl
  have hstates : grown.tracked.map Tracked.state = p.tracked.map Tracked.state := by
    rw [hgrown, ← htracked]
    split_ifs
    · rfl
    · exact states_addCompeting c r
  have hnonempty : grown.cuts ≠ [] := by
    rw [hgrown]
    split_ifs with hold
    · intro hnil
      simp [contains, hnil] at hold
    · simp [cuts_addCompeting]
  cases state with
  | none =>
    obtain rfl : q = grown := hq
    exact ⟨horderly, hdimension, by simpa using hstates⟩
  | some x =>
    obtain rfl : q = grown.track tolerance x := hq
    have hx : grown.dimension = some x.length := by rw [hdimension, hstate x rfl]
    refine ⟨horderly.track hnonempty hx, ?_, ?_⟩
    · rw [dimension_track, hdimension]
    · rw [states_track hnonempty, hstates, Option.toList_some]

/-- A state that a pool reads has one entry per state variable. -/
theorem readState_eq_ok {d : Datum K} {state : Option (List K)} (hprunes : p.selection.prunes = true)
    (h : p.readState c d = .ok state) :
    ∃ x, state = some x ∧ d.entries = .ok x ∧ x.length = p.dimension.getD c.dimension := by
  simp only [readState, hprunes, if_true] at h
  obtain ⟨block, hblock, h⟩ := Step.exceptBind_eq_ok.1 h
  rw [Step.mapError_eq_ok] at hblock
  have hlength := Datum.length_block hblock
  simp only [Datum.block] at hblock
  split_ifs at hblock
  split_ifs at h with hshape
  cases hentries : d.entries with
  | error e => simp [hentries, Except.map] at hblock
  | ok xs =>
    simp only [hentries, Except.map, Except.ok.injEq] at hblock
    subst hblock
    refine ⟨xs, (Except.ok.inj h).symm, rfl, ?_⟩
    rw [beq_iff_eq.1 hshape, List.prod_singleton] at hlength
    exact hlength

theorem IsOrderly.store (h : p.IsOrderly tolerance) {state : Option (Datum K)}
    (hstore : p.store c state = .ok (new, q)) :
    q.IsOrderly tolerance ∧ q.dimension = some (p.dimension.getD c.dimension) ∧
      ∃ read : Option (List K), state.map Datum.entries = read.map Except.ok ∧
        q.tracked.map Tracked.state = p.tracked.map Tracked.state ++ read.toList := by
  cases state with
  | none =>
    have hstored : p.storeAt c none = .ok (new, q) := hstore
    obtain ⟨horderly, hdimension, hstates⟩ := h.storeAt (by simp) hstored
    exact ⟨horderly, hdimension, none, rfl, hstates⟩
  | some d =>
    obtain ⟨read, hread, hstored⟩ := Step.exceptBind_eq_ok.1 hstore
    obtain ⟨x, rfl, hx, hlength⟩ := readState_eq_ok (by rw [h.selection]; rfl) hread
    obtain ⟨horderly, hdimension, hstates⟩ := h.storeAt (by simpa using hlength) hstored
    exact ⟨horderly, hdimension, some x, congrArg some hx, hstates⟩

/-! ## Histories -/

/-- The pool after an offer of a cut, with or without a state. An offer that is refused leaves no
trace. -/
def offer (p : CutPool K) (item : Cut K × Option (Datum K)) : CutPool K :=
  match p.store item.1 item.2 with
  | .ok (_, q) => q
  | .error _ => p

/-- The pool after a sequence of offers. -/
def offerAll (p : CutPool K) (items : List (Cut K × Option (Datum K))) : CutPool K :=
  items.foldl offer p

/-- The offers that a pool takes, out of a sequence of offers. -/
def taken (p : CutPool K) :
    List (Cut K × Option (Datum K)) → List (Cut K × Option (Datum K))
  | [] => []
  | item :: items =>
    match p.store item.1 item.2 with
    | .ok (_, q) => item :: q.taken items
    | .error _ => p.taken items

/-- The books stay in order, and a dimension that is known stays. -/
theorem IsOrderly.offer (h : p.IsOrderly tolerance) (item : Cut K × Option (Datum K)) :
    (p.offer item).IsOrderly tolerance ∧
      ∀ n, p.dimension = some n → (p.offer item).dimension = some n := by
  unfold CutPool.offer
  cases hstore : p.store item.1 item.2 with
  | error e => exact ⟨h, fun n hn => hn⟩
  | ok answer =>
    obtain ⟨horderly, hdimension, -⟩ := h.store hstore
    exact ⟨horderly, fun n hn => by rw [hdimension, hn, Option.getD_some]⟩

theorem IsOrderly.offerAll {items : List (Cut K × Option (Datum K))} (h : p.IsOrderly tolerance) :
    (p.offerAll items).IsOrderly tolerance ∧
      ∀ n, p.dimension = some n → (p.offerAll items).dimension = some n := by
  induction items generalizing p with
  | nil => exact ⟨h, fun n hn => hn⟩
  | cons item items ih =>
    obtain ⟨hoffer, hkept⟩ := h.offer item
    obtain ⟨hall, hkept'⟩ := ih hoffer
    exact ⟨hall, fun n hn => hkept' n (hkept n hn)⟩

/-- A pool holds the cuts of the offers that it took. -/
theorem cuts_offerAll (p : CutPool K) (items : List (Cut K × Option (Datum K))) :
    (p.offerAll items).cuts = ((p.taken items).map Prod.fst).foldl Cut.insertNew p.cuts := by
  induction items generalizing p with
  | nil => rfl
  | cons item items ih =>
    have hstep : p.offerAll (item :: items) = (p.offer item).offerAll items := rfl
    rw [hstep, ih, CutPool.offer, taken]
    cases hstore : p.store item.1 item.2 with
    | error e => rfl
    | ok answer => rw [List.map_cons, List.foldl_cons, (store_eq_ok hstore).2]

/-- It tracks the states that came with them. -/
theorem IsOrderly.states_offerAll (h : p.IsOrderly tolerance)
    (items : List (Cut K × Option (Datum K))) :
    ∃ states : List (List K),
      ((p.taken items).filterMap Prod.snd).map Datum.entries = states.map Except.ok ∧
      (p.offerAll items).tracked.map Tracked.state = p.tracked.map Tracked.state ++ states := by
  induction items generalizing p with
  | nil => exact ⟨[], rfl, (List.append_nil _).symm⟩
  | cons item items ih =>
    have hstep : p.offerAll (item :: items) = (p.offer item).offerAll items := rfl
    rw [hstep, CutPool.offer, taken]
    cases hstore : p.store item.1 item.2 with
    | error e => exact ih h
    | ok answer =>
      obtain ⟨horderly, -, read, hread, hgrown⟩ := h.store hstore
      obtain ⟨states, htaken, hstates⟩ := ih horderly
      refine ⟨read.toList ++ states, ?_, by rw [hstates, hgrown, List.append_assoc]⟩
      rw [List.map_append, ← htaken]
      cases hstate : item.2 with
      | none =>
        cases read with
        | none => simp [hstate]
        | some x => simp [hstate] at hread
      | some d =>
        cases read with
        | none => simp [hstate] at hread
        | some x =>
          have hd : d.entries = .ok x := by simpa [hstate] using hread
          simp [hstate, hd]

/-- The books of a pool are in order after any sequence of offers, whichever of them it refuses and
whatever its comparisons answer. Cuts and counts are in step, and so are the tracked states, the best
values and the best sets, one for each state that came with a cut that was taken. No cut is stored
twice, and the cuts that the pool says it contains are those that it was given. All cuts and tracked
states are about one number of state variables. The best sets hold positions of stored cuts, each
once, and the count of a cut is the number of best sets with its position. -/
theorem books_stay_in_order (tolerance : K) (dimension : Option ℕ)
    (items : List (Cut K × Option (Datum K))) :
    let start := empty (.levelOne tolerance) dimension
    let p := start.offerAll items
    let given := (start.taken items).filterMap Prod.snd
    p.cuts.length = p.counts.length ∧
    ((p.tracked.map Tracked.state).length = given.length ∧
      (p.tracked.map Tracked.value).length = given.length ∧
      (p.tracked.map Tracked.best).length = given.length) ∧
    (p.cuts.Pairwise fun c d => d.same c = false) ∧
    (Scalar.EqSymmetric K → p.cuts.Pairwise fun c d => c.same d = false) ∧
    (∀ c, p.contains c = true ↔ ∃ d ∈ p.cuts, c.same d = true) ∧
    (Scalar.EqTransitive K →
      ∀ c, p.contains c = true ↔ ∃ item ∈ start.taken items, c.same item.1 = true) ∧
    (∀ n, dimension = some n → p.dimension = some n) ∧
    (∀ c ∈ p.cuts, p.dimension = some c.dimension) ∧
    (∀ t ∈ p.tracked, p.dimension = some t.state.length) ∧
    (∀ t ∈ p.tracked, t.best.Nodup ∧ ∀ i ∈ t.best, i < p.cuts.length) ∧
    (∀ j < p.cuts.length, p.counts[j]? = some (p.tracked.countP fun t => t.best.contains j : ℤ)) := by
  intro start p given
  have hstart : start.IsOrderly tolerance := isOrderly_empty dimension
  obtain ⟨h, hkept⟩ : p.IsOrderly tolerance ∧ ∀ n, dimension = some n → p.dimension = some n :=
    hstart.offerAll
  have hcuts : p.cuts = ((start.taken items).map Prod.fst).foldl Cut.insertNew [] :=
    cuts_offerAll start items
  obtain ⟨states, hgiven, hstates⟩ := hstart.states_offerAll items
  have htracked : p.tracked.length = given.length := by
    have hlength := congrArg List.length hgiven
    have hsame : (p.tracked.map Tracked.state).length = states.length := congrArg List.length hstates
    rw [List.length_map, List.length_map] at hlength
    rw [List.length_map] at hsame
    rw [hsame, ← hlength]
  refine ⟨?_, ?_, h.distinct, fun hsymm => ?_, fun c => List.any_eq_true, fun htrans c => ?_,
    hkept, h.cuts, h.states, fun t ht => ⟨h.sets t ht, h.stored t ht⟩, fun j hj => ?_⟩
  · rw [h.counts, List.length_map, List.length_range, size]
  · simp [htracked]
  · refine h.distinct.imp fun {c d} hdistinct => Bool.eq_false_iff.2 fun hsame => ?_
    exact Bool.eq_false_iff.1 hdistinct (Cut.same_symm hsymm hsame)
  · rw [contains, hcuts, Cut.any_foldl_insertNew htrans, List.nil_append, List.any_map,
      List.any_eq_true]
    rfl
  · have hsize : j < p.size := hj
    rw [h.counts, List.getElem?_map, List.getElem?_range hsize]
    rfl

end Numerals

end CutPool

end DualDynamic
