import DualDynamic.Proofs.CutPool.Bookkeeping
import DualDynamic.Proofs.Exact

/-!
# Selection by dominance

A pool that retires dominated cuts keeps the ones that matter: at every tracked state the cuts that
attain the best value of all stored cuts are active, so that retiring the others changes no bound
there.

The value that a pool remembers at a tracked state may lag behind the best one, since a cut that
ties with it joins the best cuts without raising it. It never lags far: no stored cut is better than
the remembered value beyond a tie. Ties are convex, so a newcomer that is better than the remembered
value is strictly better than every stored cut, and may take the place of all best ones.
-/

namespace DualDynamic

open Step

namespace CutPool

variable {K : Type}

section Exact

variable [ExactNumeral K] {s : Sense} {tolerance : K}

/-! ## Ties -/

theorem ties_iff {a b : K} :
    ties tolerance a b = true ↔ |a - b| ≤ tolerance * max (max 1 |a|) |b| := by
  simp [ties]

theorem ties_refl (h : 0 ≤ tolerance) (a : K) : ties tolerance a a = true := by
  rw [ties_iff, sub_self, abs_zero]
  exact mul_nonneg h (le_max_of_le_left (le_max_of_le_left zero_le_one))

theorem ties_comm (a b : K) : ties tolerance a b = ties tolerance b a := by
  rw [Bool.eq_iff_iff, ties_iff, ties_iff, abs_sub_comm, max_right_comm]

theorem abs_sub_of_between {a b c : K} (hab : s.Bounds a b) (hbc : s.Bounds b c) :
    |c - a| = |c - b| + |b - a| := by
  cases s
  · have hab : a ≤ b := hab
    have hbc : b ≤ c := hbc
    rw [abs_of_nonneg (by linarith), abs_of_nonneg (by linarith), abs_of_nonneg (by linarith)]
    ring
  · have hab : b ≤ a := hab
    have hbc : c ≤ b := hbc
    rw [abs_of_nonpos (by linarith), abs_of_nonpos (by linarith), abs_of_nonpos (by linarith)]
    ring

/-- A value between two that tie ties with one of them, the one that sets the scale. -/
theorem ties_split {a b c : K} (h₀ : 0 ≤ tolerance) (hab : s.Bounds a b) (hbc : s.Bounds b c)
    (h : ties tolerance c a = true) : ties tolerance b a = true ∨ ties tolerance c b = true := by
  simp only [ties_iff] at h ⊢
  have hdistance := abs_sub_of_between hab hbc
  rcases le_total |c| (max 1 |a|) with hscale | hscale
  · have hmax : max (max 1 |c|) |a| ≤ max (max 1 |b|) |a| :=
      max_le (max_le (le_max_of_le_left (le_max_left _ _))
        (hscale.trans (max_le_max (le_max_left _ _) le_rfl))) (le_max_right _ _)
    have := mul_le_mul_of_nonneg_left hmax h₀
    have := abs_nonneg (c - b)
    exact Or.inl (by linarith)
  · have hmax : max (max 1 |c|) |a| ≤ max (max 1 |c|) |b| :=
      max_le (le_max_left _ _) (le_max_of_le_left ((le_max_right _ _).trans
        (hscale.trans (le_max_right _ _))))
    have := mul_le_mul_of_nonneg_left hmax h₀
    have := abs_nonneg (b - a)
    exact Or.inr (by linarith)

/-- A value between two that tie is at most as far from the one as the other is; the scale shrinks
by no more than the distance does. -/
theorem ties_of_between {a b c : K} (h₀ : 0 ≤ tolerance) (h₁ : tolerance < 1) (hab : s.Bounds a b)
    (hbc : s.Bounds b c) (h : ties tolerance c a = true) : ties tolerance b a = true := by
  rw [ties_iff] at h ⊢
  have hdistance := abs_sub_of_between hab hbc
  have hscale : max (max 1 |c|) |a| ≤ max (max 1 |b|) |a| + |c - b| := by
    have hc : |c| ≤ |b| + |c - b| := by
      have := abs_sub_abs_le_abs_sub c b
      linarith
    have hpos := abs_nonneg (c - b)
    refine max_le (max_le ?_ ?_) ?_
    · have := (le_max_left 1 |b|).trans (le_max_left _ |a|)
      linarith
    · have := (le_max_right 1 |b|).trans (le_max_left _ |a|)
      linarith
    · have := le_max_right (max 1 |b|) |a|
      linarith
  have hscaled := mul_le_mul_of_nonneg_left hscale h₀
  have hshrunk : tolerance * |c - b| ≤ |c - b| :=
    mul_le_of_le_one_left (abs_nonneg _) h₁.le
  rw [mul_add] at hscaled
  linarith

theorem better_iff {a b : K} :
    better tolerance s.cutSide a b = true ↔
      ties tolerance a b = false ∧ s.Bounds b a ∧ a ≠ b := by
  cases s
  · simp only [better, Sense.cutSide, Bool.and_eq_true, Bool.not_eq_true', Scalar.lt_iff,
      Sense.Bounds]
    rw [lt_iff_le_and_ne, ne_comm]
  · simp only [better, Sense.cutSide, Bool.and_eq_true, Bool.not_eq_true', Scalar.lt_iff,
      Sense.Bounds]
    rw [lt_iff_le_and_ne]

/-- What is not better is no higher, or ties. -/
theorem better_eq_false_iff {a b : K} :
    better tolerance s.cutSide a b = false ↔ ties tolerance a b = true ∨ s.Bounds a b := by
  rw [← Bool.not_eq_true, better_iff]
  constructor
  · intro h
    by_contra hno
    rw [not_or, Bool.not_eq_true] at hno
    refine h ⟨hno.1, (s.bounds_total a b).resolve_left hno.2, ?_⟩
    rintro rfl
    exact hno.2 (s.bounds_refl a)
  · rintro (hties | hbounds) ⟨hno, hba, hne⟩
    · rw [hties] at hno
      cases hno
    · exact hne (hbounds.antisymm hba)

/-- A value that is better than the remembered one is strictly better than every value that the
remembered one was not beaten by. -/
theorem not_bounds_of_better {a b c : K} (h₀ : 0 ≤ tolerance) (h₁ : tolerance < 1)
    (hnew : better tolerance s.cutSide c b = true) (hold : better tolerance s.cutSide a b = false) :
    ¬ s.Bounds c a := by
  obtain ⟨hno, hbc, hne⟩ := better_iff.1 hnew
  intro hca
  rcases better_eq_false_iff.1 hold with hties | hab
  · rw [ties_of_between h₀ h₁ hbc hca hties] at hno
    cases hno
  · exact hne ((hca.trans hab).antisymm hbc)

/-- What a remembered value was not beaten by does not beat its successor either. -/
theorem unbeaten_of_better {a b c : K} (h₀ : 0 ≤ tolerance)
    (hnew : better tolerance s.cutSide c b = true) (hold : better tolerance s.cutSide a b = false) :
    better tolerance s.cutSide a c = false := by
  obtain ⟨hno, hbc, -⟩ := better_iff.1 hnew
  refine better_eq_false_iff.2 ?_
  rcases s.bounds_total a c with hac | hca
  · exact Or.inr hac
  · rcases better_eq_false_iff.1 hold with hties | hab
    · refine Or.inl ((ties_split h₀ hbc hca hties).resolve_left ?_)
      simp [hno]
    · exact Or.inr (hab.trans hbc)

/-! ## The best of several values -/

theorem bestOf_eq_some {v : K} {values : List K} :
    bestOf s.cutSide values = some v ↔ v ∈ values ∧ ∀ w ∈ values, s.Bounds w v := by
  have hfold : ∀ (ws : List K) (a : K), ∃ b, bestOf s.cutSide (a :: ws) = some b ∧
      b ∈ a :: ws ∧ ∀ w ∈ a :: ws, s.Bounds w b := by
    intro ws
    induction ws with
    | nil => exact fun a => ⟨a, rfl, by simp, by simpa using s.bounds_refl a⟩
    | cons w ws ih =>
      intro a
      -- The fold goes on from the better one of the first two.
      obtain ⟨m, hm, ham, hwm, hstep⟩ : ∃ m, (m = a ∨ m = w) ∧ s.Bounds a m ∧ s.Bounds w m ∧
          bestOf s.cutSide (a :: w :: ws) = bestOf s.cutSide (m :: ws) := by
        cases s
        · exact ⟨max a w, max_choice a w, le_max_left a w, le_max_right a w, by
            simp [bestOf, Sense.cutSide]⟩
        · exact ⟨min a w, min_choice a w, min_le_left a w, min_le_right a w, by
            simp [bestOf, Sense.cutSide]⟩
      obtain ⟨b, hb, hmem, hbest⟩ := ih m
      refine ⟨b, hstep.trans hb, ?_, ?_⟩
      · rcases List.mem_cons.1 hmem with rfl | hmem
        · rcases hm with rfl | rfl <;> simp
        · simp [hmem]
      · simp only [List.mem_cons, forall_eq_or_imp] at hbest ⊢
        exact ⟨ham.trans hbest.1, hwm.trans hbest.1, hbest.2⟩
  cases values with
  | nil => simp [bestOf]
  | cons a ws =>
    obtain ⟨b, hb, hmem, hbest⟩ := hfold ws a
    rw [hb, Option.some.injEq]
    constructor
    · rintro rfl
      exact ⟨hmem, hbest⟩
    · rintro ⟨hv, hall⟩
      exact (hall b hmem).antisymm (hbest v hv)

/-! ## Ranked pools -/

/-- No cut of the list says more than `c` about the cost-to-go at a state. -/
def IsBinding (s : Sense) (cuts : List (Cut K)) (state : List K) (c : Cut K) : Prop :=
  ∀ d ∈ cuts, s.Bounds (d.evaluate state) (c.evaluate state)

theorem IsBinding.mono {cuts more : List (Cut K)} {state : List K} {c : Cut K}
    (h : IsBinding s more state c) (hsub : cuts ⊆ more) : IsBinding s cuts state c :=
  fun d hd => h d (hsub hd)

/-- Among stored cuts one is binding. -/
theorem exists_isBinding (s : Sense) {cuts : List (Cut K)} (h : cuts ≠ []) (state : List K) :
    ∃ c ∈ cuts, IsBinding s cuts state c := by
  induction cuts with
  | nil => exact absurd rfl h
  | cons c cuts ih =>
    by_cases hcuts : cuts = []
    · subst hcuts
      exact ⟨c, by simp, by simpa [IsBinding] using s.bounds_refl _⟩
    · obtain ⟨b, hb, hbind⟩ := ih hcuts
      rcases s.bounds_total (c.evaluate state) (b.evaluate state) with hcb | hbc
      · exact ⟨b, by simp [hb], List.forall_mem_cons.2 ⟨hcb, hbind⟩⟩
      · exact ⟨c, by simp, List.forall_mem_cons.2 ⟨s.bounds_refl _,
          fun d hd => (hbind d hd).trans hbc⟩⟩

/-- What a pool knows about its cuts at a tracked state. -/
structure IsRanked (s : Sense) (tolerance : K) (cuts : List (Cut K)) (t : Tracked K) : Prop where
  /-- The remembered value is the value of a cut. -/
  attained : ∃ c ∈ cuts, c.evaluate t.state = t.value
  /-- No cut is better than the remembered value. -/
  unbeaten : ∀ c ∈ cuts, better tolerance s.cutSide (c.evaluate t.state) t.value = false
  /-- The binding cuts are among the best. -/
  binding : ∀ i c, cuts[i]? = some c → IsBinding s cuts t.state c → i ∈ t.best

omit [ExactNumeral K] in
theorem getElem?_concat_eq_some {c d : Cut K} {cuts : List (Cut K)} {i : ℕ}
    (h : (cuts ++ [c])[i]? = some d) : cuts[i]? = some d ∨ i = cuts.length ∧ d = c := by
  rcases lt_or_ge i cuts.length with hi | hi
  · rw [List.getElem?_append_left hi] at h
    exact Or.inl h
  · rw [List.getElem?_append_right hi, List.getElem?_singleton] at h
    split_ifs at h with hzero
    exact Or.inr ⟨by omega, (Option.some.inj h).symm⟩

/-- What a pool remembers of the values at a tracked state. -/
structure IsReference (s : Sense) (tolerance : K) (cuts : List (Cut K)) (t : Tracked K) : Prop where
  attained : ∃ c ∈ cuts, c.evaluate t.state = t.value
  unbeaten : ∀ c ∈ cuts, better tolerance s.cutSide (c.evaluate t.state) t.value = false

/-- A new cut at the end takes over the remembered value if it is better, whatever the tolerance. -/
theorem IsReference.ranked {cuts : List (Cut K)} {t : Tracked K} {c : Cut K} (h₀ : 0 ≤ tolerance)
    (h : IsReference s tolerance cuts t) (hc : c.side = s.cutSide) :
    IsReference s tolerance (cuts ++ [c]) (ranked tolerance cuts.length c t) := by
  obtain ⟨b, hb, hvalue⟩ := h.attained
  have hstays : better tolerance s.cutSide (c.evaluate t.state) t.value = false →
      ∀ d ∈ cuts ++ [c], better tolerance s.cutSide (d.evaluate t.state) t.value = false := by
    rw [List.forall_mem_append, List.forall_mem_singleton]
    exact fun hworse => ⟨h.unbeaten, hworse⟩
  unfold CutPool.ranked challenge
  rw [hc]
  dsimp only
  split_ifs with hbetter hties
  · refine ⟨⟨c, by simp, rfl⟩, List.forall_mem_append.2 ⟨fun d hd => ?_, ?_⟩⟩
    · exact unbeaten_of_better h₀ hbetter (h.unbeaten d hd)
    · exact List.forall_mem_singleton.2 (better_eq_false_iff.2 (Or.inr (s.bounds_refl _)))
  · exact ⟨⟨b, by simp [hb], hvalue⟩, hstays (by simpa using hbetter)⟩
  · exact ⟨⟨b, by simp [hb], hvalue⟩, hstays (by simpa using hbetter)⟩

/-- The remembered value ties with the one of a binding cut. -/
theorem IsReference.ties_of_isBinding {cuts : List (Cut K)} {t : Tracked K} {b : Cut K}
    (h₀ : 0 ≤ tolerance) (h : IsReference s tolerance cuts t) (hb : b ∈ cuts)
    (hbind : IsBinding s cuts t.state b) : ties tolerance (b.evaluate t.state) t.value = true := by
  obtain ⟨c, hc, hvalue⟩ := h.attained
  rcases better_eq_false_iff.1 (h.unbeaten b hb) with hties | hbelow
  · exact hties
  · rw [hbelow.antisymm (hvalue ▸ hbind c hc)]
    exact ties_refl h₀ _

/-- A new cut at the end leaves a tracked state ranked. -/
theorem IsRanked.ranked {cuts : List (Cut K)} {t : Tracked K} {c : Cut K} (h₀ : 0 ≤ tolerance)
    (h₁ : tolerance < 1) (h : IsRanked s tolerance cuts t) (hc : c.side = s.cutSide) :
    IsRanked s tolerance (cuts ++ [c]) (ranked tolerance cuts.length c t) := by
  have hold : IsReference s tolerance cuts t := ⟨h.attained, h.unbeaten⟩
  have hnew := hold.ranked h₀ hc
  refine ⟨hnew.attained, hnew.unbeaten, fun i d hi hbind => ?_⟩
  rw [state_ranked] at hbind
  unfold CutPool.ranked challenge
  rw [hc]
  dsimp only
  rcases getElem?_concat_eq_some hi with hi | ⟨rfl, rfl⟩
  · have hbest := h.binding i d hi (hbind.mono (List.subset_append_left _ _))
    split_ifs with hbetter hties
    · -- The newcomer is strictly better than all cuts.
      exact absurd (hbind c (by simp))
        (not_bounds_of_better h₀ h₁ hbetter (h.unbeaten d (List.mem_of_getElem? hi)))
    · exact List.mem_append_left _ hbest
    · exact hbest
  · split_ifs with hbetter hties
    · simp
    · simp
    · -- A newcomer that binds is no worse than the cut that attains the remembered value.
      obtain ⟨b, hb, hvalue⟩ := h.attained
      have hbelow := (better_eq_false_iff.1 (by simpa using hbetter)).resolve_left hties
      have habove : s.Bounds t.value (d.evaluate t.state) :=
        hvalue ▸ hbind b (List.mem_append_left _ hb)
      rw [hbelow.antisymm habove] at hties
      exact absurd (ties_refl h₀ t.value) hties

theorem mem_tyingAt {best : K} {values : List K} {i : ℕ} :
    i ∈ tyingAt tolerance best values ↔ ∃ v, values[i]? = some v ∧ ties tolerance v best = true := by
  rw [tyingAt, List.mem_filter, List.mem_range]
  cases hv : values[i]? with
  | none => simp
  | some v => simpa using fun _ => (List.getElem?_eq_some_iff.1 hv).1

theorem isReference_bestOf {cuts : List (Cut K)} {state : List K} {v : K} {best : List ℕ}
    (hv : bestOf s.cutSide (cuts.map fun c => c.evaluate state) = some v) :
    IsReference s tolerance cuts ⟨state, v, best⟩ := by
  obtain ⟨hmem, hbest⟩ := bestOf_eq_some.1 hv
  obtain ⟨b, hb, hvalue⟩ := List.mem_map.1 hmem
  rw [List.forall_mem_map] at hbest
  exact ⟨⟨b, hb, hvalue⟩, fun c hc => better_eq_false_iff.2 (Or.inr (hbest c hc))⟩

/-- A state that is newly tracked is ranked. -/
theorem isRanked_tyingAt {cuts : List (Cut K)} {state : List K} {v : K} (h₀ : 0 ≤ tolerance)
    (hv : bestOf s.cutSide (cuts.map fun c => c.evaluate state) = some v) :
    IsRanked s tolerance cuts
      ⟨state, v, tyingAt tolerance v (cuts.map fun c => c.evaluate state)⟩ := by
  have href : IsReference s tolerance cuts
      ⟨state, v, tyingAt tolerance v (cuts.map fun c => c.evaluate state)⟩ := isReference_bestOf hv
  refine ⟨href.attained, href.unbeaten, fun i c hi hbind => ?_⟩
  exact mem_tyingAt.2 ⟨c.evaluate state, by simp [hi],
    href.ties_of_isBinding h₀ (List.mem_of_getElem? hi) hbind⟩

/-! ## Facts about tracked states -/

/-- The cuts of a pool are on one side, and something holds of them at each tracked state. -/
def Tracks (s : Sense) (Q : List (Cut K) → Tracked K → Prop) (p : CutPool K) : Prop :=
  (∀ c ∈ p.cuts, c.side = s.cutSide) ∧ ∀ t ∈ p.tracked, Q p.cuts t

/-- What holds of a state when it is newly tracked and is kept when a cut competes there. -/
structure IsKept (s : Sense) (tolerance : K) (Q : List (Cut K) → Tracked K → Prop) : Prop where
  starts : ∀ cuts state v, bestOf s.cutSide (cuts.map fun c => c.evaluate state) = some v →
    Q cuts ⟨state, v, tyingAt tolerance v (cuts.map fun c => c.evaluate state)⟩
  grows : ∀ cuts t c, Q cuts t → c.side = s.cutSide →
    Q (cuts ++ [c]) (ranked tolerance cuts.length c t)

section Kept

variable {Q : List (Cut K) → Tracked K → Prop} {p q : CutPool K} {c : Cut K} {new : Bool}

theorem Tracks.addCompeting (hQ : IsKept s tolerance Q) (h : Tracks s Q p)
    (hc : c.side = s.cutSide) : Tracks s Q (p.addCompeting tolerance c) := by
  rw [Tracks, cuts_addCompeting, tracked_addCompeting, List.forall_mem_append,
    List.forall_mem_singleton, List.forall_mem_map]
  exact ⟨⟨h.1, hc⟩, fun t ht => hQ.grows _ t c (h.2 t ht) hc⟩

theorem Tracks.track (hQ : IsKept s tolerance Q) (h : Tracks s Q p) (state : List K) :
    Tracks s Q (p.track tolerance state) := by
  unfold CutPool.track
  dsimp only
  split
  · exact h
  · next v hv =>
    obtain ⟨c, hhead, hv⟩ := Option.bind_eq_some_iff.1 hv
    rw [h.1 c (List.mem_of_mem_head? hhead)] at hv
    refine ⟨h.1, ?_⟩
    rw [List.forall_mem_append, List.forall_mem_singleton]
    exact ⟨h.2, hQ.starts _ _ _ hv⟩

theorem Tracks.storeAt {state : Option (List K)} (hQ : IsKept s tolerance Q) (h : Tracks s Q p)
    (hselection : p.selection = .levelOne tolerance) (hc : c.side = s.cutSide)
    (hstore : p.storeAt c state = .ok (new, q)) : Tracks s Q q := by
  obtain ⟨r, grown, hcheck, hgrown, rfl⟩ := storeAt_levelOne hselection hstore
  have hr : Tracks s Q r := by
    simp only [CutPool.checkCut] at hcheck
    split_ifs at hcheck
    obtain rfl := Except.ok.inj hcheck
    exact h
  have htracks : Tracks s Q grown := by
    rw [hgrown]
    split_ifs
    · exact hr
    · exact hr.addCompeting hQ hc
  cases state with
  | none => exact htracks
  | some x => exact htracks.track hQ x

end Kept

/-- The cuts of a pool are on one side, and it ranks them at its tracked states. -/
def IsRanking (s : Sense) (tolerance : K) (p : CutPool K) : Prop :=
  (∀ c ∈ p.cuts, c.side = s.cutSide) ∧ ∀ t ∈ p.tracked, IsRanked s tolerance p.cuts t

theorem isKept_isRanked (h₀ : 0 ≤ tolerance) (h₁ : tolerance < 1) :
    IsKept s tolerance (IsRanked s tolerance) :=
  ⟨fun _ _ _ hv => isRanked_tyingAt h₀ hv, fun _ _ _ h hc => h.ranked h₀ h₁ hc⟩

/-- A pool that keeps its books in order and ranks its cuts. -/
structure Ranks (s : Sense) (tolerance : K) (p : CutPool K) : Prop extends IsOrderly tolerance p where
  ranking : IsRanking s tolerance p

theorem ranks_empty (dimension : Option ℕ) : Ranks s tolerance (empty (.levelOne tolerance) dimension) :=
  ⟨isOrderly_empty dimension, by simp [empty], by simp [empty]⟩

/-! ## Histories -/

/-- Stores cuts one after the other, some of them with the state at which they were generated. -/
def storeAll (p : CutPool K) (items : List (Cut K × Option (Datum K))) :
    Except (Fault K) (CutPool K) :=
  items.foldlM (fun p item => (p.store item.1 item.2).map Prod.snd) p

/-- A pool that stores cuts of one side keeps its books in order, tracks what it tracked and every
state that is given, and keeps what is kept about them. -/
theorem Tracks.storeAll {Q : List (Cut K) → Tracked K → Prop} (hQ : IsKept s tolerance Q)
    {items : List (Cut K × Option (Datum K))} {p q : CutPool K} (horderly : p.IsOrderly tolerance)
    (h : Tracks s Q p) (hside : ∀ item ∈ items, item.1.side = s.cutSide)
    (hstore : p.storeAll items = .ok q) :
    q.IsOrderly tolerance ∧ Tracks s Q q ∧
      (∀ x ∈ p.tracked.map Tracked.state, x ∈ q.tracked.map Tracked.state) ∧
      ∀ item ∈ items, ∀ d, item.2 = some d → ∃ x ∈ q.tracked.map Tracked.state, d.entries = .ok x := by
  induction items generalizing p with
  | nil =>
    obtain rfl := Except.ok.inj hstore
    exact ⟨horderly, h, fun _ hx => hx, by simp⟩
  | cons item items ih =>
    rw [List.forall_mem_cons] at hside
    obtain ⟨r, hr, hrest⟩ := exceptBind_eq_ok.1 hstore
    obtain ⟨⟨new, r'⟩, hitem, hsnd⟩ : ∃ a, p.store item.1 item.2 = .ok a ∧ a.2 = r := by
      cases hitem : p.store item.1 item.2 <;> simp_all [Except.map]
    obtain rfl : r' = r := hsnd
    obtain ⟨horderly', -, read, hread, hstates⟩ := horderly.store hitem
    obtain ⟨given, hstored⟩ := exists_storeAt hitem
    obtain ⟨hq, htracks, hkept, hgiven⟩ :=
      ih horderly' (h.storeAt hQ horderly.selection hside.1 hstored) hside.2 hrest
    refine ⟨hq, htracks, fun x hx => hkept x (by rw [hstates]; exact List.mem_append_left _ hx), ?_⟩
    rw [List.forall_mem_cons]
    refine ⟨fun d hd => ?_, hgiven⟩
    cases read with
    | none => simp [hd] at hread
    | some x => exact ⟨x, hkept x (by simp [hstates]), by simpa [hd] using hread⟩

theorem Ranks.storeAll {items : List (Cut K × Option (Datum K))} {p q : CutPool K}
    (h₀ : 0 ≤ tolerance) (h₁ : tolerance < 1) (h : Ranks s tolerance p)
    (hside : ∀ item ∈ items, item.1.side = s.cutSide) (hstore : p.storeAll items = .ok q) :
    Ranks s tolerance q ∧ (∀ x ∈ p.tracked.map Tracked.state, x ∈ q.tracked.map Tracked.state) ∧
      ∀ item ∈ items, ∀ d, item.2 = some d → ∃ x ∈ q.tracked.map Tracked.state, d.entries = .ok x := by
  obtain ⟨horderly, hranking, hstates⟩ :=
    Tracks.storeAll (isKept_isRanked h₀ h₁) h.toIsOrderly h.ranking hside hstore
  exact ⟨⟨horderly, hranking⟩, hstates⟩

/-! ## Active cuts -/

omit [ExactNumeral K] in
theorem mem_activePositions {p : CutPool K} {i : ℕ} :
    i ∈ p.activePositions ↔ i < p.size ∧ (p.isSelective = false ∨ p.isBest i = true) := by
  simp [activePositions]

omit [ExactNumeral K] in
theorem mem_active {p : CutPool K} {c : Cut K} :
    c ∈ p.active ↔ ∃ i ∈ p.activePositions, p.cuts[i]? = some c := by
  rw [active, List.mem_filterMap]

omit [ExactNumeral K] in
/-- The active cuts are those that are best at some tracked state. -/
theorem IsCounted.isBest_iff {p : CutPool K} (h : p.IsCounted) {i : ℕ} (hi : i < p.size) :
    p.isBest i = true ↔ ∃ t ∈ p.tracked, i ∈ t.best := by
  rw [isBest, h.counts, List.getElem?_map, List.getElem?_range hi, ← wins_pos]
  simp

theorem Ranks.mem_active_of_isBinding {p : CutPool K} (h : Ranks s tolerance p) {t : Tracked K}
    (ht : t ∈ p.tracked) {c : Cut K} (hc : c ∈ p.cuts) (hbind : IsBinding s p.cuts t.state c) :
    c ∈ p.active := by
  obtain ⟨i, hi⟩ := List.mem_iff_getElem?.1 hc
  have hlt : i < p.size := (List.getElem?_eq_some_iff.1 hi).1
  have hbest : i ∈ t.best := (h.ranking.2 t ht).binding i c hi hbind
  exact mem_active.2 ⟨i, mem_activePositions.2 ⟨hlt, Or.inr ((h.isBest_iff hlt).2 ⟨t, ht, hbest⟩)⟩, hi⟩

/-- At a tracked state the active cuts say as much as all of them. -/
theorem Ranks.bestOf_active {p : CutPool K} (h : Ranks s tolerance p) {t : Tracked K}
    (ht : t ∈ p.tracked) :
    bestOf s.cutSide (p.active.map fun c => c.evaluate t.state) =
      bestOf s.cutSide (p.cuts.map fun c => c.evaluate t.state) := by
  obtain ⟨b, hb, -⟩ := (h.ranking.2 t ht).attained
  obtain ⟨c, hc, hbind⟩ := exists_isBinding s (List.ne_nil_of_mem hb) t.state
  have hall : bestOf s.cutSide (p.cuts.map fun c => c.evaluate t.state) =
      some (c.evaluate t.state) :=
    bestOf_eq_some.2 ⟨List.mem_map_of_mem hc, List.forall_mem_map.2 hbind⟩
  rw [hall, bestOf_eq_some]
  exact ⟨List.mem_map_of_mem (h.mem_active_of_isBinding ht hc hbind),
    List.forall_mem_map.2 fun d hd => hbind d (mem_of_active hd)⟩

theorem Ranks.active_ne_nil {p : CutPool K} (h : Ranks s tolerance p) (hcuts : p.cuts ≠ []) :
    p.active ≠ [] := by
  cases htracked : p.tracked with
  | nil =>
    have hall : p.isSelective = false := by simp [isSelective, htracked]
    obtain ⟨c, cs, hp⟩ := List.exists_cons_of_ne_nil hcuts
    have hzero : 0 ∈ p.activePositions := mem_activePositions.2 ⟨by simp [size, hp], Or.inl hall⟩
    exact List.ne_nil_of_mem (mem_active.2 ⟨0, hzero, by simp [hp]⟩ : c ∈ p.active)
  | cons t ts =>
    obtain ⟨c, hc, hbind⟩ := exists_isBinding s hcuts t.state
    exact List.ne_nil_of_mem (h.mem_active_of_isBinding (by simp [htracked]) hc hbind)

/-- Retiring cuts loses nothing at the states at which cuts were generated: whatever cuts of one side
a pool has stored, every state that came with one of them is tracked, and at a tracked state each cut
that attains the best value of all stored ones is active. So the best value is not changed there, and
a pool that stores a cut has an active one. -/
theorem pruning_is_lossless (h₀ : 0 ≤ tolerance) (h₁ : tolerance < 1) {dimension : Option ℕ}
    {items : List (Cut K × Option (Datum K))} (hside : ∀ item ∈ items, item.1.side = s.cutSide)
    {p : CutPool K} (hstore : (empty (.levelOne tolerance) dimension).storeAll items = .ok p) :
    (∀ item ∈ items, ∀ d, item.2 = some d → ∃ t ∈ p.tracked, d.entries = .ok t.state) ∧
    (∀ t ∈ p.tracked, ∀ c ∈ p.cuts, IsBinding s p.cuts t.state c → c ∈ p.active) ∧
    (∀ t ∈ p.tracked, bestOf s.cutSide (p.active.map fun c => c.evaluate t.state) =
      bestOf s.cutSide (p.cuts.map fun c => c.evaluate t.state)) ∧
    (p.cuts ≠ [] → p.active ≠ []) := by
  obtain ⟨hranks, -, hgiven⟩ := (ranks_empty dimension).storeAll h₀ h₁ hside hstore
  refine ⟨fun item hitem d hd => ?_, fun t ht c hc => hranks.mem_active_of_isBinding ht hc,
    fun t ht => hranks.bestOf_active ht, hranks.active_ne_nil⟩
  obtain ⟨x, hx, hentries⟩ := hgiven item hitem d hd
  obtain ⟨t, ht, rfl⟩ := List.mem_map.1 hx
  exact ⟨t, ht, hentries⟩

end Exact

/-! ## A newcomer behind a tie -/

/-- Three rising lower bounds at one state. With a tolerance of one tenth the second one ties with the
first one and the third one with the second one, but not with the first one. -/
def rising : List (Cut ℚ × Option (Datum ℚ)) :=
  [(⟨100, [1], .atLeast, none, none, none⟩, some (.list [.real 0])),
    (⟨105, [0], .atLeast, none, none, none⟩, none),
    (⟨112, [-1], .atLeast, none, none, none⟩, none)]

/-- Rising bounds: the pool tracks the state of the first one and the best bound there stays. -/
theorem pruning_is_lossless_rising :
    ((0 : ℚ) ≤ 1 / 10 ∧ (1 / 10 : ℚ) < 1 ∧
      ∀ item ∈ rising, item.1.side = Sense.minimize.cutSide) ∧
    ∃ p, (empty (.levelOne (1 / 10)) none).storeAll rising = .ok p ∧
      (∃ t ∈ p.tracked, (Datum.list [.real (0 : ℚ)]).entries = .ok t.state ∧
        bestOf .atLeast (p.active.map fun c => c.evaluate t.state) =
          bestOf .atLeast (p.cuts.map fun c => c.evaluate t.state)) := by
  have hlow : (0 : ℚ) ≤ 1 / 10 := by norm_num
  have hhigh : (1 / 10 : ℚ) < 1 := by norm_num
  have hside : ∀ item ∈ rising, item.1.side = Sense.minimize.cutSide := by decide
  refine ⟨⟨hlow, hhigh, hside⟩, ?_⟩
  have hsucceeds : ((empty (.levelOne (1 / 10)) none).storeAll rising).toOption.isSome = true := by
    decide +kernel
  cases hstore : (empty (.levelOne (1 / 10)) none).storeAll rising with
  | error e =>
    rw [hstore] at hsucceeds
    cases hsucceeds
  | ok p =>
    obtain ⟨hgiven, -, hbest, -⟩ := pruning_is_lossless hlow hhigh hside hstore
    obtain ⟨t, ht, hstate⟩ := hgiven (rising.head (by decide)) (by simp [rising]) _ rfl
    exact ⟨p, rfl, t, ht, hstate, hbest t ht⟩

end CutPool

end DualDynamic
