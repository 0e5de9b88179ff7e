import DualDynamic.Proofs.CutPool.Selection

/-!
# Activity within a tolerance

A pool that selects by dominance is meant to keep a cut active if its value ties with the best one at
a tracked state (`FollowsRule`). What it keeps are cuts that tie with the value it remembers. This
value may lag behind the best one by a tie, since a cut that ties joins without raising it, and the
cut that takes over at last retires those that tie with it.

So an active cut is two ties away from the best one at most, and the rule holds wherever ties
compose. They do so for all values with a tolerance of zero, where only equal values tie, and with a
tolerance of two or more, where all values do. With any other tolerance three cuts that arrive in the
order of their values break the rule (`followsRule_iff`).
-/

namespace DualDynamic

namespace CutPool

variable {K : Type} [ExactNumeral K] {s : Sense} {tolerance : K}

/-! ## The rule -/

/-- The active cuts are those that are within the tolerance of the best one at a tracked state. -/
def FollowsRule (s : Sense) (tolerance : K) (p : CutPool K) : Prop :=
  ∀ c ∈ p.cuts, c ∈ p.active ↔ ∃ t ∈ p.tracked, ∃ b ∈ p.cuts, IsBinding s p.cuts t.state b ∧
    |c.evaluate t.state - b.evaluate t.state| ≤
      tolerance * max (max 1 |c.evaluate t.state|) |b.evaluate t.state|

/-- Among the values of cuts at a state, a tie with a tie is a tie. -/
def TiesCompose (tolerance : K) (cuts : List (Cut K)) (state : List K) : Prop :=
  ∀ a ∈ cuts, ∀ b ∈ cuts, ∀ c ∈ cuts, ties tolerance (a.evaluate state) (b.evaluate state) = true →
    ties tolerance (b.evaluate state) (c.evaluate state) = true →
    ties tolerance (a.evaluate state) (c.evaluate state) = true

theorem TiesCompose.mono {cuts more : List (Cut K)} {state : List K}
    (h : TiesCompose tolerance more state) (hsub : cuts ⊆ more) :
    TiesCompose tolerance cuts state :=
  fun a ha b hb c hc => h a (hsub ha) b (hsub hb) c (hsub hc)

theorem ties_zero {a b : K} : ties 0 a b = true ↔ a = b := by
  rw [ties_iff, zero_mul, abs_nonpos_iff, sub_eq_zero]

/-- No two values are further apart than twice the larger size. -/
theorem ties_of_two_le (h : 2 ≤ tolerance) (a b : K) : ties tolerance a b = true := by
  rw [ties_iff]
  set scale := max (max 1 |a|) |b|
  have ha : |a| ≤ scale := le_max_of_le_left (le_max_right _ _)
  have hb : |b| ≤ scale := le_max_right _ _
  have hscale : 0 ≤ scale := (abs_nonneg b).trans hb
  calc |a - b| ≤ |a| + |b| := abs_sub a b
    _ ≤ 2 * scale := by linarith
    _ ≤ tolerance * scale := mul_le_mul_of_nonneg_right h hscale

theorem tiesCompose_of_extreme (h : tolerance = 0 ∨ 2 ≤ tolerance) (cuts : List (Cut K))
    (state : List K) : TiesCompose tolerance cuts state := by
  rintro a - b - c - hab hbc
  rcases h with rfl | h
  · rw [ties_zero] at *
    exact hab.trans hbc
  · exact ties_of_two_le h _ _

/-! ## What is remembered and what ties with it -/

/-- What a pool knows at a tracked state, whatever the tolerance: the best cuts tie with the
remembered value, and where ties compose they are all that do. -/
structure IsTied (s : Sense) (tolerance : K) (cuts : List (Cut K)) (t : Tracked K) : Prop
    extends IsReference s tolerance cuts t where
  ties : ∀ i ∈ t.best, ∃ c, cuts[i]? = some c ∧
    CutPool.ties tolerance (c.evaluate t.state) t.value = true
  complete : TiesCompose tolerance cuts t.state → ∀ i c, cuts[i]? = some c →
    CutPool.ties tolerance (c.evaluate t.state) t.value = true → i ∈ t.best

/-- Where ties compose, no cut ties with a newcomer that is better than the remembered value. -/
theorem IsTied.not_ties_of_better {cuts : List (Cut K)} {t : Tracked K} {c d : Cut K}
    (h₀ : 0 ≤ tolerance) (h : IsTied s tolerance cuts t)
    (hcompose : TiesCompose tolerance (cuts ++ [c]) t.state) (hd : d ∈ cuts)
    (hbetter : better tolerance s.cutSide (c.evaluate t.state) t.value = true) :
    CutPool.ties tolerance (d.evaluate t.state) (c.evaluate t.state) = false := by
  obtain ⟨hno, hbelow, -⟩ := better_iff.1 hbetter
  obtain ⟨b, hb, hvalue⟩ := h.attained
  rw [← Bool.not_eq_true]
  intro hdc
  have hdv : CutPool.ties tolerance (d.evaluate t.state) t.value = true := by
    rcases better_eq_false_iff.1 (h.unbeaten d hd) with hdv | hdv
    · exact hdv
    · rw [ties_comm] at hdc ⊢
      refine (ties_split h₀ hdv hbelow hdc).resolve_right ?_
      simp [hno]
  have hcv := hcompose c (by simp) d (by simp [hd]) b (by simp [hb]) (by rwa [ties_comm])
    (by rwa [hvalue])
  rw [hvalue, hno] at hcv
  cases hcv

theorem IsTied.ranked {cuts : List (Cut K)} {t : Tracked K} {c : Cut K} (h₀ : 0 ≤ tolerance)
    (h : IsTied s tolerance cuts t) (hc : c.side = s.cutSide) :
    IsTied s tolerance (cuts ++ [c]) (ranked tolerance cuts.length c t) := by
  have hold : ∀ i ∈ t.best, ∃ d, (cuts ++ [c])[i]? = some d ∧
      CutPool.ties tolerance (d.evaluate t.state) t.value = true := fun i hi => by
    obtain ⟨d, hd, hties⟩ := h.ties i hi
    exact ⟨d, by rw [List.getElem?_append_left (List.getElem?_eq_some_iff.1 hd).1, hd], hties⟩
  have hsub : cuts ⊆ cuts ++ [c] := List.subset_append_left _ _
  refine ⟨h.toIsReference.ranked h₀ hc, ?_, ?_⟩
  · unfold CutPool.ranked challenge
    dsimp only
    split_ifs with hbetter hties
    · simpa using ties_refl h₀ (c.evaluate t.state)
    · rw [List.forall_mem_append, List.forall_mem_singleton]
      exact ⟨hold, c, by simp, hties⟩
    · exact hold
  · rw [state_ranked]
    intro hcompose i d hi
    unfold CutPool.ranked challenge
    rw [hc]
    dsimp only
    rcases getElem?_concat_eq_some hi with hi | ⟨rfl, rfl⟩
    · have hcomplete := h.complete (hcompose.mono hsub) i d hi
      split_ifs with hbetter hties
      · intro hdc
        rw [h.not_ties_of_better h₀ hcompose (List.mem_of_getElem? hi) hbetter] at hdc
        cases hdc
      · exact fun hdv => List.mem_append_left _ (hcomplete hdv)
      · exact hcomplete
    · split_ifs with hbetter hties
      · simp
      · simp
      · exact fun hdv => absurd hdv hties

theorem isKept_isTied (h₀ : 0 ≤ tolerance) : IsKept s tolerance (IsTied s tolerance) where
  starts cuts state v hv := by
    refine ⟨isReference_bestOf hv, fun i hi => ?_, fun _ i c hi hties => ?_⟩
    · obtain ⟨w, hw, hties⟩ := mem_tyingAt.1 hi
      rw [List.getElem?_map, Option.map_eq_some_iff] at hw
      obtain ⟨c, hc, rfl⟩ := hw
      exact ⟨c, hc, hties⟩
    · exact mem_tyingAt.2 ⟨c.evaluate state, by simp [hi], hties⟩
  grows _ _ _ h hc := h.ranked h₀ hc

/-! ## Which cuts are active -/

omit [ExactNumeral K] in
/-- Once a state is tracked, the active cuts are those that are best somewhere. -/
theorem mem_active_iff_best {p : CutPool K} (h : p.IsCounted)
    (hselection : p.selection = .levelOne tolerance) (htracked : p.tracked ≠ []) {c : Cut K} :
    c ∈ p.active ↔ ∃ i, p.cuts[i]? = some c ∧ ∃ t ∈ p.tracked, i ∈ t.best := by
  have hselective : p.isSelective = true := by
    simp [isSelective, hselection, Selection.prunes, htracked]
  rw [mem_active]
  refine exists_congr fun i => ?_
  rw [mem_activePositions, and_comm]
  refine and_congr_right fun hi => ?_
  have hlt : i < p.size := (List.getElem?_eq_some_iff.1 hi).1
  simp [hlt, hselective, h.isBest_iff hlt]

section Stored

variable {p : CutPool K}

/-- An active cut ties with a cut that ties with the best one. -/
theorem exists_ties_of_active (h₀ : 0 ≤ tolerance) (h : p.IsOrderly tolerance)
    (hp : Tracks s (IsTied s tolerance) p) (htracked : p.tracked ≠ []) {c : Cut K}
    (hc : c ∈ p.active) : ∃ t ∈ p.tracked, ∃ d ∈ p.cuts, ∃ b ∈ p.cuts,
      IsBinding s p.cuts t.state b ∧
      ties tolerance (c.evaluate t.state) (d.evaluate t.state) = true ∧
      ties tolerance (d.evaluate t.state) (b.evaluate t.state) = true := by
  obtain ⟨i, hi, t, ht, hbest⟩ := (mem_active_iff_best h.toIsCounted h.selection htracked).1 hc
  have htied := hp.2 t ht
  obtain ⟨d, hd, hvalue⟩ := htied.attained
  obtain ⟨c', hc', hties⟩ := htied.ties i hbest
  obtain rfl := Option.some.inj (hi.symm.trans hc')
  obtain ⟨b, hb, hbind⟩ := exists_isBinding s (List.ne_nil_of_mem hd) t.state
  refine ⟨t, ht, d, hd, b, hb, hbind, by rwa [hvalue], ?_⟩
  rw [hvalue, ties_comm]
  exact htied.ties_of_isBinding h₀ hb hbind

/-- Where ties compose the rule holds. -/
theorem followsRule_of_tiesCompose (h₀ : 0 ≤ tolerance) (h : p.IsOrderly tolerance)
    (hp : Tracks s (IsTied s tolerance) p) (htracked : p.tracked ≠ [])
    (hcompose : ∀ t ∈ p.tracked, TiesCompose tolerance p.cuts t.state) :
    FollowsRule s tolerance p := by
  refine fun c hc => ⟨fun hactive => ?_, fun ⟨t, ht, b, hb, hbind, hties⟩ => ?_⟩
  · obtain ⟨t, ht, d, hd, b, hb, hbind, hcd, hdb⟩ :=
      exists_ties_of_active h₀ h hp htracked hactive
    exact ⟨t, ht, b, hb, hbind, ties_iff.1 (hcompose t ht c hc d hd b hb hcd hdb)⟩
  · have htied := hp.2 t ht
    obtain ⟨d, hd, hvalue⟩ := htied.attained
    have hbd := htied.ties_of_isBinding h₀ hb hbind
    rw [← hvalue] at hbd
    have hcd := hcompose t ht c hc b hb d hd (ties_iff.2 hties) hbd
    obtain ⟨i, hi⟩ := List.mem_iff_getElem?.1 hc
    exact (mem_active_iff_best h.toIsCounted h.selection htracked).2
      ⟨i, hi, t, ht, htied.complete (hcompose t ht) i c hi (hvalue ▸ hcd)⟩

end Stored

/-! ## A run that breaks the rule -/

/-- A constant bound on the cost-to-go with one state variable. -/
def flat (s : Sense) (value : K) : Cut K := ⟨s.unit * value, [0], s.cutSide, none, none, none⟩

@[simp] theorem evaluate_flat (value : K) : (flat s value).evaluate [0] = s.unit * value := by
  simp [flat, Cut.evaluate]

@[simp] theorem dimension_flat (value : K) : (flat s value).dimension = 1 := rfl

@[simp] theorem side_flat (value : K) : (flat s value).side = s.cutSide := rfl

theorem same_flat {a b : K} (h : a ≠ b) : (flat s a).same (flat s b) = false := by
  simp [flat, Cut.same, s.unit_ne_zero, h]

/-- Three bounds at one state, each better than the one before if the values rise. -/
def steps (s : Sense) (a b c : K) : List (Cut K × Option (Datum K)) :=
  [(flat s a, some (.list [.real 0])), (flat s b, none), (flat s c, none)]

theorem ties_unit (a b : K) :
    ties tolerance (s.unit * a) (s.unit * b) = ties tolerance a b := by
  rw [Bool.eq_iff_iff, ties_iff, ties_iff, ← mul_sub]
  cases s <;> simp [abs_sub_comm b a]

theorem bounds_unit {a b : K} : s.Bounds (s.unit * a) (s.unit * b) ↔ a ≤ b := by
  cases s <;> simp [Sense.Bounds]

/-- The pool after the first of the steps: it tracks the state. -/
def firstStep (s : Sense) (tolerance a : K) : CutPool K :=
  { selection := .levelOne tolerance, dimension := some 1, cuts := [flat s a], counts := [1],
    tracked := [⟨[0], s.unit * a, [0]⟩] }

/-- The pool after the second step: the second bound has joined the first one. -/
def secondStep (s : Sense) (tolerance a b : K) : CutPool K :=
  { firstStep s tolerance a with
    cuts := [flat s a, flat s b], counts := [1, 1], tracked := [⟨[0], s.unit * a, [0, 1]⟩] }

/-- The pool after the third step: the third bound has taken the place of both. -/
def thirdStep (s : Sense) (tolerance a b c : K) : CutPool K :=
  { firstStep s tolerance a with
    cuts := [flat s a, flat s b, flat s c], counts := [0, 0, 1],
    tracked := [⟨[0], s.unit * c, [2]⟩] }

/-- A pool stores a new cut of its dimension. -/
theorem store_new {p : CutPool K} {c : Cut K} (hselection : p.selection = .levelOne tolerance)
    (hdimension : p.dimension = some c.dimension) (hnew : p.contains c = false) :
    p.store c none = .ok (true, p.addCompeting tolerance c) := by
  have hcheck : p.checkCut c = .ok p := by
    simp only [checkCut, hdimension, Option.getD_some, beq_self_eq_true, if_true]
    rw [← hdimension]
  have hstore : p.store c none = p.storeAt c none := rfl
  simp only [hstore, storeAt, hcheck, bind, Except.bind, hselection, hnew]
  rfl

section Steps

variable {a b c : K}

/-- The second bound ties with the first one and joins it, the third one does not and takes over. -/
theorem storeAll_steps (h₀ : 0 ≤ tolerance) (hab : a < b) (hbc : b < c)
    (hnear : ties tolerance b a = true) (hfar : ties tolerance c a = false) :
    (empty (.levelOne tolerance) none).storeAll (steps s a b c) =
      .ok (thirdStep s tolerance a b c) := by
  have hread : (Datum.list [Datum.real (0 : K)]).block = .ok ⟨[1], [0]⟩ := Datum.block_reals [0]
  have h₁ : (empty (.levelOne tolerance) none).store (flat s a) (some (.list [.real 0])) =
      .ok (true, firstStep s tolerance a) := by
    simp [store, readState, storeAt, checkCut, empty, contains, addCompeting, competeAt, track,
      bestOf, tyingAt, adjust, bind, Except.bind, pure, Except.pure, firstStep, hread,
      Selection.prunes, Except.mapError, ties_refl h₀]
  have h₂ : (firstStep s tolerance a).store (flat s b) none =
      .ok (true, secondStep s tolerance a b) := by
    have hties : ties tolerance (s.unit * b) (s.unit * a) = true := by rwa [ties_unit]
    have hbetter : better tolerance s.cutSide (s.unit * b) (s.unit * a) = false :=
      better_eq_false_iff.2 (Or.inl hties)
    have hnew : (firstStep s tolerance a).contains (flat s b) = false := by
      simpa [contains, firstStep] using same_flat hab.ne'
    rw [store_new rfl rfl hnew]
    simp only [addCompeting, firstStep, competeAt, challenge, evaluate_flat, side_flat, hbetter,
      hties]
    rfl
  have h₃ : (secondStep s tolerance a b).store (flat s c) none =
      .ok (true, thirdStep s tolerance a b c) := by
    have hac := hab.trans hbc
    have hbetter : better tolerance s.cutSide (s.unit * c) (s.unit * a) = true :=
      better_iff.2 ⟨by rwa [ties_unit], bounds_unit.2 hac.le,
        fun h => hac.ne' (mul_left_cancel₀ s.unit_ne_zero h)⟩
    have hnew : (secondStep s tolerance a b).contains (flat s c) = false := by
      simp [contains, secondStep, firstStep, same_flat hac.ne', same_flat hbc.ne']
    rw [store_new rfl rfl hnew]
    simp only [addCompeting, secondStep, firstStep, competeAt, challenge, evaluate_flat, side_flat,
      hbetter]
    rfl
  simp only [storeAll, steps, List.foldlM_cons, List.foldlM_nil, h₁, h₂, h₃, Except.map, bind,
    Except.bind, pure, Except.pure]

/-- The second bound ties with the best one at the tracked state and is retired. -/
theorem not_followsRule_thirdStep (hab : a < b) (hbc : b < c) (hnear : ties tolerance b c = true) :
    ¬ FollowsRule s tolerance (thirdStep s tolerance a b c) := by
  intro hrule
  have hactive : (thirdStep s tolerance a b c).active = [flat s c] := rfl
  have hretired : flat s b ∉ (thirdStep s tolerance a b c).active := by
    rw [hactive, List.mem_singleton]
    simp [flat, s.unit_ne_zero, hbc.ne]
  refine hretired ((hrule (flat s b) (by simp [thirdStep])).2 ⟨⟨[0], s.unit * c, [2]⟩,
    by simp [thirdStep], flat s c, by simp [thirdStep], ?_, ?_⟩)
  · simp only [IsBinding, thirdStep, List.forall_mem_cons, evaluate_flat, bounds_unit]
    exact ⟨(hab.trans hbc).le, hbc.le, le_rfl, by simp⟩
  · rwa [← ties_iff, evaluate_flat, evaluate_flat, ties_unit]

end Steps

/-- Between zero and two there is a step that ties when made once, but not when made twice. -/
theorem exists_step (h₀ : 0 < tolerance) (h₂ : tolerance < 2) : ∃ u : K, 0 < u ∧
    ties tolerance 0 (-u) = true ∧ ties tolerance 0 u = true ∧ ties tolerance u (-u) = false := by
  obtain ⟨u, hu, hone, htolerance, htwice⟩ : ∃ u : K, 0 < u ∧ u ≤ 1 ∧ u ≤ tolerance ∧
      tolerance < 2 * u := by
    refine ⟨min tolerance 1, lt_min h₀ one_pos, min_le_right _ _, min_le_left _ _, ?_⟩
    rcases min_choice tolerance 1 with h | h <;> rw [h] <;> linarith
  have hscale : max (max 1 |u|) |u| = 1 := by
    rw [abs_of_pos hu, max_eq_left hone, max_eq_left hone]
  have hzero : max (max 1 |(0 : K)|) |u| = 1 := by
    rw [abs_zero, max_eq_left zero_le_one, abs_of_pos hu, max_eq_left hone]
  refine ⟨u, hu, ?_, ?_, ?_⟩
  · rw [ties_iff, abs_neg, hzero, zero_sub, neg_neg, abs_of_pos hu]
    linarith
  · rw [ties_iff, hzero, zero_sub, abs_neg, abs_of_pos hu]
    linarith
  · rw [← Bool.not_eq_true, ties_iff, abs_neg, hscale, sub_neg_eq_add, abs_of_pos (by linarith)]
    linarith

/-! ## When the rule holds -/

/-- A pool that selects by dominance follows its rule after every history exactly if the tolerance
is zero or at least two. With any tolerance it does so after a history in which ties compose among
the cuts at each tracked state; and every cut that is active ties with one that ties with the best
one at a tracked state. -/
theorem followsRule_iff (h₀ : 0 ≤ tolerance) :
    ((∀ (dimension : Option ℕ) (items : List (Cut K × Option (Datum K))) (p : CutPool K),
        (∀ item ∈ items, item.1.side = s.cutSide) →
        (empty (.levelOne tolerance) dimension).storeAll items = .ok p → p.tracked ≠ [] →
        FollowsRule s tolerance p) ↔ tolerance = 0 ∨ 2 ≤ tolerance) ∧
    ∀ (dimension : Option ℕ) (items : List (Cut K × Option (Datum K))) (p : CutPool K),
      (∀ item ∈ items, item.1.side = s.cutSide) →
      (empty (.levelOne tolerance) dimension).storeAll items = .ok p → p.tracked ≠ [] →
      ((∀ t ∈ p.tracked, TiesCompose tolerance p.cuts t.state) → FollowsRule s tolerance p) ∧
      ∀ c ∈ p.active, ∃ t ∈ p.tracked, ∃ d ∈ p.cuts, ∃ b ∈ p.cuts, IsBinding s p.cuts t.state b ∧
        ties tolerance (c.evaluate t.state) (d.evaluate t.state) = true ∧
        ties tolerance (d.evaluate t.state) (b.evaluate t.state) = true := by
  have hhistory : ∀ (dimension : Option ℕ) (items : List (Cut K × Option (Datum K)))
      (p : CutPool K), (∀ item ∈ items, item.1.side = s.cutSide) →
      (empty (.levelOne tolerance) dimension).storeAll items = .ok p →
      p.IsOrderly tolerance ∧ Tracks s (IsTied s tolerance) p := by
    intro dimension items p hside hstore
    obtain ⟨horderly, htied, -⟩ := Tracks.storeAll (isKept_isTied h₀) (isOrderly_empty dimension)
      ⟨by simp [empty], by simp [empty]⟩ hside hstore
    exact ⟨horderly, htied⟩
  refine ⟨⟨fun hall => ?_, fun hextreme dimension items p hside hstore htracked => ?_⟩,
    fun dimension items p hside hstore htracked => ?_⟩
  · by_contra hbetween
    rw [not_or, not_le] at hbetween
    obtain ⟨u, hu, hdown, hup, hfar⟩ :=
      exists_step (lt_of_le_of_ne h₀ (Ne.symm hbetween.1)) hbetween.2
    have hneg := neg_neg_of_pos hu
    exact not_followsRule_thirdStep hneg hu hup (hall none (steps s (-u) 0 u) _ (by simp [steps])
      (storeAll_steps h₀ hneg hu hdown hfar) (by simp [thirdStep]))
  · obtain ⟨horderly, htied⟩ := hhistory dimension items p hside hstore
    exact followsRule_of_tiesCompose h₀ horderly htied htracked fun t _ =>
      tiesCompose_of_extreme hextreme p.cuts t.state
  · obtain ⟨horderly, htied⟩ := hhistory dimension items p hside hstore
    exact ⟨followsRule_of_tiesCompose h₀ horderly htied htracked,
      fun c hc => exists_ties_of_active h₀ horderly htied htracked hc⟩

/-- With tolerance zero the rule holds after rising bounds. -/
theorem followsRule_rising :
    (0 : ℚ) ≤ 0 ∧ ∃ p, (empty (.levelOne 0) none).storeAll rising = .ok p ∧ p.tracked ≠ [] ∧
      FollowsRule .minimize 0 p := by
  have hside : ∀ item ∈ rising, item.1.side = Sense.minimize.cutSide := by decide
  refine ⟨le_rfl, ?_⟩
  have hsucceeds : ((empty (.levelOne 0) none).storeAll rising).toOption.any
      (fun p => !p.tracked.isEmpty) = true := by decide +kernel
  cases hstore : (empty (.levelOne 0) none).storeAll rising with
  | error e =>
    rw [hstore] at hsucceeds
    cases hsucceeds
  | ok p =>
    have htracked : p.tracked ≠ [] := by simpa [hstore, Except.toOption] using hsucceeds
    exact ⟨p, rfl, htracked,
      (followsRule_iff le_rfl).1.2 (Or.inl rfl) none rising p hside hstore htracked⟩

/-- Three lower bounds on a cost-to-go of about two billion, each higher by one and a half than the
one before. With the usual tolerance each ties with its neighbours, but the third one does not tie
with the first one. It retires the second one, which ties with it. -/
theorem not_followsRule_billions :
    let items : List (Cut ℚ × Option (Datum ℚ)) :=
      steps .minimize 2000000000 (4000000003 / 2) 2000000003
    (0 : ℚ) ≤ 1 / 1000000000 ∧ (∀ item ∈ items, item.1.side = Sense.minimize.cutSide) ∧
      ∃ p, (empty (.levelOne (1 / 1000000000)) none).storeAll items = .ok p ∧ p.tracked ≠ [] ∧
        ¬ FollowsRule .minimize (1 / 1000000000) p := by
  have hstore : (empty (.levelOne (1 / 1000000000)) none).storeAll
      (steps .minimize 2000000000 (4000000003 / 2) 2000000003) =
        .ok (thirdStep .minimize (1 / 1000000000) (2000000000 : ℚ) (4000000003 / 2) 2000000003) :=
    storeAll_steps (by norm_num) (by norm_num) (by norm_num) (by norm_num [ties_iff])
      (by norm_num [← Bool.not_eq_true, ties_iff])
  exact ⟨by norm_num, by simp [steps], _, hstore, by simp [thirdStep],
    not_followsRule_thirdStep (by norm_num) (by norm_num) (by norm_num [ties_iff])⟩

end CutPool

end DualDynamic
