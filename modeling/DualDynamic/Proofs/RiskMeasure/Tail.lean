import DualDynamic.Proofs.Exact
import DualDynamic.RiskMeasure

/-!
# The tail of a distribution

The average value at risk of values with probabilities is the best of the promises
`η + E[excess over η] / level` over all thresholds `η`. It is attained at the realization at which
`Realizations.tailStart` lets the tail begin (`isAverageAtRisk_tailValue`): the mass of the values
that are worse is at most the level, the mass of those that are at least as bad is no less. This
is so for every order in which a sort may return the positions (`IsSorting`), however it treats
equal values.

Weights that sum to one and nowhere exceed `probability / level` bound the average value at risk
(`bounds_tailObjective`). Values and gradients of a tail are put together with such weights, except
that the beginning of the tail may carry more than its share when other realizations tie with it.
-/

namespace DualDynamic

variable {K : Type} [ExactNumeral K]

/-! ## The average value at risk -/

section Thresholds

variable {ι : Type} [Fintype ι]

/-- What a threshold `η` promises: the threshold and the mean excess over it, relative to the
level. -/
def tailObjective (s : Sense) (level : K) (p z : ι → K) (η : K) : K :=
  match s with
  | .minimize => η + (∑ i, p i * max (z i - η) 0) / level
  | .maximize => η - (∑ i, p i * max (η - z i) 0) / level

/-- The average value at risk: the least promise for costs, the greatest for profits. -/
def IsAverageAtRisk (s : Sense) (level : K) (p z : ι → K) (m : K) : Prop :=
  match s with
  | .minimize => IsLeast (Set.range (tailObjective s level p z)) m
  | .maximize => IsGreatest (Set.range (tailObjective s level p z)) m

/-- Both senses at once: promises for values times the sign. -/
theorem unit_mul_tailObjective (s : Sense) (level : K) (p z : ι → K) (η : K) :
    s.unit * tailObjective s level p z η =
      s.unit * η + (∑ i, p i * max (s.unit * z i - s.unit * η) 0) / level := by
  cases s with
  | minimize => simp [tailObjective]
  | maximize =>
    have hflip : ∀ i, -z i + η = η - z i := fun i => by ring
    simp only [tailObjective, Sense.unit_maximize, neg_mul, one_mul, sub_neg_eq_add, hflip]
    ring

theorem isAverageAtRisk_iff {s : Sense} {level : K} {p z : ι → K} {m : K} :
    IsAverageAtRisk s level p z m ↔
      (∃ η, tailObjective s level p z η = m) ∧ ∀ η, s.Bounds m (tailObjective s level p z η) := by
  cases s <;> simp [IsAverageAtRisk, IsLeast, IsGreatest, lowerBounds, upperBounds, Sense.Bounds]

/-- Weights below `p / level` give a mean that bounds every promise. -/
theorem bounds_tailObjective (s : Sense) {level : K} (hlevel : 0 < level) {p z q : ι → K}
    (hq : ∀ i, 0 ≤ q i) (hqp : ∀ i, q i * level ≤ p i) (hsum : ∑ i, q i = 1) (η : K) :
    s.Bounds (∑ i, q i * z i) (tailObjective s level p z η) := by
  rw [Sense.bounds_iff, unit_mul_tailObjective]
  have hmean : s.unit * ∑ i, q i * z i =
      s.unit * η + ∑ i, q i * (s.unit * z i - s.unit * η) := by
    have : ∑ i, q i * (s.unit * z i - s.unit * η) =
        s.unit * ∑ i, q i * z i - s.unit * η * ∑ i, q i := by
      rw [Finset.mul_sum, Finset.mul_sum, ← Finset.sum_sub_distrib]
      exact Finset.sum_congr rfl fun i _ => by ring
    rw [this, hsum]
    ring
  rw [hmean, Finset.sum_div]
  refine add_le_add le_rfl (Finset.sum_le_sum fun i _ => ?_)
  set y := s.unit * z i - s.unit * η
  calc q i * y ≤ q i * max y 0 := mul_le_mul_of_nonneg_left (le_max_left _ _) (hq i)
    _ ≤ p i / level * max y 0 :=
        mul_le_mul_of_nonneg_right ((le_div_iff₀ hlevel).2 (hqp i)) (le_max_right _ _)
    _ = p i * max y 0 / level := by ring

/-- Promises follow the values. -/
theorem bounds_tailObjective_of_bounds {s : Sense} {level : K} (hlevel : 0 < level)
    {p z z' : ι → K} (hp : ∀ i, 0 ≤ p i) (h : ∀ i, s.Bounds (z i) (z' i)) (η : K) :
    s.Bounds (tailObjective s level p z η) (tailObjective s level p z' η) := by
  rw [Sense.bounds_iff, unit_mul_tailObjective, unit_mul_tailObjective]
  refine add_le_add le_rfl (div_le_div_of_nonneg_right ?_ hlevel.le)
  refine Finset.sum_le_sum fun i _ => mul_le_mul_of_nonneg_left ?_ (hp i)
  exact max_le_max (sub_le_sub_right (Sense.bounds_iff.1 (h i)) _) le_rfl

/-- The average value at risk follows the values. -/
theorem IsAverageAtRisk.bounds {s : Sense} {level : K} (hlevel : 0 < level) {p z z' : ι → K}
    (hp : ∀ i, 0 ≤ p i) (h : ∀ i, s.Bounds (z i) (z' i)) {m m' : K}
    (hm : IsAverageAtRisk s level p z m) (hm' : IsAverageAtRisk s level p z' m') :
    s.Bounds m m' := by
  obtain ⟨η, rfl⟩ := (isAverageAtRisk_iff.1 hm').1
  exact ((isAverageAtRisk_iff.1 hm).2 η).trans (bounds_tailObjective_of_bounds hlevel hp h η)

/-- The excess over zero, seen from a threshold `t`: it is no more than `level * t` and the excess
over `t`, if zero splits the mass at the level. -/
theorem sum_excess_le {p y : ι → K} (hp : ∀ i, 0 ≤ p i) {level : K}
    (habove : (∑ i, if 0 < y i then p i else 0) ≤ level)
    (hfrom : level ≤ ∑ i, if 0 ≤ y i then p i else 0) (t : K) :
    (∑ i, if 0 < y i then p i * y i else 0) ≤ level * t + ∑ i, p i * max (y i - t) 0 := by
  rcases le_or_gt t 0 with ht | ht
  · have hterm : ∀ i, (if 0 < y i then p i * y i else 0) + (if 0 ≤ y i then p i else 0) * -t ≤
        p i * max (y i - t) 0 := by
      intro i
      rcases lt_trichotomy (y i) 0 with h | h | h
      · simp only [h.not_gt, h.not_ge, if_false, zero_mul, add_zero]
        exact mul_nonneg (hp i) (le_max_right _ _)
      · simp [h, ht]
      · rw [if_pos h, if_pos h.le, max_eq_left (by linarith)]
        exact le_of_eq (by ring)
    have hsum := Finset.sum_le_sum fun i (_ : i ∈ Finset.univ) => hterm i
    rw [Finset.sum_add_distrib, ← Finset.sum_mul] at hsum
    nlinarith
  · have hterm : ∀ i, (if 0 < y i then p i * y i else 0) ≤
        (if 0 < y i then p i else 0) * t + p i * max (y i - t) 0 := by
      intro i
      rcases le_or_gt (y i) 0 with h | h
      · simp only [h.not_gt, if_false, zero_mul, zero_add]
        exact mul_nonneg (hp i) (le_max_right _ _)
      · rw [if_pos h, if_pos h]
        have := mul_le_mul_of_nonneg_left (le_max_left (y i - t) 0) (hp i)
        linarith
    have hsum := Finset.sum_le_sum fun i (_ : i ∈ Finset.univ) => hterm i
    rw [Finset.sum_add_distrib, ← Finset.sum_mul] at hsum
    nlinarith

end Thresholds

/-! ## Families -/

/-- Realizations given position by position. -/
def Realizations.family {n : ℕ} (z : Fin n → K) (g : Fin n → List K) (p : Fin n → K) :
    Realizations K :=
  ⟨List.ofFn z, List.ofFn g, List.ofFn p⟩

theorem sum_range_map {n : ℕ} (f : ℕ → K) :
    ((List.range n).map f).sum = ∑ i : Fin n, f i := by
  rw [← List.sum_ofFn, List.ofFn_eq_map, ← List.map_coe_finRange_eq_range, List.map_map]
  rfl

/-- A sum over some of the positions. -/
theorem sum_map_filter {ι : Type} (l : List ι) (P : ι → Bool) (f : ι → K) :
    ((l.filter P).map f).sum = (l.map fun i => if P i then f i else 0).sum := by
  induction l with
  | nil => rfl
  | cons a l ih => by_cases h : P a <;> simp [h, ih]

namespace Realizations

variable {n : ℕ} (z : Fin n → K) (g : Fin n → List K) (p : Fin n → K)

omit [ExactNumeral K] in
@[simp] theorem length_family : (family z g p).values.length = n := by simp [family]

@[simp] theorem value_family (i : Fin n) : (family z g p).value i = z i := by
  simp [family, value, List.getD_eq_getElem?_getD]

@[simp] theorem weight_family (i : Fin n) : (family z g p).weight i = p i := by
  simp [family, weight, List.getD_eq_getElem?_getD]

omit [ExactNumeral K] in
@[simp] theorem gradient_family (i : Fin n) : (family z g p).gradient i = g i := by
  simp [family, gradient, List.getD_eq_getElem?_getD]

theorem meanValue_family : (family z g p).meanValue = ∑ i, p i * z i := Scalar.dot_ofFn p z

/-! ## Where the tail begins -/

variable (r : Realizations K) (s : Sense)

/-- The search for a level that the weights reach stops at a position: the weights up to it reach
the level, the weights before it do not. -/
theorem reaching_eq_some (level : K) (order : List ℕ) (acc : K) (hne : order ≠ [])
    (hreach : level ≤ acc + (order.map r.weight).sum) :
    ∃ front k rest, order = front ++ k :: rest ∧ r.reaching level acc order = some k ∧
      level ≤ acc + (front.map r.weight).sum + r.weight k ∧
      (front = [] ∨ acc + (front.map r.weight).sum < level) := by
  induction order generalizing acc with
  | nil => exact absurd rfl hne
  | cons a order ih =>
    by_cases ha : level ≤ acc + r.weight a
    · exact ⟨[], a, order, rfl, by simp [reaching, ha], by simpa using ha, Or.inl rfl⟩
    · have hrest : level ≤ acc + r.weight a + (order.map r.weight).sum := by
        simpa [add_assoc] using hreach
      have hne' : order ≠ [] := by
        rintro rfl
        exact ha (by simpa using hrest)
      obtain ⟨front, k, rest, rfl, hk, hupto, hbefore⟩ := ih (acc + r.weight a) hne' hrest
      refine ⟨a :: front, k, rest, rfl, by simp [reaching, ha, hk], ?_, Or.inr ?_⟩
      · simpa [add_assoc] using hupto
      · rcases hbefore with rfl | hbefore
        · simpa using not_le.1 ha
        · simpa [add_assoc] using hbefore

theorem increasing_perm {K : Type} [Scalar K] (r : Realizations K) :
    r.increasing.Perm (List.range r.values.length) := List.mergeSort_perm _ _

theorem pairwise_increasing : r.increasing.Pairwise fun i j => r.value i ≤ r.value j := by
  have hsorted : r.increasing.Pairwise fun i j =>
      (Scalar.le (r.value i) (r.value j) || Scalar.isNaN (r.value j)) = true := List.pairwise_mergeSort
    (by simp only [Scalar.isNaN_eq, Bool.or_false, Scalar.le_iff]; intro a b c; exact le_trans)
    (by simpa using fun a b => le_total (r.value a) (r.value b)) (List.range r.values.length)
  exact hsorted.imp fun h => by simpa using h

theorem bestFirst_perm {K : Type} [Scalar K] (r : Realizations K) (s : Sense) :
    (r.bestFirst s).Perm (List.range r.values.length) := by
  cases s with
  | minimize => exact r.increasing_perm
  | maximize => exact (List.reverse_perm _).trans r.increasing_perm

/-- What a sort of the values may return: every position once, the values increasing. Positions of
equal values may come in any order. -/
structure IsSorting (order : List ℕ) : Prop where
  perm : order.Perm (List.range r.values.length)
  sorted : order.Pairwise fun i j => r.value i ≤ r.value j

theorem isSorting_increasing : r.IsSorting r.increasing :=
  ⟨r.increasing_perm, r.pairwise_increasing⟩

/-- A sorted order, turned so that it runs from the best to the worst. -/
def fromBest (s : Sense) (order : List ℕ) : List ℕ :=
  match s with
  | .minimize => order
  | .maximize => order.reverse

theorem IsSorting.fromBest_perm {r : Realizations K} {order : List ℕ} (h : r.IsSorting order)
    (s : Sense) : (fromBest s order).Perm (List.range r.values.length) := by
  cases s with
  | minimize => exact h.perm
  | maximize => exact (List.reverse_perm _).trans h.perm

/-- From the best to the worst: the values times the sign increase. -/
theorem IsSorting.pairwise_fromBest {r : Realizations K} {order : List ℕ} (h : r.IsSorting order)
    (s : Sense) :
    (fromBest s order).Pairwise fun i j => s.unit * r.value i ≤ s.unit * r.value j := by
  cases s with
  | minimize => exact h.sorted.imp fun h => by simpa using h
  | maximize => exact List.pairwise_reverse.2 (h.sorted.imp fun h => by simpa using h)

/-- The position at which the tail begins when `order` is what the sort has returned. -/
def tailStartAlong (order : List ℕ) (level : K) : Option ℕ :=
  match r.reaching (Scalar.one - level) Scalar.zero (fromBest s order) with
  | some i => some i
  | none => (fromBest s order).getLast?

theorem tailStart_eq (level : K) : r.tailStart s level = r.tailStartAlong s r.increasing level := by
  cases s <;> rfl

theorem exceeds_iff {start value : K} :
    exceeds s start value = true ↔ 0 < s.unit * value - s.unit * start := by
  simp [exceeds, Sense.unit, mul_sub]

end Realizations

/-! ## The masses around the beginning of the tail -/

/-- Probabilities with a level in `(0, 1]`: what an average value at risk is asked about. -/
structure TailShares {n : ℕ} (p : Fin n → K) (level : K) : Prop where
  nonneg : ∀ i, 0 ≤ p i
  sum : ∑ i, p i = 1
  level_pos : 0 < level
  level_le : level ≤ 1

variable {n : ℕ} {z p : Fin n → K} {level : K}

theorem TailShares.pos (h : TailShares p level) : 0 < n := by
  rcases Nat.eq_zero_or_pos n with rfl | hn
  · simpa using h.sum
  · exact hn

namespace Realizations

/-- A sum over the positions of a family, taken in any order. -/
theorem sum_perm {f : ℕ → K} {order : List ℕ} (h : order.Perm (List.range n)) :
    (order.map f).sum = ∑ i : Fin n, f i := by
  rw [(h.map f).sum_eq, sum_range_map]

/-- In an order from the best to the worst, only what comes after a position is worse. -/
theorem mass_worse_le (r : Realizations K) {s : Sense} {front rest : List ℕ} {k : ℕ}
    (hsorted : (front ++ k :: rest).Pairwise fun i j => s.unit * r.value i ≤ s.unit * r.value j)
    (hnonneg : ∀ i ∈ front ++ k :: rest, 0 ≤ r.weight i) :
    ((front ++ k :: rest).map fun i =>
      if 0 < s.unit * r.value i - s.unit * r.value k then r.weight i else 0).sum ≤
        (rest.map r.weight).sum := by
  rw [List.pairwise_append] at hsorted
  obtain ⟨-, -, hfront⟩ := hsorted
  rw [List.map_append, List.sum_append, List.map_cons, List.sum_cons]
  have hzero : (front.map fun i =>
      if 0 < s.unit * r.value i - s.unit * r.value k then r.weight i else 0).sum = 0 := by
    refine List.sum_eq_zero fun x hx => ?_
    obtain ⟨i, hi, rfl⟩ := List.mem_map.1 hx
    rw [if_neg (by linarith [hfront i hi k (by simp)])]
  have hrest : (rest.map fun i =>
      if 0 < s.unit * r.value i - s.unit * r.value k then r.weight i else 0).sum ≤
        (rest.map r.weight).sum := by
    refine List.sum_le_sum fun i hi => ?_
    split_ifs
    · exact le_rfl
    · exact hnonneg i (by simp [hi])
  rw [hzero, if_neg (by simp)]
  linarith

/-- In an order from the best to the worst, all that comes after a position is at least as bad. -/
theorem le_mass_notBetter (r : Realizations K) {s : Sense} {front rest : List ℕ} {k : ℕ}
    (hsorted : (front ++ k :: rest).Pairwise fun i j => s.unit * r.value i ≤ s.unit * r.value j)
    (hnonneg : ∀ i ∈ front ++ k :: rest, 0 ≤ r.weight i) :
    r.weight k + (rest.map r.weight).sum ≤ ((front ++ k :: rest).map fun i =>
      if 0 ≤ s.unit * r.value i - s.unit * r.value k then r.weight i else 0).sum := by
  rw [List.pairwise_append, List.pairwise_cons] at hsorted
  obtain ⟨-, ⟨hafter, -⟩, -⟩ := hsorted
  rw [List.map_append, List.sum_append, List.map_cons, List.sum_cons]
  have hfront : 0 ≤ (front.map fun i =>
      if 0 ≤ s.unit * r.value i - s.unit * r.value k then r.weight i else 0).sum := by
    refine List.sum_nonneg fun x hx => ?_
    obtain ⟨i, hi, rfl⟩ := List.mem_map.1 hx
    split_ifs
    · exact hnonneg i (by simp [hi])
    · exact le_rfl
  have hrest : (rest.map fun i =>
      if 0 ≤ s.unit * r.value i - s.unit * r.value k then r.weight i else 0) =
        rest.map r.weight := by
    refine List.map_congr_left fun i hi => ?_
    rw [if_pos (by linarith [hafter i hi])]
  rw [hrest, if_pos (by simp)]
  linarith

/-- Whatever order the sort gives to equal values, the tail begins at a position such that the mass
of the worse values is at most the level and the mass of the values at least as bad is no less. -/
theorem tailStartAlong_family (g : Fin n → List K) (h : TailShares p level) (s : Sense)
    {order : List ℕ} (horder : (family z g p).IsSorting order) :
    ∃ k : Fin n, (family z g p).tailStartAlong s order level = some (k : ℕ) ∧
      (∑ i, if 0 < s.unit * z i - s.unit * z k then p i else 0) ≤ level ∧
      level ≤ ∑ i, if 0 ≤ s.unit * z i - s.unit * z k then p i else 0 := by
  set r := family z g p with hr
  have hperm : (fromBest s order).Perm (List.range n) := by
    simpa [hr] using horder.fromBest_perm s
  have hsorted := horder.pairwise_fromBest s
  have htotal : ((fromBest s order).map r.weight).sum = 1 := by
    rw [sum_perm hperm, ← h.sum]
    exact Finset.sum_congr rfl fun i _ => weight_family z g p i
  have hne : fromBest s order ≠ [] := by
    intro hnil
    have := hperm.length_eq
    rw [hnil, List.length_range] at this
    exact h.pos.ne this
  obtain ⟨front, k, rest, hcut, hk, hupto, hbefore⟩ :=
    r.reaching_eq_some (1 - level) (fromBest s order) 0 hne (by rw [htotal]; linarith [h.level_pos])
  have hmem : ∀ i ∈ fromBest s order, i < n := fun i hi => List.mem_range.1 (hperm.mem_iff.1 hi)
  have hnonneg : ∀ i ∈ fromBest s order, 0 ≤ r.weight i := fun i hi => by
    rw [show r.weight i = p ⟨i, hmem i hi⟩ from weight_family z g p ⟨i, hmem i hi⟩]
    exact h.nonneg _
  have hkn : k < n := hmem k (by simp [hcut])
  -- a mass is taken in the order from the best to the worst
  have hmass : ∀ (P : K → Prop) [DecidablePred P],
      (∑ i, if P (s.unit * z i - s.unit * z ⟨k, hkn⟩) then p i else 0) =
        ((fromBest s order).map fun i =>
          if P (s.unit * r.value i - s.unit * r.value k) then r.weight i else 0).sum := by
    intro P _
    rw [sum_perm hperm]
    refine Finset.sum_congr rfl fun i _ => ?_
    rw [value_family, weight_family, ← value_family z g p ⟨k, hkn⟩]
  refine ⟨⟨k, hkn⟩, by simp only [tailStartAlong, Scalar.one_eq, Scalar.zero_eq, hk], ?_, ?_⟩
  all_goals
    rw [hcut] at htotal hsorted hnonneg hmass
    simp only [List.map_append, List.map_cons, List.sum_append, List.sum_cons, zero_add]
      at htotal hupto hbefore
  · rw [hmass (0 < ·)]
    linarith [r.mass_worse_le hsorted hnonneg]
  · rw [hmass (0 ≤ ·)]
    have := r.le_mass_notBetter hsorted hnonneg
    rcases hbefore with rfl | hbefore
    · simp only [List.map_nil, List.sum_nil, zero_add] at htotal
      linarith [h.level_le]
    · linarith

theorem tailStart_family (g : Fin n → List K) (h : TailShares p level) (s : Sense) :
    ∃ k : Fin n, (family z g p).tailStart s level = some (k : ℕ) ∧
      (∑ i, if 0 < s.unit * z i - s.unit * z k then p i else 0) ≤ level ∧
      level ≤ ∑ i, if 0 ≤ s.unit * z i - s.unit * z k then p i else 0 := by
  rw [tailStart_eq]
  exact tailStartAlong_family g h s (isSorting_increasing _)

/-! ## Value and gradient of a tail -/

theorem sum_excess (g : Fin n → List K) (s : Sense) (k : Fin n) (f : ℕ → K) :
    (((family z g p).excess s k).map f).sum =
      ∑ i : Fin n, if 0 < s.unit * z i - s.unit * z k then f i else 0 := by
  rw [excess, sum_map_filter, length_family, sum_range_map]
  refine Finset.sum_congr rfl fun i _ => ?_
  simp only [exceeds_iff, value_family]

theorem tailValue_family (g : Fin n → List K) (s : Sense) (k : Fin n) :
    (family z g p).tailValue s level k = z k +
      (∑ i : Fin n, if 0 < s.unit * z i - s.unit * z k then p i * (z i - z k) else 0) / level := by
  rw [tailValue, Scalar.dot_map, sum_excess]
  simp only [value_family, weight_family]

/-- The value of the tail is the average value at risk. -/
theorem isAverageAtRisk_tailValue (g : Fin n → List K) (h : TailShares p level) {s : Sense}
    {k : Fin n} (habove : (∑ i, if 0 < s.unit * z i - s.unit * z k then p i else 0) ≤ level)
    (hfrom : level ≤ ∑ i, if 0 ≤ s.unit * z i - s.unit * z k then p i else 0) :
    IsAverageAtRisk s level p z ((family z g p).tailValue s level k) := by
  have hvalue : s.unit * (family z g p).tailValue s level k = s.unit * z k +
      (∑ i, if 0 < s.unit * z i - s.unit * z k then p i * (s.unit * z i - s.unit * z k) else 0) /
        level := by
    rw [tailValue_family, mul_add, mul_div_assoc', Finset.mul_sum]
    congr 2
    refine Finset.sum_congr rfl fun i _ => ?_
    split_ifs <;> ring
  refine isAverageAtRisk_iff.2 ⟨⟨z k, mul_left_cancel₀ s.unit_ne_zero ?_⟩, fun η => ?_⟩
  · rw [hvalue, unit_mul_tailObjective]
    congr 2
    refine Finset.sum_congr rfl fun i _ => ?_
    split_ifs with hi
    · rw [max_eq_left hi.le]
    · rw [max_eq_right (not_lt.1 hi), mul_zero]
  · rw [Sense.bounds_iff, hvalue, unit_mul_tailObjective]
    have hsum := sum_excess_le h.nonneg habove hfrom (s.unit * η - s.unit * z k)
    have hshift : ∀ i, s.unit * z i - s.unit * z k - (s.unit * η - s.unit * z k) =
        s.unit * z i - s.unit * η := fun i => by ring
    simp only [hshift] at hsum
    have hdiv := div_le_div_of_nonneg_right hsum h.level_pos.le
    rw [add_div, mul_div_cancel_left₀ _ h.level_pos.ne'] at hdiv
    linarith

end Realizations

end DualDynamic
