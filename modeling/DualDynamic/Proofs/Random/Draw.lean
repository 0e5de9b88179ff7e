import DualDynamic.Proofs.Probability
import DualDynamic.Random.Draw

/-!
# What is drawn

With probabilities, a number below one is looked up among the partial sums; the item that is found
has positive probability, wherever zeros stand in the list. Without them, an item is one of those that
there are.

Two modules look at probabilities: when data is handed in, a sum that is one to four decimals will do;
when an item is drawn, the sum must be within `2⁻²⁶` of one. Vectors between the two bounds are
accepted and cannot be drawn from.
-/

namespace DualDynamic

namespace Draw

variable {K : Type}

/-! ## Equally likely items -/

theorem firstUpTo_le {top mask : ℕ} {draw : Draw K ℕ} {fuel i : ℕ} {s s' : MersenneTwister}
    (h : firstUpTo top mask draw fuel s = .ok i s') : i ≤ top := by
  induction fuel generalizing s with
  | zero =>
    obtain ⟨rfl, -⟩ := EStateM.Result.ok.inj h
    exact Nat.zero_le _
  | succ fuel ih =>
    obtain ⟨n, t, -, h⟩ := Step.bind_eq_ok.1 h
    split_ifs at h with hn
    · obtain ⟨rfl, -⟩ := EStateM.Result.ok.inj h
      exact hn
    · exact ih h

/-- One of `k` equally likely items is one of them. -/
theorem uniform_lt {k : ℤ} {i : ℕ} {s s' : MersenneTwister}
    (h : (uniform k : Draw K ℕ) s = .ok i s') : (i : ℤ) < k := by
  unfold uniform at h
  split_ifs at h with hbad
  · cases h
  · have hk : 0 < k := by
      simp only [Bool.or_eq_true, decide_eq_true_eq, not_or, not_le] at hbad
      exact hbad.1
    have hle : i ≤ (k - 1).toNat := by
      dsimp only at h
      split_ifs at h
      · obtain ⟨rfl, -⟩ := EStateM.Result.ok.inj h
        exact Nat.zero_le _
      · exact firstUpTo_le h
      · exact firstUpTo_le h
    omega

/-! ## Items with probabilities -/

/-- Two words give 53 bits. -/
theorem bits_lt (high low : UInt32) :
    (high >>> 5).toNat * Nat.pow 2 26 + (low >>> 6).toNat < 2 ^ 53 := by
  have hhigh := high.toNat_lt
  have hlow := low.toNat_lt
  have hpow : Nat.pow 2 26 = 67108864 := by decide
  have h5 : 2 ^ ((5 : UInt32).toNat % 32) = 32 := by decide
  have h6 : 2 ^ ((6 : UInt32).toNat % 32) = 64 := by decide
  rw [UInt32.toNat_shiftRight, UInt32.toNat_shiftRight, Nat.shiftRight_eq_div_pow,
    Nat.shiftRight_eq_div_pow, hpow, h5, h6]
  omega

variable [ExactNumeral K]

/-- A number that is drawn is in the unit interval, and one is left out. -/
theorem unit_eq (s : MersenneTwister) : ∃ (u : K) (s' : MersenneTwister),
    unit s = .ok u s' ∧ 0 ≤ u ∧ u < 1 := by
  obtain ⟨bits, s', hunit, hbits⟩ : ∃ (bits : ℕ) (s' : MersenneTwister),
      (unit s : EStateM.Result (Fault K) _ K) =
        .ok (Scalar.ofNat bits / Scalar.ofNat (Nat.pow 2 53)) s' ∧ bits < 2 ^ 53 := by
    exact ⟨_, _, rfl, bits_lt s.next.1 s.next.2.next.1⟩
  have hpow : (Scalar.ofNat (Nat.pow 2 53) : K) = 2 ^ 53 := by
    simp only [Scalar.ofNat, Scalar.ofInt_eq]
    norm_num
  have hcast : (Scalar.ofNat bits : K) = bits := by simp [Scalar.ofNat]
  refine ⟨_, s', hunit, ?_, ?_⟩
  · rw [hpow, hcast]
    positivity
  · rw [hpow, hcast, div_lt_one (by positivity)]
    exact_mod_cast hbits

/-- From a partial sum that is above a number on, all are. -/
theorem filter_partialSums_eq_nil {p : List K} {passed total u : K} (hp : ∀ x ∈ p, 0 ≤ x)
    (htotal : 0 < total) (hu : u < passed / total) :
    (partialSums passed p).filter (fun s => Scalar.le (s / total) u) = [] := by
  induction p generalizing passed with
  | nil => rfl
  | cons x xs ih =>
    rw [List.forall_mem_cons] at hp
    have hnext : u < (passed + x) / total :=
      hu.trans_le (div_le_div_of_nonneg_right (le_add_of_nonneg_right hp.1) htotal.le)
    rw [partialSums, List.filter_cons, if_neg (by rw [Scalar.le_iff, not_le]; exact hnext)]
    exact ih hp.2 hnext

/-- Looking up a number that lies before the end finds an item of positive probability: the partial
sum in front of it is at most the number and the one behind it is above. The induction is on the items,
with the sum of those that were passed. -/
theorem exists_of_partialSums {p : List K} {passed total u : K} (hp : ∀ x ∈ p, 0 ≤ x)
    (htotal : 0 < total) (hpassed : passed / total ≤ u) (hu : u < (passed + p.sum) / total) :
    ∃ x, p[((partialSums passed p).filter fun s => Scalar.le (s / total) u).length]? = some x ∧
      0 < x := by
  induction p generalizing passed with
  | nil =>
    rw [List.sum_nil, add_zero] at hu
    exact absurd hpassed (not_le.2 hu)
  | cons x xs ih =>
    rw [List.forall_mem_cons] at hp
    rw [partialSums, List.filter_cons]
    split_ifs with hle
    · rw [Scalar.le_iff] at hle
      rw [List.sum_cons, ← add_assoc] at hu
      obtain ⟨y, hy, hpos⟩ := ih hp.2 hle hu
      exact ⟨y, by simpa using hy, hpos⟩
    · rw [Scalar.le_iff, not_le] at hle
      rw [filter_partialSums_eq_nil hp.2 htotal hle]
      refine ⟨x, rfl, ?_⟩
      have hstep := hpassed.trans_lt hle
      rw [div_lt_div_iff_of_pos_right htotal] at hstep
      linarith

theorem getLast?_partialSums (passed : K) (p : List K) (hp : p ≠ []) :
    (partialSums passed p).getLast? = some (passed + p.sum) := by
  induction p generalizing passed with
  | nil => exact absurd rfl hp
  | cons x xs ih =>
    cases xs with
    | nil => simp [partialSums]
    | cons y ys =>
      rw [partialSums, List.getLast?_cons, ih _ (by simp), Option.getD_some]
      simp only [List.sum_cons, add_assoc]

/-- The item that is found has positive probability. -/
theorem exists_of_locate {p : List K} {u : K} (hp : ∀ x ∈ p, 0 ≤ x) (hsum : 0 < p.sum)
    (hlow : 0 ≤ u) (hhigh : u < 1) : ∃ x, p[locate p u]? = some x ∧ 0 < x := by
  have hne : p ≠ [] := by
    rintro rfl
    exact absurd hsum (by simp)
  have hlast := getLast?_partialSums (Scalar.zero : K) p hne
  rw [Scalar.zero_eq, zero_add] at hlast
  unfold locate
  simp only [Scalar.zero_eq, hlast, Option.getD_some]
  refine exists_of_partialSums hp hsum ?_ ?_
  · rw [zero_div]
    exact hlow
  · rw [zero_add, div_self hsum.ne']
    exact hhigh

theorem slack_eq : (slack : K) = 1 / 2 ^ 26 := by
  simp only [slack, Scalar.ofNat, Scalar.ofInt_eq, Scalar.one_eq]
  norm_num

theorem accepts_iff {k : ℤ} {p : List K} : accepts k p = true ↔
    0 < k ∧ (p.length : ℤ) = k ∧ (∀ x ∈ p, 0 ≤ x) ∧ |p.sum - 1| ≤ 1 / 2 ^ 26 := by
  simp [accepts, Scalar.sum_eq, slack_eq, and_assoc]

theorem sum_pos_of_near {p : List K} (h : |p.sum - 1| ≤ 1 / 2 ^ 26) : 0 < p.sum := by
  have hsmall : (1 : K) / 2 ^ 26 < 1 := by norm_num
  have := (abs_le.1 h).1
  linarith

/-- Probabilities that can be drawn from: every stream yields an item of positive probability. -/
theorem exists_weighted {k : ℤ} {p : List K} (h : accepts k p = true) (s : MersenneTwister) :
    ∃ i x s', weighted k p s = .ok i s' ∧ p[i]? = some x ∧ 0 < x := by
  obtain ⟨-, -, hp, hnear⟩ := accepts_iff.1 h
  obtain ⟨u, s', hunit, hlow, hhigh⟩ := unit_eq (K := K) s
  obtain ⟨x, hx, hpos⟩ := exists_of_locate hp (sum_pos_of_near hnear) hlow hhigh
  refine ⟨locate p u, x, s', ?_, hx, hpos⟩
  unfold weighted
  rw [if_pos h]
  exact Step.bind_eq_ok.2 ⟨u, s', hunit, rfl⟩

theorem weighted_of_not_accepts {k : ℤ} {p : List K} (h : accepts k p = false)
    (s : MersenneTwister) : weighted k p s = .error .badNumber s := by
  unfold weighted
  rw [if_neg (by simp [h])]
  rfl

theorem accepts_of_weighted {k : ℤ} {p : List K} {i : ℕ} {s s' : MersenneTwister}
    (h : weighted k p s = .ok i s') : accepts k p = true := by
  by_contra hrefused
  rw [weighted_of_not_accepts (Bool.eq_false_iff.2 hrefused)] at h
  cases h

/-- An item that was drawn has positive probability. -/
theorem pos_of_weighted {k : ℤ} {p : List K} {i : ℕ} {s s' : MersenneTwister}
    (h : weighted k p s = .ok i s') : ∃ x, p[i]? = some x ∧ 0 < x := by
  obtain ⟨j, x, t, hj, hx, hpos⟩ := exists_weighted (accepts_of_weighted h) s
  obtain ⟨rfl, -⟩ := EStateM.Result.ok.inj (hj.symm.trans h)
  exact ⟨x, hx, hpos⟩

end Draw

/-! ## Accepted probabilities -/

section Accepted

variable {K : Type} [ExactNumeral K]

/-- Probabilities that were accepted: of scenarios, at least one, or a row of a transition matrix. -/
def Probability.IsAccepted (row : List K) : Prop :=
  (∃ d n, 0 < n ∧ check d n = .ok row) ∨
    ∃ d T c, Transitions.check d T = .ok c ∧ ∃ matrix ∈ c.matrices, row ∈ matrix

theorem Probability.IsAccepted.isDistribution {row : List K} (h : IsAccepted row) :
    isDistribution row = true := by
  rcases h with ⟨d, n, hn, h⟩ | ⟨d, T, c, h, matrix, hmatrix, hrow⟩
  · rcases check_eq_ok h with rfl | ⟨-, hdistribution⟩
    · exact isDistribution_uniform hn
    · exact hdistribution
  · rcases Transitions.check_eq_ok h matrix hmatrix row hrow with rfl | hdistribution
    · rw [isDistribution_iff]
      simp
    · exact hdistribution

/-- The entries that are not zero have the same sum. -/
theorem sum_filter_pos {row : List K} (h : ∀ x ∈ row, 0 ≤ x) :
    (row.filter fun x => Scalar.lt Scalar.zero x).sum = row.sum := by
  induction row with
  | nil => rfl
  | cons x xs ih =>
    rw [List.forall_mem_cons] at h
    rw [List.filter_cons, List.sum_cons]
    split_ifs with hx
    · rw [List.sum_cons, ih h.2]
    · rw [Scalar.lt_iff, Scalar.zero_eq, not_lt] at hx
      rw [ih h.2, le_antisymm hx h.1, zero_add]

/-- A list of numbers that are not negative can be drawn from, on any stream, exactly if its sum is
within `2⁻²⁶` of one. -/
theorem Draw.weighted_iff {row : List K} (h : ∀ x ∈ row, 0 ≤ x) (s : MersenneTwister) :
    (∃ i s', Draw.weighted row.length row s = .ok i s' ∧ i < row.length) ↔
      |row.sum - 1| ≤ 1 / 2 ^ 26 := by
  constructor
  · rintro ⟨i, s', hi, -⟩
    exact (accepts_iff.1 (accepts_of_weighted hi)).2.2.2
  · intro hnear
    have hlength : 0 < row.length := List.length_pos_of_ne_nil (by
      rintro rfl
      exact absurd (sum_pos_of_near hnear) (by simp))
    have haccepts := accepts_iff.2 ⟨by exact_mod_cast hlength, rfl, h, hnear⟩
    obtain ⟨i, x, s', hi, hx, -⟩ := exists_weighted haccepts s
    exact ⟨i, s', hi, (List.getElem?_eq_some_iff.1 hx).1⟩

/-- Which accepted probabilities can be drawn from: on every stream an index in range is drawn if the
sum is within `2⁻²⁶` of one, and the draw fails if it is not. The same holds of the positive entries
alone. What is accepted is only known to have a sum within half a unit of the fourth decimal of one. -/
theorem isDrawn_iff_of_isAccepted {row : List K} (h : Probability.IsAccepted row)
    (s : MersenneTwister) :
    let positive := row.filter fun x => Scalar.lt Scalar.zero x
    |row.sum - 1| ≤ 1 / 20000 ∧
    ((∃ i s', Draw.weighted row.length row s = .ok i s' ∧ i < row.length) ↔
      |row.sum - 1| ≤ 1 / 2 ^ 26) ∧
    ((∃ i s', Draw.weighted positive.length positive s = .ok i s' ∧ i < positive.length) ↔
      |row.sum - 1| ≤ 1 / 2 ^ 26) ∧
    (¬ |row.sum - 1| ≤ 1 / 2 ^ 26 → Draw.weighted row.length row s = .error .badNumber s) := by
  obtain ⟨hnonneg, hnear⟩ := Probability.isDistribution_iff.1 h.isDistribution
  refine ⟨hnear, Draw.weighted_iff hnonneg s, ?_, fun hfar => ?_⟩
  · rw [← sum_filter_pos hnonneg]
    exact Draw.weighted_iff (fun x hx => hnonneg x (List.mem_of_mem_filter hx)) s
  · refine Draw.weighted_of_not_accepts (Bool.eq_false_iff.2 fun haccepts => hfar ?_) s
    exact (Draw.accepts_iff.1 haccepts).2.2.2

end Accepted

/-- A fair coin is accepted and can be drawn from. -/
theorem isDrawn_iff_of_isAccepted_coin : Probability.IsAccepted [(1 : ℚ) / 2, 1 / 2] ∧
    ∃ i s', Draw.weighted 2 [(1 : ℚ) / 2, 1 / 2] (.ofWord 0) = .ok i s' ∧ i < 2 := by
  have hcoin : Probability.isDistribution [(1 : ℚ) / 2, 1 / 2] = true := by
    rw [Probability.isDistribution_iff]
    norm_num
  have haccepted : Probability.IsAccepted [(1 : ℚ) / 2, 1 / 2] :=
    Or.inl ⟨_, 2, by decide, Probability.check_reals hcoin⟩
  exact ⟨haccepted, (isDrawn_iff_of_isAccepted haccepted (.ofWord 0)).2.1.2 (by norm_num)⟩

/-- Thirds with five digits. -/
def thirds : List ℚ := [33333 / 100000, 33333 / 100000, 33333 / 100000]

/-- Not everything that is accepted can be drawn from: thirds with five digits cannot. -/
theorem not_isDrawn_thirds : ¬ ∀ row : List ℚ, Probability.IsAccepted row →
    ∀ s, ∃ i s', Draw.weighted row.length row s = .ok i s' ∧ i < row.length := by
  have hthirds : Probability.isDistribution thirds = true := by
    rw [Probability.isDistribution_iff]
    norm_num [thirds, abs_le]
  intro hall
  have hdrawn := hall thirds (Or.inl ⟨_, 3, by decide, Probability.check_reals hthirds⟩) (.ofWord 0)
  rw [Draw.weighted_iff (Probability.isDistribution_iff.1 hthirds).1] at hdrawn
  norm_num [thirds, abs_le] at hdrawn

end DualDynamic
