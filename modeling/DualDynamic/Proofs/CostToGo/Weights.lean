import DualDynamic.Proofs.Exact
import DualDynamic.Proofs.Step
import DualDynamic.CostToGo

/-!
# Weights of ribs

A price between two neighbouring ribs is a convex combination of the two, and the weights of the ribs are
the coefficients. The lower of the two is found by its position: with the ribs in increasing order
exactly the first few are at most the price, and the interval starts at the last one of these, unless
that would leave the axis. Whether a price is on the axis shows in its share of the interval only.
-/

namespace DualDynamic

open Step

variable {K : Type}

namespace Pricing

/-! ## Ribs -/

section

variable [Numeral K]

/-- The number of ribs at or below a price. -/
def ribsAtOrBelow (ribs : List K) (q : K) : ℕ := (ribs.filter fun r => !Scalar.lt q r).length

/-- The rib at which the interval around a price starts. -/
def lowerRib (ribs : List K) (q : K) : ℕ := Nat.min (ribsAtOrBelow ribs q - 1) (ribs.length - 2)

/-- The interval around a price ends on the axis. -/
theorem lowerRib_succ_lt {ribs : List K} (hn : 2 ≤ ribs.length) (q : K) :
    lowerRib ribs q + 1 < ribs.length := by
  have hle : lowerRib ribs q ≤ ribs.length - 2 := Nat.min_le_right _ _
  omega

end

variable [ExactNumeral K] {ribs : List K}

theorem isIncreasing_iff : isIncreasing ribs = true ↔ ribs.Pairwise (· < ·) := by
  rw [← List.isChain_iff_pairwise]
  induction ribs with
  | nil => simp [isIncreasing]
  | cons a ribs ih =>
    cases ribs with
    | nil => simp [isIncreasing]
    | cons b rest =>
      have hab : (!Scalar.le b a) = true ↔ a < b := by
        rw [Bool.not_eq_true', Bool.eq_false_iff, ne_eq, Scalar.le_iff, not_le]
      rw [isIncreasing, Bool.and_eq_true, hab, ih, List.isChain_cons_cons]

theorem readRibs_eq_ok {d : Datum K} (h : readRibs d = .ok ribs) :
    ribs ≠ [] ∧ ribs.Pairwise (· < ·) := by
  unfold readRibs at h
  cases hd : d.numbers with
  | error e => simp [hd] at h
  | ok numbers =>
    simp only [hd] at h
    split_ifs at h with hempty hfinite hincreasing
    obtain rfl := Except.ok.inj h
    simp only [Bool.not_eq_true, Bool.not_eq_false'] at hempty hincreasing
    exact ⟨fun hnil => by simp [hnil] at hempty, isIncreasing_iff.1 hincreasing⟩

/-- The ribs of a price axis are in increasing order, and there is one at least. -/
theorem ribs_ofData {d initial noise probability : Datum K} {dynamics : DynamicsData K}
    {p : Pricing K} (h : ofData d dynamics initial noise probability = .ok p) :
    p.ribs ≠ [] ∧ p.ribs.Pairwise (· < ·) := by
  obtain ⟨ribs, hribs, h⟩ := exceptBind_eq_ok.1 h
  obtain ⟨_, -, h⟩ := exceptBind_eq_ok.1 h
  obtain ⟨_, -, h⟩ := exceptBind_eq_ok.1 h
  obtain ⟨_, -, h⟩ := exceptBind_eq_ok.1 h
  obtain ⟨_, -, h⟩ := exceptBind_eq_ok.1 h
  obtain rfl := Except.ok.inj h
  exact readRibs_eq_ok (mapError_eq_ok.1 hribs)

/-- In increasing order the ribs at or below a price come first. -/
theorem getElem_le_iff (h : ribs.Pairwise (· < ·)) (q : K) (i : ℕ) (hi : i < ribs.length) :
    ribs[i] ≤ q ↔ i < ribsAtOrBelow ribs q := by
  induction ribs generalizing i with
  | nil => simp at hi
  | cons a ribs ih =>
    obtain ⟨hfirst, hrest⟩ := List.pairwise_cons.1 h
    by_cases ha : q < a
    · -- All ribs are above the price.
      have hnone : ribsAtOrBelow (a :: ribs) q = 0 := by
        refine List.length_eq_zero_iff.2 (List.filter_eq_nil_iff.2 fun r hr => ?_)
        have hqr : q < r := by
          rcases List.mem_cons.1 hr with rfl | hr
          · exact ha
          · exact ha.trans (hfirst r hr)
        rw [Scalar.lt_iff.2 hqr]
        decide
      have habove : q < (a :: ribs)[i] := by
        cases i with
        | zero => exact ha
        | succ i => exact ha.trans (hfirst _ (List.getElem_mem _))
      rw [hnone]
      exact ⟨fun hle => absurd habove (not_lt.2 hle), fun hlt => absurd hlt (Nat.not_lt_zero i)⟩
    · have hcount : ribsAtOrBelow (a :: ribs) q = ribsAtOrBelow ribs q + 1 := by
        have hkeep : (!Scalar.lt q a) = true := by
          show (!decide (q < a)) = true
          rw [decide_eq_false ha]
          rfl
        rw [ribsAtOrBelow, List.filter_cons, if_pos hkeep, List.length_cons, ribsAtOrBelow]
      rw [hcount]
      cases i with
      | zero => exact ⟨fun _ => Nat.succ_pos _, fun _ => not_lt.1 ha⟩
      | succ i => exact (ih hrest i (Nat.lt_of_succ_lt_succ hi)).trans Nat.succ_lt_succ_iff.symm

/-! ## Weights -/

/-- The share that a price has of the interval that it is put into. -/
def share (ribs : List K) (q : K) (hn : 2 ≤ ribs.length) : K :=
  let a := ribs.get ⟨lowerRib ribs q, Nat.lt_of_succ_lt (lowerRib_succ_lt hn q)⟩
  let b := ribs.get ⟨lowerRib ribs q + 1, lowerRib_succ_lt hn q⟩
  (q - a) / (b - a)

/-- A number is what its share of an interval says. -/
theorem between_of_share {a b q lam : K} (hab : b - a ≠ 0) (hlam : lam = (q - a) / (b - a)) :
    (1 - lam) * a + lam * b = q := by
  have hback : lam * (b - a) = q - a := by rw [hlam, div_mul_cancel₀ _ hab]
  calc (1 - lam) * a + lam * b = a + lam * (b - a) := by ring
    _ = q := by rw [hback, add_sub_cancel]

/-- The weights are given by the share, unless it shows that the price is off the axis. -/
theorem weights_eq (hn : 2 ≤ ribs.length) (q : K) :
    weights ribs (some q) = if 0 ≤ share ribs q hn ∧ share ribs q hn ≤ 1 then
      .ok [(lowerRib ribs q, 1 - share ribs q hn), (lowerRib ribs q + 1, share ribs q hn)]
    else .error (.outsideRibs (some q) ribs) := by
  have hk := lowerRib_succ_lt hn q
  have hlower : ribs[lowerRib ribs q]? = some ribs[lowerRib ribs q] := List.getElem?_eq_getElem _
  have hupper : ribs[lowerRib ribs q + 1]? = some ribs[lowerRib ribs q + 1] :=
    List.getElem?_eq_getElem _
  have hone : (ribs.length == 1) = false := by
    rw [beq_eq_false_iff_ne]
    omega
  unfold lowerRib ribsAtOrBelow at hlower hupper
  simp only [weights, hone, Bool.false_eq_true, if_false, hlower, hupper, Bool.and_eq_true,
    Scalar.le_iff, Scalar.zero_eq, Scalar.one_eq]
  rfl

/-- Weights are those of a single rib, or of two neighbours that share a price. -/
theorem weights_eq_ok {price : Option K} {ws : List (ℕ × K)} (h : weights ribs price = .ok ws) :
    (ribs.length = 1 ∧ ws = [(0, 1)]) ∨ ∃ k lam, k + 1 < ribs.length ∧ 0 ≤ lam ∧ lam ≤ 1 ∧
      ws = [(k, 1 - lam), (k + 1, lam)] := by
  by_cases hone : ribs.length = 1
  · left
    simp only [weights, hone, beq_self_eq_true, if_true, Scalar.one_eq] at h
    exact ⟨hone, (Except.ok.inj h).symm⟩
  · right
    cases price with
    | none => simp [weights, hone] at h
    | some q =>
      by_cases hn : 2 ≤ ribs.length
      · rw [weights_eq hn] at h
        split_ifs at h with hshare
        exact ⟨_, _, lowerRib_succ_lt hn q, hshare.1, hshare.2, (Except.ok.inj h).symm⟩
      · -- An axis without ribs has no weights.
        obtain rfl : ribs = [] := List.length_eq_zero_iff.1 (by omega)
        simp [weights] at h

section

variable (hincreasing : ribs.Pairwise (· < ·)) (q : K)
include hincreasing

/-- The interval around a price is no point, so that a share of it makes sense. -/
theorem width_pos (k : ℕ) (hk : k + 1 < ribs.length) : 0 < ribs[k + 1] - ribs[k] :=
  sub_pos.2 (List.pairwise_iff_getElem.1 hincreasing k (k + 1) _ hk (Nat.lt_succ_self k))

theorem getElem_le_getElem {i j : ℕ} (hij : i ≤ j) (hj : j < ribs.length) : ribs[i] ≤ ribs[j] := by
  rcases Nat.lt_or_eq_of_le hij with hlt | rfl
  · exact (List.pairwise_iff_getElem.1 hincreasing i j _ hj hlt).le
  · exact le_rfl

/-- The interval of a price starts at or below it, if the axis does. -/
theorem getElem_lowerRib_le_iff (h : lowerRib ribs q + 1 < ribs.length) :
    ribs[lowerRib ribs q] ≤ q ↔ ribs[0] ≤ q := by
  have hle : lowerRib ribs q ≤ ribsAtOrBelow ribs q - 1 := Nat.min_le_left _ _
  constructor
  · exact fun hq => (getElem_le_getElem hincreasing (Nat.zero_le _) _).trans hq
  · intro hq
    rw [getElem_le_iff hincreasing] at hq ⊢
    omega

/-- The interval of a price ends at or above it, if the axis does. -/
theorem le_getElem_lowerRib_iff (h : lowerRib ribs q + 1 < ribs.length) :
    q ≤ ribs[lowerRib ribs q + 1] ↔ q ≤ ribs[ribs.length - 1] := by
  constructor
  · exact fun hq => hq.trans (getElem_le_getElem hincreasing (by omega) (by omega))
  · intro hq
    by_cases hlast : lowerRib ribs q = ribs.length - 2
    · have heq : lowerRib ribs q + 1 = ribs.length - 1 := by omega
      simpa only [heq] using hq
    · -- The rib above is not counted among those at or below the price.
      have hmin : lowerRib ribs q = min (ribsAtOrBelow ribs q - 1) (ribs.length - 2) := rfl
      have habove : ¬ ribs[lowerRib ribs q + 1] ≤ q := by
        rw [getElem_le_iff hincreasing]
        omega
      exact (not_le.1 habove).le

theorem share_nonneg_iff (hn : 2 ≤ ribs.length) : 0 ≤ share ribs q hn ↔ ribs[0] ≤ q := by
  have hk := lowerRib_succ_lt hn q
  have hwidth := width_pos hincreasing _ hk
  rw [← getElem_lowerRib_le_iff hincreasing q hk]
  exact (le_div_iff₀ hwidth).trans (by rw [zero_mul, sub_nonneg, List.get_eq_getElem])

theorem share_le_one_iff (hn : 2 ≤ ribs.length) : share ribs q hn ≤ 1 ↔ q ≤ ribs[ribs.length - 1] := by
  have hk := lowerRib_succ_lt hn q
  have hwidth := width_pos hincreasing _ hk
  rw [← le_getElem_lowerRib_iff hincreasing q hk]
  exact (div_le_one hwidth).trans (sub_le_sub_iff_right _)

/-- The interval of a rib starts there, unless it is the last one. -/
theorem lowerRib_getElem {k : ℕ} (hk : k + 1 < ribs.length) : lowerRib ribs ribs[k] = k := by
  have hat : k < ribsAtOrBelow ribs ribs[k] := (getElem_le_iff hincreasing _ k _).1 le_rfl
  have habove : ¬ k + 1 < ribsAtOrBelow ribs ribs[k] := by
    rw [← getElem_le_iff hincreasing _ (k + 1) hk, not_le]
    exact sub_pos.1 (width_pos hincreasing k hk)
  show min (ribsAtOrBelow ribs ribs[k] - 1) (ribs.length - 2) = k
  omega

theorem lowerRib_last (hn : 2 ≤ ribs.length) :
    lowerRib ribs ribs[ribs.length - 1] = ribs.length - 2 := by
  have hat : ribs.length - 1 < ribsAtOrBelow ribs ribs[ribs.length - 1] :=
    (getElem_le_iff hincreasing _ (ribs.length - 1) _).1 le_rfl
  show min (ribsAtOrBelow ribs ribs[ribs.length - 1] - 1) (ribs.length - 2) = ribs.length - 2
  omega

theorem weights_eq_error_iff (hn : 2 ≤ ribs.length) :
    weights ribs (some q) = .error (.outsideRibs (some q) ribs) ↔
      q < ribs[0] ∨ ribs[ribs.length - 1] < q := by
  have haxis : (0 ≤ share ribs q hn ∧ share ribs q hn ≤ 1) ↔ ribs[0] ≤ q ∧ q ≤ ribs[ribs.length - 1] :=
    and_congr (share_nonneg_iff hincreasing q hn) (share_le_one_iff hincreasing q hn)
  rw [weights_eq hn]
  split_ifs with hshare
  · obtain ⟨hfirst, hlast⟩ := haxis.1 hshare
    refine ⟨fun h => (by cases h), fun hoff => ?_⟩
    rcases hoff with hlow | hhigh
    · exact absurd hfirst (not_le.2 hlow)
    · exact absurd hlast (not_le.2 hhigh)
  · refine ⟨fun _ => ?_, fun _ => rfl⟩
    by_contra hnone
    obtain ⟨hlow, hhigh⟩ := not_or.1 hnone
    exact hshare (haxis.2 ⟨not_lt.1 hlow, not_lt.1 hhigh⟩)

/-- A price on the axis gets the weights that its share says. -/
theorem weights_of_mem (hn : 2 ≤ ribs.length) (hfirst : ribs[0] ≤ q)
    (hlast : q ≤ ribs[ribs.length - 1]) : weights ribs (some q) =
      .ok [(lowerRib ribs q, 1 - share ribs q hn), (lowerRib ribs q + 1, share ribs q hn)] := by
  have hnonneg := (share_nonneg_iff hincreasing q hn).2 hfirst
  have hle := (share_le_one_iff hincreasing q hn).2 hlast
  rw [weights_eq hn, if_pos ⟨hnonneg, hle⟩]

/-- On a rib the interval above it counts, with all weight on the rib. -/
theorem weights_getElem {k : ℕ} (hk : k + 1 < ribs.length) :
    weights ribs (some ribs[k]) = .ok [(k, 1), (k + 1, 0)] := by
  have hn : 2 ≤ ribs.length := by omega
  have hlower := lowerRib_getElem hincreasing hk
  have hzero : share ribs ribs[k] hn = 0 := by
    simp only [share, hlower, List.get_eq_getElem, sub_self, zero_div]
  rw [weights_eq hn, hzero, hlower, sub_zero, if_pos ⟨le_rfl, zero_le_one⟩]

/-- On the last rib the interval below it counts. -/
theorem weights_last (hn : 2 ≤ ribs.length) : weights ribs (some ribs[ribs.length - 1]) =
    .ok [(ribs.length - 2, 0), (ribs.length - 1, 1)] := by
  have hlower := lowerRib_last hincreasing hn
  have hupper : ribs.length - 2 + 1 = ribs.length - 1 := by omega
  have hwidth := width_pos hincreasing (ribs.length - 2) (by omega)
  have hone : share ribs ribs[ribs.length - 1] hn = 1 := by
    simp only [share, hlower, hupper, List.get_eq_getElem] at hwidth ⊢
    exact div_self hwidth.ne'
  rw [weights_eq hn, hone, hlower, hupper, sub_self, if_pos ⟨zero_le_one, le_rfl⟩]

end

/-- What the weights of a price are. The ribs are in increasing order and there are two at least. Then the
weights are refused exactly for a price off the axis, below the first rib or above the last. A price on
the axis gets weights of two neighbouring ribs: they are not negative and add up to one, the ribs
enclose the price, and it is their convex combination. On a rib the interval above it counts, with
all weight on the rib; on the last one the interval below it. Either way the one division is by the
distance of two neighbouring ribs, which is not zero. -/
theorem weights_interpolate (hincreasing : ribs.Pairwise (· < ·)) (hn : 2 ≤ ribs.length) (q : K) :
    (weights ribs (some q) = .error (.outsideRibs (some q) ribs) ↔
      q < ribs[0] ∨ ribs[ribs.length - 1] < q) ∧
    (∀ e, weights ribs (some q) = .error e → e.kind = .interpolation ∧
      (q < ribs[0] ∨ ribs[ribs.length - 1] < q)) ∧
    (ribs[0] ≤ q → q ≤ ribs[ribs.length - 1] → ∃ k lam, ∃ _ : k + 1 < ribs.length,
      weights ribs (some q) = .ok [(k, 1 - lam), (k + 1, lam)] ∧ 0 ≤ lam ∧ lam ≤ 1 ∧
      ribs[k] ≤ q ∧ q ≤ ribs[k + 1] ∧ (1 - lam) * ribs[k] + lam * ribs[k + 1] = q) ∧
    (∀ k, ∀ _ : k + 1 < ribs.length, q = ribs[k] →
      weights ribs (some q) = .ok [(k, 1), (k + 1, 0)]) ∧
    (q = ribs[ribs.length - 1] →
      weights ribs (some q) = .ok [(ribs.length - 2, 0), (ribs.length - 1, 1)]) ∧
    ∃ _ : lowerRib ribs q + 1 < ribs.length,
      ribs[lowerRib ribs q + 1] - ribs[lowerRib ribs q] ≠ 0 ∧
      weights ribs (some q) =
        let lam := (q - ribs[lowerRib ribs q]) / (ribs[lowerRib ribs q + 1] - ribs[lowerRib ribs q])
        if 0 ≤ lam ∧ lam ≤ 1 then .ok [(lowerRib ribs q, 1 - lam), (lowerRib ribs q + 1, lam)]
        else .error (.outsideRibs (some q) ribs) := by
  have hk := lowerRib_succ_lt hn q
  have hwidth := width_pos hincreasing _ hk
  have hrefused := weights_eq_error_iff hincreasing q hn
  refine ⟨hrefused, fun e he => ?_, fun hfirst hlast => ?_, fun k hlt hq => ?_, fun hq => ?_,
    hk, hwidth.ne', weights_eq hn q⟩
  · have hsame : e = .outsideRibs (some q) ribs := by
      rw [weights_eq hn] at he
      split_ifs at he
      exact (Except.error.inj he).symm
    subst hsame
    exact ⟨rfl, hrefused.1 he⟩
  · exact ⟨lowerRib ribs q, share ribs q hn, hk, weights_of_mem hincreasing q hn hfirst hlast,
      (share_nonneg_iff hincreasing q hn).2 hfirst, (share_le_one_iff hincreasing q hn).2 hlast,
      (getElem_lowerRib_le_iff hincreasing q hk).2 hfirst,
      (le_getElem_lowerRib_iff hincreasing q hk).2 hlast, between_of_share hwidth.ne' rfl⟩
  · subst hq
    exact weights_getElem hincreasing hlt
  · subst hq
    exact weights_last hincreasing hn

/-- Prices on an axis with three ribs, between two of them, on the inner one, on the last and beyond. -/
theorem weights_interpolate_threeRibs :
    let ribs : List ℚ := [0, 10, 20]
    ribs.Pairwise (· < ·) ∧ 2 ≤ ribs.length ∧
    (∃ k lam, weights ribs (some (5 / 2)) = .ok [(k, 1 - lam), (k + 1, lam)] ∧ 0 ≤ lam ∧ lam ≤ 1) ∧
    weights ribs (some 10) = .ok [(1, 1), (2, 0)] ∧
    weights ribs (some 20) = .ok [(1, 0), (2, 1)] ∧
    weights ribs (some 21) = .error (.outsideRibs (some 21) ribs) := by
  intro ribs
  have hincreasing : ribs.Pairwise (· < ·) := by norm_num [ribs]
  have hn : 2 ≤ ribs.length := by simp [ribs]
  refine ⟨hincreasing, hn, ?_, ?_, ?_, ?_⟩
  · obtain ⟨k, lam, -, h, hlow, hhigh, -⟩ :=
      (weights_interpolate hincreasing hn (5 / 2)).2.2.1 (by norm_num [ribs]) (by norm_num [ribs])
    exact ⟨k, lam, h, hlow, hhigh⟩
  · exact (weights_interpolate hincreasing hn 10).2.2.2.1 1 (by simp [ribs]) (by simp [ribs])
  · exact (weights_interpolate hincreasing hn 20).2.2.2.2.1 (by simp [ribs])
  · exact (weights_interpolate hincreasing hn 21).1.2 (Or.inr (by norm_num [ribs]))

end Pricing

end DualDynamic
