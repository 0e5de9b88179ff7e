import DualDynamic.Proofs.Datum
import DualDynamic.Proofs.Exact
import DualDynamic.Probability

/-!
# Accepted probabilities

In exact arithmetic a vector is accepted as a distribution exactly if no entry is negative and the sum
is within half a unit of the fourth decimal of one. What the checks of scenario probabilities and of
transition matrices let pass are such vectors.
-/

namespace DualDynamic

open Step

variable {K : Type}

section Numerals

variable [Numeral K]

/-- Scenario probabilities are the uniform ones, or were given with the right length. -/
theorem Probability.check_eq_ok {d : Datum K} {n : ℕ} {xs : List K} (h : check d n = .ok xs) :
    xs = uniform n ∨ (xs.length = n ∧ isDistribution xs = true) := by
  unfold check at h
  split at h
  · exact Or.inl (Except.ok.inj h).symm
  · obtain ⟨block, hblock, h⟩ := exceptBind_eq_ok.1 h
    have hlength := Datum.length_block (mapError_eq_ok.1 hblock)
    split at h
    · cases h
    · rename_i m hshape
      obtain ⟨hsize, h⟩ := guard_eq_ok h
      split_ifs at h with hdistribution
      obtain rfl := Except.ok.inj h
      rw [hshape, List.prod_singleton] at hlength
      have hm : m = n := by simpa using hsize
      exact Or.inr ⟨hlength.trans hm, hdistribution⟩
    · cases h

/-- Numbers that are a distribution are accepted. -/
theorem Probability.check_reals {xs : List K} (h : isDistribution xs = true) :
    check (.list (xs.map .real)) xs.length = .ok xs := by
  have hblock := Datum.block_reals xs
  simp only [check, hblock, Except.mapError]
  simp [bind, Except.bind, pure, Except.pure, h]

/-- Arithmetic, exact or not, in which what is accepted as a distribution has a positive entry, and one
of `n` equal shares is positive. -/
structure Probability.IsDiscerning (K : Type) [Numeral K] (n : ℕ) : Prop where
  exists_pos : ∀ {xs : List K}, isDistribution xs = true → ∃ x ∈ xs, Scalar.lt Scalar.zero x = true
  one_pos : Scalar.lt Scalar.zero (Scalar.one : K) = true
  share_pos : 0 < n → Scalar.lt Scalar.zero (Scalar.one / Scalar.ofNat n : K) = true
  ne_zero : ∀ {x : K}, Scalar.lt Scalar.zero x = true → Scalar.ne x Scalar.zero = true
  eq_self : ∀ {x : K}, Scalar.isFinite x = true → Scalar.eq x x = true

/-- What is accepted as probabilities has a positive entry. -/
theorem Probability.IsDiscerning.exists_pos_of_check {n : ℕ} (hK : IsDiscerning K n) (hn : 0 < n)
    {d : Datum K} {xs : List K} (h : check d n = .ok xs) :
    xs.length = n ∧ ∃ x ∈ xs, Scalar.lt Scalar.zero x = true := by
  rcases check_eq_ok h with rfl | ⟨hlength, hdistribution⟩
  · exact ⟨List.length_replicate, _, List.mem_replicate.2 ⟨hn.ne', rfl⟩, hK.share_pos hn⟩
  · exact ⟨hlength, hK.exists_pos hdistribution⟩

namespace Transitions

/-- A matrix that is accepted has as many rows as it should have, and these are distributions. -/
theorem checkMatrix_eq_ok {stage rows : ℕ} {d : Datum K} {matrix : Matrix K} {width : ℕ}
    (h : checkMatrix stage rows d = .ok (matrix, width)) :
    matrix.length = rows ∧ ∀ row ∈ matrix, Probability.isDistribution row = true := by
  obtain ⟨block, hblock, h⟩ := exceptBind_eq_ok.1 h
  have hentries := Datum.length_block (mapError_eq_ok.1 hblock)
  split at h
  · rename_i m width' hshape
    obtain ⟨hrows, h⟩ := guard_eq_ok h
    obtain ⟨-, h⟩ := guard_eq_ok h
    split_ifs at h with hall
    obtain ⟨rfl, -⟩ := Prod.mk.inj (Except.ok.inj h)
    have hm : m = rows := by simpa using hrows
    exact ⟨(Block.rows_of_shape hshape hentries).1.trans hm, List.all_eq_true.1 hall⟩
  · cases h

/-- There is a matrix for every datum, with a distribution for every column of the one before. -/
theorem checkFrom_eq_ok {stage rows : ℕ} {ds : List (Datum K)} {c : Transitions K}
    (h : checkFrom stage rows ds = .ok c) :
    c.matrices.length = ds.length ∧ ∀ (i : ℕ) (matrix : Matrix K), c.matrices[i]? = some matrix →
      (rows :: c.sizes)[i]? = some (List.length matrix) ∧
        ∀ row ∈ matrix, Probability.isDistribution row = true := by
  induction ds generalizing stage rows c with
  | nil =>
    obtain rfl := Except.ok.inj h
    simp
  | cons d ds ih =>
    obtain ⟨⟨matrix, width⟩, hmatrix, h⟩ := exceptBind_eq_ok.1 h
    obtain ⟨rest, hrest, h⟩ := exceptBind_eq_ok.1 h
    obtain rfl := Except.ok.inj h
    obtain ⟨hmatrices, hrows⟩ := ih hrest
    refine ⟨by simp [hmatrices], fun i m hm => ?_⟩
    cases i with
    | zero =>
      obtain rfl : matrix = m := Option.some.inj hm
      exact ⟨by simp [(checkMatrix_eq_ok hmatrix).1], (checkMatrix_eq_ok hmatrix).2⟩
    | succ i => exact hrows i m hm

/-- The rows of matrices that are accepted are distributions, or the one of a single state. -/
theorem check_eq_ok {d : Datum K} {T : ℤ} {c : Transitions K} (h : check d T = .ok c) :
    ∀ matrix ∈ c.matrices, ∀ row ∈ matrix,
      row = [Scalar.one] ∨ Probability.isDistribution row = true := by
  unfold check at h
  split at h
  · obtain rfl := Except.ok.inj h
    intro matrix hmatrix row hrow
    rw [List.eq_of_mem_replicate hmatrix] at hrow
    exact Or.inl (List.mem_singleton.1 hrow)
  · split at h
    · cases h
    · split_ifs at h
      intro matrix hmatrix row hrow
      obtain ⟨i, hi⟩ := List.mem_iff_getElem?.1 hmatrix
      exact Or.inr (((checkFrom_eq_ok h).2 i matrix hi).2 row hrow)

/-- A state that is not of the last stage is left with accepted probabilities. -/
theorem row_of_check {d : Datum K} {T t k : ℕ} {c : Transitions K} (h : check d T = .ok c)
    (ht : t + 1 < T) (hk : k < c.sizes.getD t 0) :
    c.row (t + 1) k = [Scalar.one] ∨ Probability.isDistribution (c.row (t + 1) k) = true := by
  obtain ⟨matrix, hmatrix, hlength⟩ : ∃ matrix, c.matrices[t + 1]? = some matrix ∧
      c.sizes[t]? = some matrix.length := by
    unfold check at h
    split at h
    · obtain rfl := Except.ok.inj h
      have ht' : t < T := by omega
      exact ⟨[[Scalar.one]], by simp [trivial, ht], by simp [trivial, ht']⟩
    · split at h
      · cases h
      · rename_i items _
        split_ifs at h with hcount
        have hitems : items.length = T := by simpa using hcount
        obtain ⟨hmatrices, hrows⟩ := checkFrom_eq_ok h
        have hlt : t + 1 < c.matrices.length := by omega
        exact ⟨c.matrices[t + 1], List.getElem?_eq_getElem hlt,
          (hrows (t + 1) _ (List.getElem?_eq_getElem hlt)).1⟩
  have hlt : k < matrix.length := by
    rwa [List.getD_eq_getElem?_getD, hlength] at hk
  have hrow : c.row (t + 1) k = matrix[k] := by
    have hstage : c.matrices.getD (t + 1) [] = matrix := by
      rw [List.getD_eq_getElem?_getD, hmatrix, Option.getD_some]
    rw [row, hstage, List.getD_eq_getElem _ _ hlt]
  rw [hrow]
  exact check_eq_ok h matrix (List.mem_of_getElem? hmatrix) _ (List.getElem_mem hlt)

end Transitions

end Numerals

section Exact

variable [ExactNumeral K]

/-! ## Exact arithmetic -/

/-- A number rounds to one if it is within half a unit of the fourth decimal; on the border the
neighbours of one are odd multiples of that unit. -/
theorem Scalar.roundFour_eq_one {a : K} : roundFour a = 1 ↔ |a - 1| ≤ 1 / 20000 := by
  obtain ⟨n, hn, hnear, htie⟩ := ExactNumeral.nearest_spec (a * 10000)
  have hround : roundFour a = n / 10000 := by
    have hnearest : (Scalar.nearest (a * 10000) : K) = n := hn
    simp only [roundFour, ofInt_eq]
    push_cast
    rw [hnearest]
  have hscale : |a * 10000 - 10000| = 10000 * |a - 1| := by
    have hfactor : a * 10000 - 10000 = 10000 * (a - 1) := by ring
    rw [hfactor, abs_mul, abs_of_pos (by norm_num : (0 : K) < 10000)]
  rw [hround, div_eq_iff (by norm_num), one_mul]
  constructor
  · intro h
    rw [h, hscale] at hnear
    linarith
  · intro h
    by_contra hne
    have hne' : n ≠ 10000 := fun h => hne (by rw [h]; norm_num)
    -- Both 10000 and n are within a half, so that n is a neighbour of 10000 and the distance a tie.
    have hfar : (1 : K) ≤ |(n : K) - 10000| := by
      have hint : (1 : ℤ) ≤ |n - 10000| := Int.one_le_abs (sub_ne_zero.2 hne')
      exact_mod_cast hint
    have htriangle : |(n : K) - 10000| ≤ |a * 10000 - n| + |a * 10000 - 10000| := by
      have hsplit : (n : K) - 10000 = (a * 10000 - 10000) - (a * 10000 - n) := by ring
      rw [hsplit, add_comm]
      exact abs_sub _ _
    have hexact : 2 * |a * 10000 - n| = 1 := by
      rw [hscale] at htriangle
      linarith
    have heven := htie hexact
    have hneighbour : |n - 10000| ≤ 1 := by
      have hclose : |(n : K) - 10000| ≤ 1 := by
        rw [hscale] at htriangle
        linarith
      exact_mod_cast hclose
    rw [abs_le] at hneighbour
    rw [Int.even_iff] at heven
    omega

namespace Probability

theorem isDistribution_iff {xs : List K} :
    isDistribution xs = true ↔ (∀ x ∈ xs, 0 ≤ x) ∧ |xs.sum - 1| ≤ 1 / 20000 := by
  simp [isDistribution, Scalar.sum_eq, Scalar.roundFour_eq_one]

theorem sum_uniform {n : ℕ} (hn : 0 < n) : (uniform n : List K).sum = 1 := by
  have hcast : (n : K) ≠ 0 := by exact_mod_cast hn.ne'
  simp [uniform, Scalar.ofNat, hcast]

theorem isDistribution_uniform {n : ℕ} (hn : 0 < n) : isDistribution (uniform n : List K) = true := by
  rw [isDistribution_iff, sum_uniform hn]
  refine ⟨fun x hx => ?_, by norm_num⟩
  rw [List.eq_of_mem_replicate hx]
  simp [Scalar.ofNat]

theorem isDiscerning (n : ℕ) : IsDiscerning K n where
  exists_pos {xs} h := by
    obtain ⟨hnonneg, hnear⟩ := isDistribution_iff.1 h
    by_contra hnone
    have hzero : ∀ x ∈ xs, x = 0 := fun x hx =>
      le_antisymm (not_lt.1 fun hpos => hnone ⟨x, hx, by simpa using hpos⟩) (hnonneg x hx)
    rw [List.sum_eq_zero hzero] at hnear
    norm_num at hnear
  one_pos := by simp
  share_pos hn := by simpa [Scalar.ofNat] using hn
  ne_zero {x} hx := by
    have hpos : 0 < x := by simpa using hx
    have hne : Scalar.eq x Scalar.zero = false := by simp [Bool.eq_false_iff, hpos.ne']
    rw [Scalar.ne, hne, Bool.not_false]
  eq_self _ := by simp

theorem nonneg_of_check {d : Datum K} {n : ℕ} {xs : List K} (h : check d n = .ok xs) :
    ∀ x ∈ xs, 0 ≤ x := by
  rcases check_eq_ok h with rfl | ⟨-, hdistribution⟩
  · intro x hx
    rw [List.eq_of_mem_replicate hx]
    simp [Scalar.ofNat]
  · exact (isDistribution_iff.1 hdistribution).1

end Probability

end Exact

end DualDynamic
