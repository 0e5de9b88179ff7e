import DualDynamic.Proofs.RiskMeasure.CutValidity
import DualDynamic.Proofs.RiskMeasure.Value

/-!
# One probability vector for values and gradients

A mixture puts values and gradients together with the same weights, those of `mixedWeight` at the
realization at which the tail begins. They are probabilities, and they are known before the
gradients are: the search for the tail and the excess over its beginning look at values and
probabilities only. So the aggregated gradient never leaves the hull of the gradients.

Only the weight of the beginning could be negative. It is not, since the mass of the worse
realizations is at most the level, in whatever order the sort puts realizations that tie.
-/

namespace DualDynamic

variable {K : Type} [ExactNumeral K]

/-! ## Vectors from their inner products -/

/-- A vector is known by its inner products. -/
theorem Scalar.eq_ofFn_of_dot {d : ℕ} {xs : List K} {v : Fin d → K} (hlength : xs.length = d)
    (hdot : ∀ y : Fin d → K, Scalar.dot xs (List.ofFn y) = ∑ j, v j * y j) :
    xs = List.ofFn v := by
  obtain ⟨u, rfl⟩ : ∃ u : Fin d → K, xs = List.ofFn u :=
    ⟨fun j => xs[j], List.ext_getElem (by simp [hlength]) (by simp)⟩
  refine congrArg List.ofFn (funext fun j => ?_)
  have hunit := hdot (Pi.single j 1)
  rw [Scalar.dot_ofFn] at hunit
  simpa [Pi.single_apply] using hunit

omit [ExactNumeral K] in
/-- The rows of numbers that have been laid out row by row. -/
theorem Block.rowsOf_flatten {d n : ℕ} (γ : Fin n → Fin d → K) :
    Block.rowsOf d n (List.ofFn fun i => List.ofFn (γ i)).flatten =
      List.ofFn fun i => List.ofFn (γ i) := by
  induction n with
  | zero => rfl
  | succ n ih =>
    simp only [List.ofFn_succ (f := fun i => List.ofFn (γ i)), List.flatten_cons, rowsOf]
    rw [List.take_left' (List.length_ofFn ..), List.drop_left' (List.length_ofFn ..), ih]

/-! ## The weights of a mixture -/

section Mixtures

variable {n d : ℕ} {s : Sense} {level weight : K} {p z : Fin n → K} {k : Fin n}

/-- The weights of a mixture are probabilities as soon as the mass of what is worse than the
beginning of the tail is at most the level. -/
theorem mixedWeight_mem_stdSimplex (h : TailShares p level) (hweight₀ : 0 ≤ weight)
    (hweight₁ : weight ≤ 1) (hk : excessMass s p z k ≤ level) :
    mixedWeight s level weight p z k ∈ stdSimplex K (Fin n) := by
  refine ⟨fun i => add_nonneg ?_ ?_, ?_⟩
  · exact mul_nonneg (sub_nonneg.2 hweight₁) (h.nonneg i)
  · exact mul_nonneg hweight₀ (tailWeight_nonneg h hk i)
  · have hmean := sum_mixedWeight s level weight p z (fun _ => 1) k
    simp only [mul_one, h.sum, sum_tailWeight] at hmean
    rw [hmean]
    ring

/-- The mixed gradient, wherever the tail begins, component by component. -/
theorem mix_tailGradient (γ : Fin n → Fin d → K) (k : Fin n) :
    List.zipWith (RiskMeasure.mix weight)
        (Realizations.family z (fun i => List.ofFn (γ i)) p).meanGradient
        ((Realizations.family z (fun i => List.ofFn (γ i)) p).tailGradient s level k) =
      List.ofFn fun j => ∑ i, mixedWeight s level weight p z k i * γ i j := by
  refine Scalar.eq_ofFn_of_dot (length_mix_tailGradient z γ p s level weight k) fun y => ?_
  rw [dot_mix_tailGradient]
  simp only [Finset.mul_sum, Finset.sum_mul, mul_assoc]
  exact Finset.sum_comm

end Mixtures

/-! ## Aggregates -/

namespace Realizations

variable {n : ℕ} {s : Sense} {level : K} {p z : Fin n → K}

/-- Whatever the sort has returned, the beginning of the tail does not depend on the gradients. -/
theorem tailStartAlong_congr (g g' : Fin n → List K) (order : List ℕ) :
    (family z g p).tailStartAlong s order level =
      (family z g' p).tailStartAlong s order level := by
  have hreaching : (family z g p).reaching (1 - level) 0 (fromBest s order) =
      (family z g' p).reaching (1 - level) 0 (fromBest s order) := reaching_congr (by rfl) _ _
  simp only [tailStartAlong, Scalar.one_eq, Scalar.zero_eq, hreaching]

end Realizations

namespace RiskMeasure

open Realizations

variable {n d : ℕ} {s : Sense} {level weight : K} {p z : Fin n → K}

/-- The mixture along a sorted order: value and gradient with the weights at the beginning of the
tail. -/
theorem mixtureAlong_family {order : List ℕ} {k : Fin n}
    (hk : (family z (fun _ => []) p).tailStartAlong s order level = some (k : ℕ))
    (γ : Fin n → Fin d → K) :
    mixtureAlong order level weight s (family z (fun i => List.ofFn (γ i)) p) =
      .ok (∑ i, mixedWeight s level weight p z k i * z i,
        List.ofFn fun j => ∑ i, mixedWeight s level weight p z k i * γ i j) := by
  have hk' : (family z (fun i => List.ofFn (γ i)) p).tailStartAlong s order level =
      some (k : ℕ) := (tailStartAlong_congr _ _ _).trans hk
  simp only [mixtureAlong, hk', mix_tailValue, mix_tailGradient]

/-- Along a sorted order there are probabilities for all gradients at once. -/
theorem exists_weights_mixtureAlong (h : TailShares p level) (hweight₀ : 0 ≤ weight)
    (hweight₁ : weight ≤ 1) {order : List ℕ}
    (horder : (family z (fun _ => []) p).IsSorting order) :
    ∃ q ∈ stdSimplex K (Fin n), ∀ (d : ℕ) (γ : Fin n → Fin d → K),
      mixtureAlong order level weight s (family z (fun i => List.ofFn (γ i)) p) =
        .ok (∑ i, q i * z i, List.ofFn fun j => ∑ i, q i * γ i j) := by
  obtain ⟨k, hk, habove, -⟩ := tailStartAlong_family (fun _ => []) h s horder
  exact ⟨mixedWeight s level weight p z k, mixedWeight_mem_stdSimplex h hweight₀ hweight₁ habove,
    fun d γ => mixtureAlong_family hk γ⟩

theorem readGradients_matrix {gradients : Datum K} {γ : Fin n → Fin d → K}
    (h : gradients.block = .ok ⟨[n, d], (List.ofFn fun i => List.ofFn (γ i)).flatten⟩) :
    readGradients gradients = .ok (true, List.ofFn fun i => List.ofFn (γ i)) := by
  simp only [readGradients, h, Except.mapError, bind, Except.bind, pure, Except.pure, Block.rows,
    Block.rowsOf_flatten]

theorem readGradients_numbers {gradients : Datum K} {γ : Fin n → K}
    (h : gradients.block = .ok ⟨[n], List.ofFn γ⟩) :
    readGradients gradients = .ok (false, List.ofFn fun i => List.ofFn fun _ : Fin 1 => γ i) := by
  simp only [readGradients, h, Except.mapError, bind, Except.bind, pure, Except.pure,
    List.map_ofFn]
  rfl

/-- Values and gradients are put together with one vector of probabilities, which is there before
the gradients are: for each order that sorts the values one for all gradients, for the order that
the sort does return also one for all data that read as the values, some gradients and the
probabilities. -/
theorem value_and_gradient_share_weights (s : Sense) (weight : K) (z : Fin n → K)
    (h : TailShares p level) (hweight₀ : 0 ≤ weight) (hweight₁ : weight ≤ 1) :
    (∀ order, (family z (fun _ => []) p).IsSorting order → ∃ q ∈ stdSimplex K (Fin n),
      ∀ (d : ℕ) (γ : Fin n → Fin d → K),
        mixtureAlong order level weight s (family z (fun i => List.ofFn (γ i)) p) =
          .ok (∑ i, q i * z i, List.ofFn fun j => ∑ i, q i * γ i j)) ∧
    ∃ q ∈ stdSimplex K (Fin n),
      (∀ (d : ℕ) (γ : Fin n → Fin d → K),
        (averageAtRisk level weight).aggregate s (family z (fun i => List.ofFn (γ i)) p) =
          .ok (∑ i, q i * z i, List.ofFn fun j => ∑ i, q i * γ i j)) ∧
      ∀ values weights, values.block = .ok ⟨[n], List.ofFn z⟩ →
        readWeights n weights = .ok (List.ofFn p) →
        (∀ (d : ℕ) (γ : Fin n → Fin d → K) gradients,
          gradients.block = .ok ⟨[n, d], (List.ofFn fun i => List.ofFn (γ i)).flatten⟩ →
          (averageAtRisk level weight).aggregateData s values gradients weights =
            .ok (∑ i, q i * z i, .vector (List.ofFn fun j => ∑ i, q i * γ i j))) ∧
        ∀ (γ : Fin n → K) gradients, gradients.block = .ok ⟨[n], List.ofFn γ⟩ →
          (averageAtRisk level weight).aggregateData s values gradients weights =
            .ok (∑ i, q i * z i, .number (∑ i, q i * γ i)) := by
  obtain ⟨q, hq, hmixture⟩ :=
    exists_weights_mixtureAlong (s := s) h hweight₀ hweight₁ (isSorting_increasing _)
  have haggregate : ∀ (d : ℕ) (γ : Fin n → Fin d → K),
      (averageAtRisk level weight).aggregate s (family z (fun i => List.ofFn (γ i)) p) =
        .ok (∑ i, q i * z i, List.ofFn fun j => ∑ i, q i * γ i j) :=
    fun d γ => (aggregate_eq_mixtureAlong _ _ _ _).trans (hmixture d γ)
  refine ⟨fun order horder => exists_weights_mixtureAlong h hweight₀ hweight₁ horder, q, hq,
    haggregate, fun values weights hvalues hweights => ⟨?_, ?_⟩⟩
  · intro d γ gradients hgradients
    exact aggregateData_family hvalues (readGradients_matrix hgradients) hweights (haggregate d γ)
  · intro γ gradients hgradients
    rw [aggregateData_family hvalues (readGradients_numbers hgradients) hweights
      (haggregate 1 fun i _ => γ i)]
    simp

/-- The two worst of three costs tie, and the sort may return them in either order: along each
order, and for gradients handed in as rows, there are probabilities for value and gradient. -/
theorem value_and_gradient_share_weights_tied :
    TailShares ![(1 / 4 : ℚ), 1 / 4, 1 / 2] (1 / 4) ∧ (0 : ℚ) ≤ 1 / 2 ∧ (1 / 2 : ℚ) ≤ 1 ∧
      (family ![(1 : ℚ), 1, 0] (fun _ => []) ![1 / 4, 1 / 4, 1 / 2]).IsSorting [2, 1, 0] ∧
      (∃ q ∈ stdSimplex ℚ (Fin 3),
        mixtureAlong [2, 1, 0] (1 / 4) (1 / 2) .minimize (family ![(1 : ℚ), 1, 0]
          (fun i => List.ofFn (![![1, 0], ![0, 1], ![1, 1]] i)) ![1 / 4, 1 / 4, 1 / 2]) =
            .ok (∑ i, q i * ![(1 : ℚ), 1, 0] i,
              List.ofFn fun j => ∑ i, q i * ![![1, 0], ![0, 1], ![1, 1]] i j)) ∧
      ∃ q ∈ stdSimplex ℚ (Fin 3),
        (averageAtRisk (1 / 4) (1 / 2)).aggregateData .minimize (.list ([1, 1, 0].map .real))
          (.list [.list [.real 1, .real 0], .list [.real 0, .real 1], .list [.real 1, .real 1]])
          (.list ([1 / 4, 1 / 4, 1 / 2].map .real)) =
            .ok (∑ i, q i * ![(1 : ℚ), 1, 0] i,
              .vector (List.ofFn fun j => ∑ i, q i * ![![1, 0], ![0, 1], ![1, 1]] i j)) := by
  have hshares : TailShares ![(1 / 4 : ℚ), 1 / 4, 1 / 2] (1 / 4) :=
    ⟨fun i => by fin_cases i <;> norm_num, by norm_num [Fin.sum_univ_succ], by norm_num,
      by norm_num⟩
  have hsorting : (family ![(1 : ℚ), 1, 0] (fun _ => []) ![1 / 4, 1 / 4, 1 / 2]).IsSorting
      [2, 1, 0] :=
    ⟨List.reverse_perm [0, 1, 2], by simp [family, value]⟩
  obtain ⟨halong, q, hq, -, hdata⟩ := value_and_gradient_share_weights .minimize (1 / 2)
    ![(1 : ℚ), 1, 0] hshares (by norm_num) (by norm_num)
  obtain ⟨q', hq', hmixture⟩ := halong _ hsorting
  refine ⟨hshares, by norm_num, by norm_num, hsorting, ⟨q', hq', hmixture 2 _⟩, q, hq,
    (hdata _ _ ?_ ?_).1 2 _ _ rfl⟩
  · exact Datum.block_reals [1, 1, 0]
  · simp only [readWeights, Datum.block_reals]
    rfl

end RiskMeasure

end DualDynamic
