import DualDynamic.Proofs.RiskMeasure.Tail
import DualDynamic.Proofs.Datum

/-!
# The value of a mixture

A mixture gives realizations the weighted mean of their expectation and their average value at risk
(`mixture_value`). Which realization the tail begins at depends on how the sort treats equal values,
and so does the gradient; the value does not. Data handed in are read first: without weights all
realizations are equally likely.
-/

namespace DualDynamic

variable {K : Type} [ExactNumeral K]

theorem IsAverageAtRisk.unique {ι : Type} [Fintype ι] {s : Sense} {level : K} {p z : ι → K}
    {m m' : K} (h : IsAverageAtRisk s level p z m) (h' : IsAverageAtRisk s level p z m') :
    m = m' := by
  cases s with
  | minimize => exact IsLeast.unique h h'
  | maximize => exact IsGreatest.unique h h'

namespace RiskMeasure

open Realizations

/-- The aggregate of a mixture when `order` is what the sort has returned. -/
def mixtureAlong (order : List ℕ) (level weight : K) (s : Sense) (r : Realizations K) :
    Except (Fault K) (K × List K) :=
  match r.tailStartAlong s order level with
  | none => .error .outOfRange
  | some start =>
    .ok (mix weight r.meanValue (r.tailValue s level start),
      List.zipWith (mix weight) r.meanGradient (r.tailGradient s level start))

theorem aggregate_eq_mixtureAlong (level weight : K) (s : Sense) (r : Realizations K) :
    (averageAtRisk level weight).aggregate s r =
      mixtureAlong r.increasing level weight s r := by
  rw [aggregate, tailStart_eq]
  rfl

variable {n : ℕ} {z p : Fin n → K} {level : K}

/-- Along every order that sorts the values, the mixture has a value: the one of the tail is the
average value at risk. -/
theorem exists_mixtureAlong (g : Fin n → List K) (h : TailShares p level) (weight : K) (s : Sense)
    {order : List ℕ} (horder : (family z g p).IsSorting order) :
    ∃ m G, IsAverageAtRisk s level p z m ∧
      mixtureAlong order level weight s (family z g p) =
        .ok ((1 - weight) * ∑ i, p i * z i + weight * m, G) := by
  obtain ⟨k, hk, habove, hfrom⟩ := tailStartAlong_family g h s horder
  set r := family z g p with hr
  refine ⟨r.tailValue s level k, List.zipWith (mix weight) r.meanGradient (r.tailGradient s level k),
    isAverageAtRisk_tailValue g h habove hfrom, ?_⟩
  rw [mixtureAlong, hk]
  simp only [mix, hr, meanValue_family, Scalar.one_eq]

/-- Data that read as a family are aggregated as one. -/
theorem aggregateData_family {g : Fin n → List K} {values gradients weights : Datum K}
    {vectors : Bool} (hvalues : values.block = .ok ⟨[n], List.ofFn z⟩)
    (hgradients : readGradients gradients = .ok (vectors, List.ofFn g))
    (hweights : readWeights n weights = .ok (List.ofFn p)) {weight : K} {s : Sense} {v : K}
    {G : List K} (h : (averageAtRisk level weight).aggregate s (family z g p) = .ok (v, G)) :
    (averageAtRisk level weight).aggregateData s values gradients weights =
      .ok (v, if vectors then .vector G else .number (G.headD 0)) := by
  have hweighted : (averageAtRisk level weight).aggregateWeighted s (List.ofFn z) (List.ofFn g)
      weights = .ok (v, G) := by
    simp only [aggregateWeighted, List.length_ofFn, bne_self_eq_false, Bool.false_eq_true, if_false,
      hweights]
    exact h
  simp only [aggregateData, hvalues, hgradients, Except.mapError, bind, Except.bind, pure,
    Except.pure, hweighted, Scalar.zero_eq]

/-- The value of a mixture, whatever order the sort gives to equal values: the mean and the average
value at risk of the values, mixed with the weight. -/
theorem mixture_value (z : Fin n → K) (g : Fin n → List K) (weight : K) (s : Sense)
    (h : TailShares p level) :
    ∃ m, IsAverageAtRisk s level p z m ∧
      (∀ order, (family z g p).IsSorting order →
        ∃ G, mixtureAlong order level weight s (family z g p) =
          .ok ((1 - weight) * ∑ i, p i * z i + weight * m, G)) ∧
      ∀ values gradients weights vectors, values.block = .ok ⟨[n], List.ofFn z⟩ →
        readGradients gradients = .ok (vectors, List.ofFn g) →
        readWeights n weights = .ok (List.ofFn p) →
        ∃ G, (averageAtRisk level weight).aggregateData s values gradients weights =
          .ok ((1 - weight) * ∑ i, p i * z i + weight * m, G) := by
  obtain ⟨m, G, hm, hvalue⟩ :=
    exists_mixtureAlong g h weight s (isSorting_increasing (family z g p))
  refine ⟨m, hm, fun order horder => ?_, fun values gradients weights vectors hv hg hw => ?_⟩
  · obtain ⟨m', G', hm', hvalue'⟩ := exists_mixtureAlong g h weight s horder
    obtain rfl := hm.unique hm'
    exact ⟨G', hvalue'⟩
  · rw [← aggregate_eq_mixtureAlong] at hvalue
    exact ⟨_, aggregateData_family hv hg hw hvalue⟩

/-- Of three profits the first two tie, and the sort returns them in the other order: half of the
mixture is the mean, half the mean over the worst half. -/
theorem mixture_value_tied :
    TailShares ![(1 / 8 : ℚ), 1 / 8, 3 / 4] (1 / 2) ∧
      (family ![(0 : ℚ), 0, 1] (fun _ => [1]) ![1 / 8, 1 / 8, 3 / 4]).IsSorting [1, 0, 2] ∧
      IsAverageAtRisk .maximize (1 / 2) ![(1 / 8 : ℚ), 1 / 8, 3 / 4] ![0, 0, 1] (1 / 2) ∧
      (∃ G, mixtureAlong [1, 0, 2] (1 / 2) (1 / 2) .maximize
        (family ![(0 : ℚ), 0, 1] (fun _ => [1]) ![1 / 8, 1 / 8, 3 / 4]) = .ok (5 / 8, G)) ∧
      ∃ G, (averageAtRisk (1 / 2) (1 / 2)).aggregateData .maximize
        (.list ([0, 0, 1].map .real)) (.list ([1, 1, 1].map .real))
        (.list ([1 / 8, 1 / 8, 3 / 4].map .real)) = .ok ((5 / 8 : ℚ), G) := by
  have hshares : TailShares ![(1 / 8 : ℚ), 1 / 8, 3 / 4] (1 / 2) :=
    ⟨fun i => by fin_cases i <;> norm_num, by simp [Fin.sum_univ_succ]; norm_num, by norm_num,
      by norm_num⟩
  set r : Realizations ℚ := family ![0, 0, 1] (fun _ => [1]) ![1 / 8, 1 / 8, 3 / 4] with hr
  have hsorting : r.IsSorting [1, 0, 2] :=
    ⟨by simpa [hr, List.range_succ] using List.Perm.swap 0 1 [2],
      by simp [hr, family, value]⟩
  have hworst : IsAverageAtRisk .maximize (1 / 2) ![(1 / 8 : ℚ), 1 / 8, 3 / 4] ![0, 0, 1] (1 / 2) := by
    refine isAverageAtRisk_iff.2 ⟨⟨1, by norm_num [tailObjective, Fin.sum_univ_succ]⟩, fun η => ?_⟩
    simp only [Sense.Bounds, tailObjective, Fin.sum_univ_three, Matrix.cons_val_zero,
      Matrix.cons_val_one, Matrix.cons_val_two, Matrix.head_cons, Matrix.tail_cons]
    linarith [le_max_left (η - 0) 0, le_max_left (η - 1) 0, le_max_right (η - 1) 0]
  obtain ⟨m, hm, halong, hdata⟩ :=
    mixture_value ![(0 : ℚ), 0, 1] (fun _ => [1]) (1 / 2) .maximize hshares
  obtain rfl := hm.unique hworst
  have hmixed : (1 - 1 / 2 : ℚ) * ∑ i, ![(1 / 8 : ℚ), 1 / 8, 3 / 4] i * ![(0 : ℚ), 0, 1] i +
      1 / 2 * (1 / 2) = 5 / 8 := by
    norm_num [Fin.sum_univ_succ]
  rw [hmixed] at halong hdata
  refine ⟨hshares, hsorting, hworst, halong _ hsorting, hdata _ _ _ false ?_ ?_ ?_⟩
  · exact Datum.block_reals [0, 0, 1]
  · simp only [readGradients, Datum.block_reals]
    rfl
  · simp only [readWeights, Datum.block_reals]
    rfl

end RiskMeasure

end DualDynamic
