import DualDynamic.Proofs.RiskMeasure.Tail

/-!
# The length of aggregated gradients

A risk measure puts gradients together entry by entry, the mean from all of them and the tail from the
distances to one of them. So as soon as there is a realization, and all gradients have the same length,
the aggregate has this length too, in exact arithmetic or not.
-/

namespace DualDynamic

variable {K : Type} [Scalar K] {d : ℕ}

namespace Scalar

theorem length_addAll {xs ys : List K} (hx : xs.length = d) (hy : ys.length = d) :
    (Scalar.addAll xs ys).length = d := by simp [Scalar.addAll, hx, hy]

@[simp] theorem length_scale (a : K) (xs : List K) :
    (Scalar.scale a xs).length = xs.length := List.length_map _

end Scalar

namespace Realizations

theorem length_weightedSum {weights : List K} {vectors : List (List K)}
    (h : ∀ v ∈ vectors, v.length = d) : (weightedSum d weights vectors).length = d := by
  unfold weightedSum
  refine List.foldlRecOn (motive := fun total : List K => total.length = d) _ _
    List.length_replicate fun total htotal q hq => ?_
  have hvector : q.2.length = d := h q.2 (List.of_mem_zip hq).2
  exact Scalar.length_addAll htotal ((Scalar.length_scale _ _).trans hvector)

theorem mem_of_reaching {r : Realizations K} {level reached : K} {order : List ℕ} {i : ℕ}
    (h : r.reaching level reached order = some i) : i ∈ order := by
  induction order generalizing reached with
  | nil => cases h
  | cons j order ih =>
    simp only [reaching] at h
    split_ifs at h
    · obtain rfl := Option.some.inj h
      exact List.mem_cons_self
    · exact List.mem_cons_of_mem _ (ih h)

/-- There are realizations, and each has a gradient with `d` entries. -/
structure IsUniform (d : ℕ) (r : Realizations K) : Prop where
  nonempty : r.values ≠ []
  gradients : r.gradients.length = r.values.length
  lengths : ∀ v ∈ r.gradients, v.length = d

namespace IsUniform

variable {r : Realizations K} (hr : r.IsUniform d)
include hr

omit [Scalar K] in
theorem width_eq : r.width = d := by
  have hgradients := hr.gradients
  have hlengths := hr.lengths
  unfold width
  cases hr' : r.gradients with
  | nil =>
    rw [hr', List.length_nil, eq_comm, List.length_eq_zero_iff] at hgradients
    exact absurd hgradients hr.nonempty
  | cons v vectors =>
    rw [hr'] at hlengths
    exact hlengths v (by simp)

omit [Scalar K] in
theorem length_gradient {i : ℕ} (hi : i < r.values.length) : (r.gradient i).length = d := by
  have hlt : i < r.gradients.length := by rwa [hr.gradients]
  rw [gradient, List.getD_eq_getElem _ _ hlt]
  exact hr.lengths _ (List.getElem_mem hlt)

theorem length_meanGradient : r.meanGradient.length = d := by
  rw [meanGradient, hr.width_eq]
  exact length_weightedSum hr.lengths

/-- The tail begins somewhere. -/
theorem exists_tailStart (s : Sense) (level : K) :
    ∃ i < r.values.length, r.tailStart s level = some i := by
  have hlt : ∀ i ∈ r.bestFirst s, i < r.values.length := fun i hi =>
    List.mem_range.1 ((r.bestFirst_perm s).mem_iff.1 hi)
  have hne : r.bestFirst s ≠ [] := by
    intro hnil
    have hlength := (r.bestFirst_perm s).length_eq
    rw [hnil, List.length_nil, List.length_range, eq_comm, List.length_eq_zero_iff] at hlength
    exact hr.nonempty hlength
  unfold tailStart
  cases hreaching : r.reaching (Scalar.one - level) Scalar.zero (r.bestFirst s) with
  | some i => exact ⟨i, hlt i (mem_of_reaching hreaching), by simp only [hreaching]⟩
  | none =>
    refine ⟨(r.bestFirst s).getLast hne, hlt _ (List.getLast_mem hne), ?_⟩
    simp only [hreaching, List.getLast?_eq_some_getLast hne]

theorem length_tailGradient {s : Sense} {level : K} {start : ℕ} (hstart : start < r.values.length) :
    (r.tailGradient s level start).length = d := by
  have hdistances : ∀ v ∈ (r.excess s start).map
      (fun i => List.zipWith (· - ·) (r.gradient i) (r.gradient start)), v.length = d := by
    intro v hv
    obtain ⟨i, hi, rfl⟩ := List.mem_map.1 hv
    have hlt : i < r.values.length := List.mem_range.1 (List.mem_of_mem_filter hi)
    rw [List.length_zipWith, hr.length_gradient hlt, hr.length_gradient hstart, min_self]
  rw [tailGradient, hr.width_eq]
  refine Scalar.length_addAll (hr.length_gradient hstart) ?_
  rw [List.length_map]
  exact length_weightedSum hdistances

end IsUniform

end Realizations

/-- Realizations with gradients of one length are aggregated, to a gradient of this length. -/
theorem RiskMeasure.exists_aggregate (m : RiskMeasure K) (s : Sense) {r : Realizations K}
    (hr : r.IsUniform d) : ∃ value gradient,
      m.aggregate s r = .ok (value, gradient) ∧ gradient.length = d := by
  cases m with
  | expectation => exact ⟨_, _, rfl, hr.length_meanGradient⟩
  | averageAtRisk level weight =>
    obtain ⟨start, hlt, hstart⟩ := hr.exists_tailStart s level
    refine ⟨_, _, by rw [aggregate, hstart], ?_⟩
    rw [List.length_zipWith, hr.length_meanGradient, hr.length_tailGradient hlt, min_self]

end DualDynamic
