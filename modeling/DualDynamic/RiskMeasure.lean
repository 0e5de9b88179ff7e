import DualDynamic.Step

/-!
# Risk measures

A risk measure aggregates the optimal values and the gradients of all realizations into one value
and one gradient. It is the expectation, or a mixture of the expectation with the average value
at risk: the mean of the worst share `level` of the probability. Worst is highest for costs and
lowest for profits.

The tail mean starts at the realization where the probability of all better ones, taken in order
from the best, first reaches `1 - level`; worse realizations add their excess over it. Value and
gradient are put together with the same weights.
-/

namespace DualDynamic

/-- How realizations are aggregated. -/
inductive RiskMeasure (K : Type) where
  | expectation
  /-- `weight` times the average value at risk and the rest times the expectation. -/
  | averageAtRisk (level weight : K)
  deriving Repr

/-- Optimal values, gradients and probabilities of realizations, position by position. -/
structure Realizations (K : Type) where
  values : List K
  gradients : List (List K)
  weights : List K
  deriving Repr

namespace Realizations

variable {K : Type} [Scalar K]

/-- The number of state variables, zero without realizations. -/
def width (r : Realizations K) : Nat := (r.gradients.head?.map List.length).getD 0

/-- The sum of vectors with weights, from left to right. -/
def weightedSum (width : Nat) (weights : List K) (vectors : List (List K)) : List K :=
  (List.zip weights vectors).foldl (fun total (w, v) => Scalar.addAll total (Scalar.scale w v))
    (List.replicate width Scalar.zero)

/-- The mean of the values. -/
def meanValue (r : Realizations K) : K := Scalar.dot r.weights r.values

/-- The mean of the gradients. -/
def meanGradient (r : Realizations K) : List K := weightedSum r.width r.weights r.gradients

/-- The value at a position. -/
def value (r : Realizations K) (i : Nat) : K := r.values.getD i Scalar.zero

/-- The gradient at a position. -/
def gradient (r : Realizations K) (i : Nat) : List K := r.gradients.getD i []

/-- The weight at a position. -/
def weight (r : Realizations K) (i : Nat) : K := r.weights.getD i Scalar.zero

/-! ## The tail -/

/-- The positions in increasing order of values; NaN comes last. -/
def increasing (r : Realizations K) : List Nat :=
  (List.range r.values.length).mergeSort fun i j =>
    Scalar.le (r.value i) (r.value j) || Scalar.isNaN (r.value j)

/-- The positions from the best to the worst. -/
def bestFirst (sense : Sense) (r : Realizations K) : List Nat :=
  match sense with
  | .minimize => r.increasing
  | .maximize => r.increasing.reverse

/-- The first position at which the accumulated weight reaches a level. -/
def reaching (r : Realizations K) (level : K) : K → List Nat → Option Nat
  | _, [] => none
  | reached, i :: rest =>
    let reached := reached + r.weight i
    if Scalar.le level reached then some i else reaching r level reached rest

/-- The position at which the tail begins: where the accumulated weight of the better realizations
reaches `1 - level`, or the worst one if rounding keeps it below. -/
def tailStart (sense : Sense) (level : K) (r : Realizations K) : Option Nat :=
  let order := r.bestFirst sense
  match r.reaching (Scalar.one - level) Scalar.zero order with
  | some i => some i
  | none => order.getLast?

/-- Whether a value is worse than the one at the beginning of the tail. -/
def exceeds (sense : Sense) (start value : K) : Bool :=
  Scalar.lt Scalar.zero (Scalar.ofInt sense.sign * (value - start))

/-- The positions of the realizations that are worse than the beginning of the tail. -/
def excess (sense : Sense) (start : Nat) (r : Realizations K) : List Nat :=
  (List.range r.values.length).filter fun i => exceeds sense (r.value start) (r.value i)

/-- The mean value of the tail that begins at a position. -/
def tailValue (sense : Sense) (level : K) (start : Nat) (r : Realizations K) : K :=
  let worse := r.excess sense start
  r.value start +
    Scalar.dot (worse.map r.weight) (worse.map fun i => r.value i - r.value start) / level

/-- The mean gradient of the tail that begins at a position. -/
def tailGradient (sense : Sense) (level : K) (start : Nat) (r : Realizations K) : List K :=
  let worse := r.excess sense start
  let distances := worse.map fun i => List.zipWith (· - ·) (r.gradient i) (r.gradient start)
  let total := weightedSum r.width (worse.map r.weight) distances
  Scalar.addAll (r.gradient start) (total.map (· / level))

end Realizations

namespace RiskMeasure

variable {K : Type}

section Scalars

variable [Scalar K]

/-- `weight` parts of the second number and the rest of the first one. -/
def mix (weight a b : K) : K := (Scalar.one - weight) * a + weight * b

/-- The aggregated value and gradient. Without realizations there is no tail. -/
def aggregate (m : RiskMeasure K) (sense : Sense) (r : Realizations K) :
    Except (Fault K) (K × List K) :=
  match m with
  | expectation => .ok (r.meanValue, r.meanGradient)
  | averageAtRisk level weight =>
    match r.tailStart sense level with
    | none => .error .outOfRange
    | some start =>
      .ok (mix weight r.meanValue (r.tailValue sense level start),
        List.zipWith (mix weight) r.meanGradient (r.tailGradient sense level start))

/-- Mixtures with a weight in `[0, 1]` and a level in `(0, 1]`. -/
def averageAtRisk? (level weight : K) : Except (Fault K) (RiskMeasure K) :=
  if Scalar.le Scalar.zero weight && Scalar.le weight Scalar.one &&
      Scalar.lt Scalar.zero level && Scalar.le level Scalar.one then
    .ok (averageAtRisk level weight)
  else .error .riskArguments

/-- Whether a measure is the plain expectation. -/
def isNeutral : RiskMeasure K → Bool
  | expectation => true
  | averageAtRisk .. => false

end Scalars

/-! ## Data handed in -/

/-- An aggregated gradient: a vector, or a number if the realizations have numbers for
gradients. -/
inductive Gradient (K : Type) where
  | number (value : K)
  | vector (values : List K)
  deriving Repr

section Reading

variable [Numeral K]

/-- The gradients of realizations, and whether each is a vector. -/
def readGradients (d : Datum K) : Except (Fault K) (Bool × List (List K)) := do
  let block ← d.block.mapError Unreadable.fault
  match block.shape with
  | [_] => return (false, block.entries.map ([·]))
  | [_, _] => return (true, block.rows)
  | _ => throw .badNumber

/-- The weights of `n` realizations, equal ones if none are given. -/
def readWeights (n : Nat) : Datum K → Except (Fault K) (List K)
  | .absent => .ok (List.replicate n (Scalar.one / Scalar.ofNat n))
  | d => do
    let block ← d.block.mapError Unreadable.fault
    if block.shape == [n] then return block.entries else throw .badNumber

/-- The aggregate of values and gradients with weights; there is a gradient for each value. -/
def aggregateWeighted (m : RiskMeasure K) (sense : Sense) (values : List K)
    (gradients : List (List K)) (weights : Datum K) : Except (Fault K) (K × List K) := do
  if gradients.length != values.length then throw .badNumber
  m.aggregate sense ⟨values, gradients, ← readWeights values.length weights⟩

/-- The mean of numbers; of no numbers at all it is no number. -/
def mean (xs : List K) : K := Scalar.sum xs / Scalar.ofNat xs.length

/-- The mean of each component of vectors. -/
def meanVector (vectors : List (List K)) : List K :=
  let width := (vectors.head?.map List.length).getD 0
  (List.range width).map fun j => mean (vectors.map fun v => v.getD j Scalar.zero)

/-- The aggregate of data handed in: values, gradients and weights. Without weights the
expectation is the mean of the values and the mean of the gradients, however many there are of
each. -/
def aggregateData (m : RiskMeasure K) (sense : Sense) (values gradients weights : Datum K) :
    Except (Fault K) (K × Gradient K) := do
  let block ← values.block.mapError Unreadable.fault
  let [_] := block.shape | throw .badType
  let (vectors, rows) ← readGradients gradients
  let (value, gradient) ← match m, weights with
    | expectation, .absent =>
      pure (mean block.entries, if vectors then meanVector rows else [mean rows.flatten])
    | _, _ => m.aggregateWeighted sense block.entries rows weights
  return (value, if vectors then .vector gradient else .number (gradient.headD Scalar.zero))

end Reading

end RiskMeasure

end DualDynamic
