import DualDynamic.Fault

/-!
# Confidence intervals

The interval around the mean of a sample that holds the true mean with a given confidence, from
the quantiles of Student's distribution.

The distribution function with `n` degrees of freedom is a finite sum in the angle whose tangent is
`t / √n`; the quantile is found by halving an interval of angles.
-/

namespace DualDynamic.Interval

/-- Half a turn. -/
def pi : Float := 3.141592653589793

/-- The terms `1, f₁ c, f₁ f₂ c², …` with `fᵢ = (2 i - 1 + odd) / (2 i + odd)`, summed. -/
def series (odd : Float) (c : Float) (terms : Nat) : Float :=
  let step := fun (acc : Float × Float) (i : Nat) =>
    let k := 2.0 * (i + 1).toFloat
    let term := acc.2 * c * ((k - 1.0 + odd) / (k + odd))
    (acc.1 + term, term)
  ((List.range terms).foldl step (1.0, 1.0)).1

/-- The probability of the interval between `-t` and `t`, where `angle` is the angle of `t`. -/
def centralProbability (n : Nat) (angle : Float) : Float :=
  let s := angle.sin
  let c := angle.cos
  if n % 2 == 0 then s * series 0.0 (c * c) (n / 2 - 1)
  else if n == 1 then 2.0 / pi * angle
  else 2.0 / pi * (angle + s * c * series 1.0 (c * c) ((n - 3) / 2))

/-- Halves an interval of angles until the central probability is met. -/
def bisect (n : Nat) (target : Float) : Nat → Float → Float → Float
  | 0, low, high => (low + high) / 2.0
  | fuel + 1, low, high =>
    let middle := (low + high) / 2.0
    if centralProbability n middle < target then bisect n target fuel middle high
    else bisect n target fuel low middle

/-- The `q`-quantile of Student's distribution with `n` degrees of freedom. -/
def quantile (n : Nat) (q : Float) : Float :=
  if n == 0 || q < 0.0 || 1.0 < q || q.isNaN then 0.0 / 0.0
  else if q == 0.0 then -1.0 / 0.0
  else if q == 1.0 then 1.0 / 0.0
  else
    let target := 2.0 * q - 1.0
    if target == 0.0 then 0.0
    else
      let size := (bisect n target.abs 200 0.0 (pi / 2.0)).tan * n.toFloat.sqrt
      if target < 0.0 then -size else size

/-- The mean of a sample. -/
def mean (xs : List Float) : Float := xs.foldl (· + ·) 0.0 / xs.length.toFloat

/-- The standard deviation of a sample, with one degree of freedom less than observations. -/
def deviation (xs : List Float) : Float :=
  let m := mean xs
  (xs.foldl (fun total x => total + (x - m) * (x - m)) 0.0 / (xs.length.toFloat - 1.0)).sqrt

/-- The confidence interval of the mean at a confidence in percent. A single observation has
none. -/
def ofSample (xs : List Float) (percentile : Float) : Except (Fault Float) (Float × Float) :=
  let center := mean xs
  let error := deviation xs / xs.length.toFloat.sqrt
  let factor := quantile (xs.length - 1) (1.0 - (1.0 - percentile / 100.0) / 2.0)
  if xs.length == 1 then .error .singleObservation
  else .ok (center - factor * error, center + factor * error)

end DualDynamic.Interval
