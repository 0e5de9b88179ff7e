import DualDynamic.Simulation

/-!
# Evaluating a policy

The value of a policy is estimated from simulated passes and compared with the bound on the optimal
value. The gap is the distance between the bound and the far end of the confidence interval,
relative to the bound. There is none to speak of if there is no bound, if the bound is
zero, or if the measure of risk is not neutral: then it is minus one.
-/

namespace DualDynamic

/-- How a policy is evaluated. -/
structure EvaluationPlan (K : Type) where
  simulations : Int
  /-- The confidence in percent. -/
  percentile : K
  /-- The seed of the stream; without one, all evaluations follow the same paths. -/
  seed : Datum K := .absent
  query : List String := []

/-- The usual plan. -/
def EvaluationPlan.standard {K : Type} [Scalar K] : EvaluationPlan K :=
  { simulations := 3000, percentile := Scalar.ofInt 95 }

/-- What is known of a policy. -/
structure Evaluation (K : Type) where
  bound : Option K
  passes : List (Pass K)
  interval : Option (K × K)
  gap : K

namespace Evaluation

variable {K : Type} [Numeral K]

/-- The text of an evaluation. -/
def describe (g : PolicyGraph K) : String := "<Evaluation of " ++ g.describe ++ ">"

/-- The gap that stands for none. -/
def noGap : K := -Scalar.one

/-- The relative gap between a bound and an interval or, without one, the first of some values. -/
def relativeGap (sense : Sense) (measure : RiskMeasure K) (bound : Option K)
    (interval : Option (K × K)) (values : Option (List K)) : Except (Fault K) K :=
  match bound with
  | none => .ok noGap
  | some b =>
    if Scalar.eq b Scalar.zero || !measure.isNeutral then .ok noGap
    else
      match interval, sense, values with
      | some (_, high), .minimize, _ => .ok (Scalar.abs ((high - b) / b))
      | some (low, _), .maximize, _ => .ok (Scalar.abs ((b - low) / b))
      | none, _, some (x :: _) => .ok (Scalar.abs ((x - b) / b))
      | none, _, some [] => .error .outOfRange
      | none, _, none => .error .badType

/-- The stream of an evaluation. -/
def stream : Datum K → Except (Fault K) MersenneTwister
  | .absent => .ok Seed.evaluation
  | d => (Seed.ofDatum d).map Seed.stream

/-- Evaluates the policy of a graph. Several simulations have a confidence interval. -/
def run (engine : Engine K) (plan : EvaluationPlan K) : Run K (PolicyGraph K) (Evaluation K) := do
  if plan.simulations < 1 then throw .simulations
  let stream ← Step.ofExcept (stream plan.seed)
  let passes ← Simulated.onGraph stream
    (Simulated.passes engine plan.query plan.simulations.toNat)
  let g ← Run.part
  let values := passes.map Pass.value
  let interval ← if plan.simulations == 1 then pure none
    else (Step.ofExcept (engine.interval values plan.percentile)).map some
  let gap ← Step.ofExcept (relativeGap g.sense g.measure g.bound interval (some values))
  return { bound := g.bound, passes, interval, gap }

end Evaluation

end DualDynamic
