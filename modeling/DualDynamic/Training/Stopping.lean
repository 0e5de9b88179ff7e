import DualDynamic.Numeral

/-!
# Stopping rules

A training ends after the first iteration at which one of four rules holds, looked at in this order:
enough iterations, enough time, a bound that has stayed equal for long enough, or a gap that is
small enough. A negative gap means that there is none to compare.
-/

namespace DualDynamic

/-- The limits of a training. -/
structure Limits (K : Type) where
  iterations : Int := 10000
  stableIterations : Int := 10000
  time : K
  tolerance : K
  deriving Repr

/-- The usual limits. -/
def Limits.standard {K : Type} [Scalar K] : Limits K :=
  { time := Scalar.ofInt 1000000, tolerance := Scalar.one / Scalar.ofInt 1000 }

/-- What the rules look at. -/
structure Progress (K : Type) where
  iterations : Int
  /-- The number of iterations in a row that left the bound as it was. -/
  stable : Int
  time : K
  /-- The gap of the last evaluation. As long as there was none it counts as infinite. -/
  gap : Option K
  deriving Repr

/-- Why a training ended. -/
inductive StopReason (K : Type) where
  | iterations (limit : Int)
  | time (limit : K)
  | stable (limit : Int)
  | gap (tolerance : K)
  | interrupted
  deriving Repr

namespace StopReason

variable {K : Type} [Numeral K]

/-- The wording of a reason. -/
def text : StopReason K → String
  | iterations limit => "iteration:" ++ toString limit ++ " has reached"
  | time limit => "time:" ++ Numeral.text limit ++ " has reached"
  | stable limit => "stable iteration:" ++ toString limit ++ " has reached"
  | gap tolerance => "convergence tolerance:" ++ Numeral.text tolerance ++ " has reached"
  | interrupted => "interruption by the user"

end StopReason

/-- Whether a gap is small enough. -/
def Limits.meetsGap {K : Type} [Scalar K] (l : Limits K) (gap : Option K) : Bool :=
  match gap with
  | some x => Scalar.le Scalar.zero x && Scalar.le x l.tolerance
  | none => !Scalar.isFinite l.tolerance && Scalar.le Scalar.zero l.tolerance

/-- The first rule that holds. -/
def Limits.check {K : Type} [Scalar K] (l : Limits K) (p : Progress K) : Option (StopReason K) :=
  if l.iterations ≤ p.iterations then some (.iterations l.iterations)
  else if Scalar.le l.time p.time then some (.time l.time)
  else if l.stableIterations ≤ p.stable then some (.stable l.stableIterations)
  else if l.meetsGap p.gap then some (.gap l.tolerance)
  else none

end DualDynamic
