import DualDynamic.Decimal.Rounded
import DualDynamic.Step

/-!
# Cuts

A cut is an affine bound on the cost-to-go of a node: `intercept + coefficients · x` at the
outgoing state `x`, from below or from above. Stage, Markov state and iteration say where it came
from and take no part in its identity: two cuts are the same if they bound the same side by equal
numbers. On floats a cut with a NaN is the same as no cut, itself included.
-/

namespace DualDynamic

/-- An affine bound on a cost-to-go, and where it was found. -/
structure Cut (K : Type) where
  intercept : K
  coefficients : List K
  side : Side
  stage : Option Int := none
  markov : Option Int := none
  iteration : Option Int := none
  deriving Repr

namespace Cut

variable {K : Type}

/-- The number of state variables that the cut is about. -/
def dimension (c : Cut K) : Nat := c.coefficients.length

/-- A cut from data as it was handed in. The side is looked at first, then the intercept, then the
coefficients. -/
def ofData [Numeral K] (side : String) (intercept coefficients : Datum K)
    (stage markov iteration : Option Int) : Except (Fault K) (Cut K) := do
  let some side := Side.ofText? side | throw .cutSide
  let intercept ← intercept.number.mapError Unreadable.fault
  let coefficients ← coefficients.numbers.mapError Unreadable.fault
  return { intercept, coefficients, side, stage, markov, iteration }

section Scalars

variable [Scalar K]

/-- The value of the bound at a state of the right dimension. -/
def evaluate (c : Cut K) (state : List K) : K := c.intercept + Scalar.dot c.coefficients state

/-- Whether two cuts bound the same side by the same numbers. -/
def same (a b : Cut K) : Bool :=
  a.side == b.side && Scalar.eq a.intercept b.intercept &&
    Scalar.eqAll a.coefficients b.coefficients

/-- The cuts with one more, unless it is among them. -/
def insertNew (cuts : List (Cut K)) (c : Cut K) : List (Cut K) :=
  if cuts.any c.same then cuts else cuts ++ [c]

end Scalars

/-- The value of the bound at a state as it was handed in. -/
def evaluateAt [Numeral K] (c : Cut K) (state : Datum K) : Except (Fault K) K := do
  let block ← state.block.mapError Unreadable.fault
  if block.shape == [c.dimension] then return c.evaluate block.entries
  else throw .badNumber

/-! ## Texts -/

/-- The description of a cut. -/
def describe [Numeral K] (c : Cut K) : String :=
  let label := optionText (fun n : Int => toString n)
  "<Cut theta " ++ c.side.text ++ " " ++ Numeral.text c.intercept ++ " + " ++
    Numeral.listText c.coefficients ++ " x, stage " ++ label c.stage ++ ", Markov state " ++
    label c.markov ++ ", iteration " ++ label c.iteration ++ ">"

/-- The side and the numbers of a cut, rounded for a report. -/
def reportText (c : Cut Float) : String :=
  " ".intercalate (c.side.text :: (c.intercept :: c.coefficients).map Decimal.rounded)

end Cut

end DualDynamic
