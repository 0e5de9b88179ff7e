import DualDynamic.Monitor
import DualDynamic.Subproblem

/-!
# Setting a subproblem up

Before a subproblem is solved, three things are written into its program: the incoming state into
the right hand sides of the linking constraints, one realization into all data with noise, and the
price into the costs that depend on it.
-/

namespace DualDynamic

namespace Action

variable {K : Type} [Scalar K]

/-- The number that a rule gives for the value `w` of a name. -/
def numberOf (key : String) (w : Datum K) (rule : Formula K) : Except (Fault K) K := do
  match ← rule.evaluate (Formula.only key w) with
  | .real x => return x
  | _ => throw .badType

/-- The name of the support point in actions. -/
def pointName : String := "w"

/-- Numbers that data can be set to: no NaN, and no infinity for costs and right hand sides. -/
def checkFinite (x : K) : Except (Fault K) K :=
  if Scalar.isFinite x then .ok x else .error .refusedAttribute

/-- Numbers that bounds can be set to. -/
def checkNumber (x : K) : Except (Fault K) K :=
  if Scalar.isNaN x then .error .refusedAttribute else .ok x

/-- The number for a support point, after the target has been found. -/
def valueFor (w : Datum K) (check : K → Except (Fault K) K) (target : Except (Fault K) Nat)
    (rule : Formula K) : Except (Fault K) (Nat × K) := do
  let i ← target
  let x ← numberOf pointName w rule
  return (i, ← check x)

/-- Changes the program of a subproblem. -/
def changeProgram (f : LinearProgram K → LinearProgram K) : Run K (Subproblem K) Unit :=
  Run.change fun m => { m with program := f m.program }

/-- Performs an action for a support point. -/
def perform (w : Datum K) : Action K → Run K (Subproblem K) Unit
  | rhs c rule => do
    let m ← Run.part
    let (i, x) ← Step.ofExcept (valueFor w checkFinite (m.constraintNamed c) rule)
    changeProgram (LinearProgram.setRhs i x)
  | cost v rule => do
    let m ← Run.part
    let (i, x) ← Step.ofExcept (valueFor w checkFinite (m.variableNamed v) rule)
    changeProgram (LinearProgram.setCost i x)
  | lower v rule => do
    let m ← Run.part
    let (i, x) ← Step.ofExcept (valueFor w checkNumber (m.variableNamed v) rule)
    changeProgram (LinearProgram.setLower i (LinearProgram.lowerBound x))
  | upper v rule => do
    let m ← Run.part
    let (i, x) ← Step.ofExcept (valueFor w checkNumber (m.variableNamed v) rule)
    changeProgram (LinearProgram.setUpper i (LinearProgram.upperBound x))
  | coefficient c v rule => do
    let m ← Run.part
    let row ← Step.ofExcept (m.constraintNamed c)
    let (i, x) ← Step.ofExcept (valueFor w checkFinite (m.variableNamed v) rule)
    changeProgram (LinearProgram.setCoefficient row i x)
  | interruptAt n => do
    Run.count fun k => { k with ticks := k.ticks + 1 }
    if ((← get).monitor.ticks : Int) == n then throw .interrupted

end Action

namespace Subproblem

variable {K : Type}

/-- Writes values to targets, pair by pair. -/
def writeAll (write : Nat → K → LinearProgram K → LinearProgram K) (targets : List Nat)
    (values : List K) (p : LinearProgram K) : LinearProgram K :=
  (List.zip targets values).foldl (fun p (i, x) => write i x p) p

section Scalars

variable [Scalar K]

/-- Writes realization `k` of one noise. -/
def writeNoise (write : Nat → K → LinearProgram K → LinearProgram K) (k : Int) :
    Noise K → Run K (Subproblem K) Unit
  | .one i scenarios => do
    let x ← Step.ofExcept (Step.itemAt scenarios k)
    let x ← Step.ofExcept (Action.checkFinite x)
    Action.changeProgram (write i x)
  | .group is scenarios => do
    let xs ← Step.ofExcept (Step.itemAt scenarios k)
    Action.changeProgram (writeAll write is xs)

/-- Writes realization `k` of a coefficient. -/
def writeCoefficient (k : Int) (noise : Nat × Nat × List K) : Run K (Subproblem K) Unit := do
  let x ← Step.ofExcept (Step.itemAt noise.2.2 k)
  Action.changeProgram (LinearProgram.setCoefficient noise.1 noise.2.1 x)

/-- Performs the actions of a parameterization for its support point `k`. -/
def performAt (k : Int) (p : Parameterization K) : Run K (Subproblem K) Unit := do
  let w ← Step.ofExcept (Step.itemAt p.support k)
  Step.each p.actions (Action.perform w)

/-- Writes realization `k` of all noise: coefficients, right hand sides, costs and then the
parameterizations, each in the order in which they were added. -/
def setRealization (k : Int) : Run K (Subproblem K) Unit := do
  let m ← Run.part
  Step.each m.coefficientNoise (writeCoefficient k)
  Step.each m.rhsNoise (writeNoise LinearProgram.setRhs k)
  Step.each m.costNoise (writeNoise LinearProgram.setCost k)
  Step.each m.parameterizations (performAt k)

/-- The name of the price in the rules for costs. -/
def priceName : String := "price"

/-- Writes a price into the costs that depend on it. -/
def setPrice (price : Option K) : Run K (Subproblem K) Unit := do
  let m ← Run.part
  Step.each m.priceObjective fun (i, rule) => do
    let x ← Step.ofExcept (Action.numberOf priceName (Formula.priceDatum price) rule)
    let x ← Step.ofExcept (Action.checkFinite x)
    Action.changeProgram (LinearProgram.setCost i x)

/-- Ties the local copies to the initial values, once. -/
def linkStates : Build K Unit := do
  let m ← get
  if m.links.isEmpty then
    let rows := List.zip m.localCopies m.initialValues
    let links ← (rows.zipIdx).mapM fun ((i, x), n) =>
      pushConstraint
        { name := member "link_constrs" n, terms := [(i, Scalar.one)], relation := .equal,
          rhs := x }
    modify fun m => { m with links := links }

/-- Writes an incoming state into the linking constraints, if there are any. -/
def setIncoming (state : List K) : Run K (Subproblem K) Unit := do
  let m ← Run.part
  if m.links.isEmpty then return
  else if state.length != m.links.length then throw .badNumber
  else Action.changeProgram (writeAll LinearProgram.setRhs m.links state)

end Scalars

end Subproblem

end DualDynamic
