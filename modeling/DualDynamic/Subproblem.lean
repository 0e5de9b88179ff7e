import DualDynamic.Formula
import DualDynamic.LinearProgram
import DualDynamic.Probability

/-!
# Subproblems

The linear program of one node of a policy graph. Besides ordinary variables it has state
variables, each with a local copy that receives the incoming state, and its data may depend on
noise with finitely many realizations: right hand sides, coefficients and costs with one value per
realization, and parameterizations that write values computed from a support point.

All noise of a subproblem has the same number of realizations, fixed by the first noise that is
added. A call that fails may leave variables and constraints behind in the program; what is
registered as state or noise is said by the order of the steps of each call.
-/

namespace DualDynamic

/-! ## Parts -/

/-- Values of one target, or of several targets at once, for each realization. Targets are
positions of variables or constraints. -/
inductive Noise (K : Type) where
  | one (target : Nat) (scenarios : List K)
  | group (targets : List Nat) (scenarios : List (List K))
  deriving Repr

/-- A change that is made to a subproblem by a rule. -/
inductive Action (K : Type) where
  | rhs (constr : String) (value : Formula K)
  | cost (var : String) (value : Formula K)
  | lower (var : String) (value : Formula K)
  | upper (var : String) (value : Formula K)
  | coefficient (constr var : String) (value : Formula K)
  /-- Counts, and interrupts the run when the count has come to a number. -/
  | interruptAt (count : Int)
  deriving Repr

/-- Actions for each support point of a noise. -/
structure Parameterization (K : Type) where
  actions : List (Action K)
  support : List (Datum K)
  deriving Repr

/-- What is done when a solver comes to no answer: some actions, and whether to solve again. -/
structure Retry (K : Type) where
  answer : Bool
  actions : List (Action K)
  deriving Repr

/-- A subproblem. -/
structure Subproblem (K : Type) where
  title : String
  program : LinearProgram K
  /-- The outgoing state and the local copies of the incoming one. -/
  states : List Nat := []
  localCopies : List Nat := []
  /-- The incoming state of the first stage. -/
  initialValues : List K := []
  /-- The number of state variables that were added. -/
  stateCount : Nat := 0
  rhsNoise : List (Noise K) := []
  coefficientNoise : List (Nat × Nat × List K) := []
  costNoise : List (Noise K) := []
  parameterizations : List (Parameterization K) := []
  priceObjective : List (Nat × Formula K) := []
  /-- The constraints that tie the local copies to the incoming state. -/
  links : List Nat := []
  /-- The number of realizations, once a noise has fixed it. -/
  noiseSize : Option Nat := none
  probability : Option (List K) := none
  retry : Option (Retry K) := none
  /-- Whether the solver may use reductions that cannot tell infeasible from unbounded. -/
  reductions : Bool := true
  status : Nat := 1
  solution : Option (Solution K) := none
  variableNames : List (String × Nat) := []
  constraintNames : List (String × Nat) := []
  deriving Repr

namespace Subproblem

variable {K : Type}

/-- A subproblem without variables. -/
def empty (title : String) (sense : Sense) : Subproblem K := { title, program := { sense } }

/-- The number of realizations; one if there is no noise. -/
def sampleCount (m : Subproblem K) : Nat := m.noiseSize.getD 1

/-- Whether some variable takes only some of the numbers between its bounds. -/
def isIntegral (m : Subproblem K) : Bool := m.program.vars.any Variable.integral

/-- A step that builds a subproblem. -/
abbrev Build (K A : Type) : Type := Step K (Subproblem K) A

/-! ## Variables and constraints -/

/-- The subproblem with one more variable; a solution found before does not count any more. -/
def withVariable (m : Subproblem K) (v : Variable K) : Subproblem K :=
  { m with program := m.program.addVariable v, solution := none }

/-- The subproblem with one more constraint; a solution found before does not count any more. -/
def withConstraint (m : Subproblem K) (c : Constraint K) : Subproblem K :=
  { m with program := m.program.addConstraint c, solution := none }

/-- Adds a variable to the program, and says where. -/
def pushVariable (v : Variable K) : Build K Nat :=
  modifyGet fun m => (m.program.vars.size, m.withVariable v)

/-- Adds a constraint to the program, and says where. -/
def pushConstraint (c : Constraint K) : Build K Nat :=
  modifyGet fun m => (m.program.constraints.size, m.withConstraint c)

/-- The name of the `i`-th member of a group. -/
def member (name : String) (i : Nat) : String := name ++ "[" ++ toString i ++ "]"

/-- Makes a variable known by a name. -/
def nameVariable (name : String) (i : Nat) : Build K Unit :=
  modify fun m => { m with variableNames := (name, i) :: m.variableNames }

/-- Makes a constraint known by a name. -/
def nameConstraint (name : String) (i : Nat) : Build K Unit :=
  modify fun m => { m with constraintNames := (name, i) :: m.constraintNames }

/-- The variable with a name. -/
def variableNamed (name : String) (m : Subproblem K) : Except (Fault K) Nat :=
  match m.variableNames.lookup name with
  | some i => .ok i
  | none => .error .unknownName

/-- The constraint with a name. -/
def constraintNamed (name : String) (m : Subproblem K) : Except (Fault K) Nat :=
  match m.constraintNames.lookup name with
  | some i => .ok i
  | none => .error .unknownName

/-! ## Noise -/

section Numerals

variable [Numeral K]

/-- Fixes the number of realizations, or compares with the number that is fixed. -/
def fixSize (uncertainty : Datum K) (found : Nat) : Build K Unit := do
  let m ← get
  match m.noiseSize with
  | none => set { m with noiseSize := some found }
  | some size =>
    if size != found then throw (.sampleSize m.title size uncertainty found)

/-- The block of numbers that scenarios form. Tables and functions are no scenarios. -/
def scenarioBlock (uncertainty : Datum K) : Except (Fault K) (Block K) :=
  match uncertainty with
  | .mapping => .error (.scenarioSource "dict")
  | .function => .error (.scenarioSource "function")
  | d => d.block.mapError fun _ => .scenarioEntries

/-- The scenarios of one target: a number per realization. -/
def scenarios (uncertainty : Datum K) : Build K (List K) := do
  let block ← Step.ofExcept (scenarioBlock uncertainty)
  let [n] := block.shape | throw (.scenarioShape block.shape 1)
  fixSize uncertainty n
  return block.entries

/-- The scenarios of a group: a number per member for each realization. -/
def groupScenarios (size : Nat) (uncertainty : Datum K) : Build K (List (List K)) := do
  let block ← Step.ofExcept (scenarioBlock uncertainty)
  let [n, width] := block.shape | throw (.scenarioShape block.shape size)
  if width != size then throw (.scenarioShape block.shape size)
  fixSize uncertainty n
  return block.rows

/-- Registers scenarios of the cost of a variable, unless there are none. -/
def addCostNoise (i : Nat) : Datum K → Build K Unit
  | .absent => return
  | d => do
    let values ← scenarios d
    modify fun m => { m with costNoise := m.costNoise ++ [.one i values] }

/-- Registers scenarios of the costs of a group of variables, unless there are none. -/
def addGroupCostNoise (is : List Nat) : Datum K → Build K Unit
  | .absent => return
  | d => do
    let values ← groupScenarios is.length d
    modify fun m => { m with costNoise := m.costNoise ++ [.group is values] }

/-! ## Adding variables -/

/-- Adds a variable with optional scenarios of its cost. -/
def addVariable (v : Variable K) (uncertainty : Datum K) : Build K Nat := do
  let i ← pushVariable v
  addCostNoise i uncertainty
  return i

/-- Adds variables with optional scenarios of their costs. -/
def addVariables (vs : List (Variable K)) (uncertainty : Datum K) : Build K (List Nat) := do
  let is ← vs.mapM pushVariable
  addGroupCostNoise is uncertainty
  return is

/-- The local copy of a state variable, without bounds or cost. -/
def localCopy (name : String) : Variable K :=
  { name, lower := none, upper := none, cost := Scalar.zero }

/-- The initial values of `n` state variables: one number stands for all of them. -/
def initialData (n : Nat) (initial : Datum K) : Except (Fault K) (List (Datum K)) :=
  if initial.isNumber then .ok (List.replicate n initial)
  else
    match initial.items? with
    | none => .error .badType
    | some items =>
      if items.length == n then .ok items else .error (.initialValues items.length n)

/-- Registers state variables with their local copies and initial values. The variables are
registered before the initial values are read. -/
def registerStates (states copies : List Nat) (initial : Datum K) : Build K Unit := do
  let items ← Step.ofExcept (initialData states.length initial)
  modify fun m =>
    { m with states := m.states ++ states, localCopies := m.localCopies ++ copies }
  let values ← Step.ofExcept (items.mapM fun d => d.number.mapError Unreadable.fault)
  modify fun m =>
    { m with
      initialValues := m.initialValues ++ values
      stateCount := m.stateCount + states.length }

/-- Adds a state variable and its local copy. -/
def addState (v copy : Variable K) (initial uncertainty : Datum K) : Build K (Nat × Nat) := do
  let state ← pushVariable v
  let copied ← pushVariable copy
  registerStates [state] [copied] (.list [initial])
  addCostNoise state uncertainty
  return (state, copied)

/-- Adds state variables and their local copies. -/
def addStates (vs copies : List (Variable K)) (initial uncertainty : Datum K) :
    Build K (List Nat × List Nat) := do
  let states ← vs.mapM pushVariable
  let copied ← copies.mapM pushVariable
  registerStates states copied initial
  addGroupCostNoise states uncertainty
  return (states, copied)

/-! ## Adding constraints -/

/-- What the scenarios of a constraint are about. -/
inductive RowKey where
  | rhs
  | var (i : Nat)
  | other (text : String)
  deriving Repr, DecidableEq

/-- The scenarios of a constraint as they were handed in. -/
inductive RowNoise (K : Type) where
  | none
  | table (entries : List (RowKey × Datum K))
  /-- Anything that is no table. -/
  | other
  deriving Repr

/-- Registers scenarios of the right hand side or of a coefficient of a constraint. -/
def addRowNoise (row : Nat) (key : RowKey) (values : List K) : Build K Unit :=
  match key with
  | .rhs => modify fun m => { m with rhsNoise := m.rhsNoise ++ [.one row values] }
  | .var i =>
    modify fun m => { m with coefficientNoise := m.coefficientNoise ++ [(row, i, values)] }
  | .other _ => throw .uncertaintyKey

/-- Adds a constraint with optional scenarios. All scenarios are read before the first one is
registered. -/
def addConstraint (c : Constraint K) (uncertainty : RowNoise K) : Build K Nat := do
  let row ← pushConstraint c
  match uncertainty with
  | .none => return row
  | .other => throw .constraintUncertainty
  | .table entries =>
    let read ← entries.mapM fun (key, d) => do
      return (key, ← scenarios d)
    Step.each read fun (key, values) => addRowNoise row key values
    return row

/-- Adds constraints with optional scenarios of their right hand sides. -/
def addConstraints (cs : List (Constraint K)) (uncertainty : Datum K) :
    Build K (List Nat) := do
  let rows ← cs.mapM pushConstraint
  match uncertainty with
  | .absent => return rows
  | d =>
    let values ← groupScenarios rows.length d
    modify fun m => { m with rhsNoise := m.rhsNoise ++ [.group rows values] }
    return rows

/-! ## Probabilities, parameterizations and prices -/

/-- Sets the probabilities of the realizations. -/
def setProbability (p : Datum K) : Build K Unit := do
  let m ← get
  let values ← Step.ofExcept ((Probability.check p m.sampleCount).mapError .probability)
  modify fun m => { m with probability := some values }

/-- The probabilities of the realizations, equal ones if none were set. They are checked against
the number of realizations that there are now. -/
def scenarioProbability (m : Subproblem K) : Except (Fault K) (List K) :=
  let p : Datum K := match m.probability with
    | none => .absent
    | some xs => .list (xs.map .real)
  (Probability.check p m.sampleCount).mapError .probability

/-- Adds actions for each support point of a noise, with optional probabilities. -/
def parameterize (actions : Option (List (Action K))) (support probability : Datum K) :
    Build K Unit := do
  let some actions := actions | throw .parameterization
  let some points := support.items? | throw .badType
  if points.isEmpty then throw .noSupport
  fixSize (.list points) points.length
  modify fun m => { m with parameterizations := m.parameterizations ++ [⟨actions, points⟩] }
  match probability with
  | .absent => return
  | p => setProbability p

/-- Whether a variable by itself has scenarios of its cost. -/
def hasCostNoise (m : Subproblem K) (i : Nat) : Bool :=
  m.costNoise.any fun
    | .one j _ => i == j
    | .group .. => false

/-- A rule overwritten, or added behind the others. -/
def putRule (i : Nat) (f : Formula K) : List (Nat × Formula K) → List (Nat × Formula K)
  | [] => [(i, f)]
  | (j, g) :: rest => if j == i then (i, f) :: rest else (j, g) :: putRule i f rest

/-- The name of a variable. -/
def variableName (m : Subproblem K) (i : Nat) : String :=
  (m.program.vars[i]?.map Variable.name).getD ""

/-- Makes the cost of variables depend on the price, one after the other. -/
def setPriceObjective (rules : List (Nat × Option (Formula K))) : Build K Unit :=
  Step.each rules fun (i, rule) => do
    let m ← get
    let some f := rule | throw (.priceObjective (m.variableName i))
    if m.hasCostNoise i then throw (.uncertainAndPriced (m.variableName i))
    set { m with priceObjective := putRule i f m.priceObjective }

/-- Replaces the costs of all variables; variables that do not occur cost nothing. -/
def setObjective (terms : List (Nat × K)) : Build K Unit :=
  modify fun m =>
    let collected := LinearProgram.collect terms
    { m with program :=
      { m.program with vars :=
        m.program.vars.mapIdx fun i v =>
          { v with cost := (collected.lookup i).getD Scalar.zero } } }

end Numerals

/-! ## Description -/

/-- The kinds of noise and rules that a subproblem has. -/
def kinds (m : Subproblem K) : List String :=
  let parts := [("uncertain RHS", m.rhsNoise.isEmpty),
    ("uncertain coefficients", m.coefficientNoise.isEmpty),
    ("uncertain objective", m.costNoise.isEmpty),
    ("noise parameterizations", m.parameterizations.isEmpty),
    ("price dependent objective", m.priceObjective.isEmpty)]
  parts.filterMap fun (name, isEmpty) => if isEmpty then none else some name

/-- The description of the states and the noise of a subproblem. -/
def describe (m : Subproblem K) : String :=
  toString m.stateCount ++ " state variables, " ++ toString m.sampleCount ++ " samples" ++
    String.join (m.kinds.map fun k => ", " ++ k) ++ ">"

end Subproblem

end DualDynamic
