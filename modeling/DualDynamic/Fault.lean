import DualDynamic.Datum
import DualDynamic.Sense

/-!
# Faults

Every way in which building, training or evaluating can fail, as a cause. `Fault.kind` sorts the
causes into kinds, `Fault.message` is their wording, and `Fault.attributes` are the values that a
caller can ask a fault for. Causes without a message are slips of arithmetic or of access, whose
wording is left to whoever reports them.

A worker hands its fault to the coordinator as a `Failure`: name of the kind, attributes and text.
Kinds that belong to the library keep their name on the way, all others become worker faults.
-/

namespace DualDynamic

/-! ## Causes -/

/-- Why a probability vector is refused. -/
inductive ProbabilityFault where
  | size (found expected : Nat)
  | total
  | unreadable (cause : Unreadable)
  deriving Repr, DecidableEq

/-- Why a list of transition matrices is refused. -/
inductive TransitionFault where
  | count (found : Nat) (expected : Int)
  | shape (stage : Nat)
  | negative
  | total
  deriving Repr, DecidableEq

/-- Why a line of a cut file is no record. -/
inductive RecordFault where
  | fieldMissing
  | notWhole (text : String)
  | notReal (text : String)
  | side
  deriving Repr, DecidableEq

/-- Why a list of rib locations is refused. -/
inductive RibFault (K : Type) where
  | notNumbers
  | none
  | notFinite
  | notIncreasing (ribs : List K)
  deriving Repr

/-- The kinds of faults. -/
inductive FaultKind where
  | construction
  | sampleSize
  | transition
  | infeasible
  | interpolation
  | solver
  | worker
  | badValue
  | badType
  | outOfRange
  | zeroDivision
  | badAttribute
  | unavailable
  | unknownName
  | interrupted
  deriving Repr, DecidableEq

namespace FaultKind

/-- The name under which a fault is reported. -/
def name : FaultKind → String
  | construction => "ModelConstructionError"
  | sampleSize => "SampleSizeError"
  | transition => "TransitionMatrixError"
  | infeasible => "InfeasibleSubproblemError"
  | interpolation => "InterpolationRangeError"
  | solver => "SolverError"
  | worker => "WorkerError"
  | badValue => "ValueError"
  | badType => "TypeError"
  | outOfRange => "IndexError"
  | zeroDivision => "ZeroDivisionError"
  | badAttribute => "AttributeError"
  | unavailable => "NotImplementedError"
  | unknownName => "KeyError"
  | interrupted => "KeyboardInterrupt"

/-- The kinds that keep their name when a worker reports them. -/
def reportable : List FaultKind :=
  [construction, sampleSize, transition, infeasible, interpolation, solver]

/-- The kind under which the report of a worker is raised. -/
def ofReport (name : String) : FaultKind :=
  (reportable.find? fun k => k.name == name).getD worker

/-- Whether faults of this kind are also construction faults. -/
def isConstruction (k : FaultKind) : Bool :=
  k == construction || k == sampleSize || k == transition

/-- Whether faults of this kind are also faults of a value. -/
def isBadValue (k : FaultKind) : Bool := k == badValue || k == interpolation

end FaultKind

/-- What a worker reports when it fails. -/
structure Failure (A : Type) where
  name : String
  attributes : List (String × A)
  text : String
  deriving Repr

namespace Failure

variable {A : Type}

/-- The kind under which the failure is raised again. -/
def kind (f : Failure A) : FaultKind := .ofReport f.name

/-- The wording of the failure of worker `p`; its first line names the worker. -/
def message (p : Int) (f : Failure A) : String := "worker " ++ toString p ++ " failed:\n" ++ f.text

/-- The attributes that the failure keeps: those of a library kind. -/
def kept (f : Failure A) : List (String × A) :=
  if f.kind == .worker then [] else f.attributes

end Failure

/-- A value that a fault carries. -/
inductive Attribute (K : Type) where
  | absent
  | whole (value : Int)
  | real (value : K)
  | reals (values : List K)
  deriving Repr

/-- A cause of failure. -/
inductive Fault (K : Type) where
  -- cuts and their files
  | cutSide
  | cutDimension (found : Nat) (expected : Option Nat)
  | stateDimension (found expected : Nat)
  | record (line : Nat) (path : String) (cause : RecordFault)
  -- value functions
  | sense
  | sideMismatch (found expected : Side)
  | ribMissing
  | ribUnknown (rib : K) (ribs : List (Option K))
  | badRibs (cause : RibFault K)
  | dynamics
  | noNoise
  | noiseProbability (cause : ProbabilityFault)
  | outsideRibs (price : Option K) (ribs : List K)
  -- subproblems
  | scenarioSource (name : String)
  | scenarioEntries
  | scenarioShape (shape : List Nat) (dimension : Nat)
  | sampleSize (title : String) (size : Nat) (uncertainty : Datum K) (found : Nat)
  | constraintUncertainty
  | uncertaintyKey
  | initialValues (given expected : Nat)
  | parameterization
  | noSupport
  | probability (cause : ProbabilityFault)
  | priceObjective (name : String)
  | uncertainAndPriced (name : String)
  | noAttribute (name : String)
  | infeasible (title : String) (stage markov : Option Int)
  | solver (title : String) (status : Nat)
  -- policy graphs
  | graphArguments
  | transition (cause : TransitionFault)
  | templateInUse
  | builder
  | builderArity
  | integerVariables (title : String)
  | rebuiltStates (title : String) (found expected : Nat)
  | unequalStates (stage : Nat)
  | adjacentStates (stage found previous expected : Nat)
  | terminalCut
  | noNode (stage markov : Int)
  | riskArguments
  -- training and evaluation
  | simulations
  | seed (text : String)
  | workersGone
  | reported (worker : Int) (failure : Failure (Attribute K))
  -- slips of arithmetic and access
  | badNumber
  | badType
  | outOfRange
  | zeroDivision
  | refusedAttribute
  | singleObservation
  | unknownName
  | interrupted
  deriving Repr

/-! ## Wording -/

namespace Unreadable

/-- The wording of an unreadable value. -/
def message : Unreadable → String
  | word text => "could not convert string to float: " ++ Text.quoted text
  | ragged shape =>
    "setting an array element with a sequence. The requested array has an inhomogeneous shape " ++
      "after " ++ toString shape.length ++ " dimensions. The detected shape was " ++
      shapeText shape ++ " + inhomogeneous part."
  | kind => ""

/-- A value of the wrong kind is told from a text or a shape that does not fit. -/
def fault {K : Type} : Unreadable → Fault K
  | word _ | ragged _ => .badNumber
  | kind => .badType

end Unreadable

namespace ProbabilityFault

/-- The wording of a refused probability vector. -/
def message : ProbabilityFault → String
  | size found expected =>
    "probability of length " ++ toString found ++ " is not compatible with " ++
      toString expected ++ " scenarios!"
  | total => "Probability does not sum to one!"
  | unreadable cause => cause.message

end ProbabilityFault

namespace TransitionFault

/-- The wording of refused transition matrices. -/
def message : TransitionFault → String
  | count found expected =>
    "The transition_matrix is of length " ++ toString found ++ ", expecting of length " ++
      toString expected ++ "!"
  | shape stage => "Invalid transition_matrix at stage " ++ toString stage ++ "!"
  | negative => "Negative transition probability!"
  | total => "Probability does not sum to one!"

end TransitionFault

/-- The wording of a cut of an unknown side. -/
def sideMessage : String := "sense of a cut must be '>=' or '<='!"

namespace RecordFault

/-- The wording of a malformed record. -/
def message : RecordFault → String
  | fieldMissing => "list index out of range"
  | notWhole text => "invalid literal for int() with base 10: " ++ Text.quoted text
  | notReal text => (Unreadable.word text).message
  | side => sideMessage

end RecordFault

/-- The text of a number that may be absent. -/
def optionText {A : Type} (text : A → String) : Option A → String
  | some a => text a
  | none => "None"

namespace RibFault

variable {K : Type} [Numeral K]

/-- The wording of refused rib locations. -/
def message : RibFault K → String
  | notNumbers => "rib locations must be numbers!"
  | none => "at least one rib location is needed!"
  | notFinite => "rib locations must be finite!"
  | notIncreasing ribs =>
    "rib locations must be strictly increasing, got " ++ Numeral.listText ribs ++ "!"

end RibFault

namespace Fault

variable {K : Type}

/-- The kind of a fault. -/
def kind : Fault K → FaultKind
  | cutSide | scenarioEntries | scenarioShape .. | noSupport | simulations | seed _ | badNumber =>
    .badValue
  | probability (.unreadable .kind) => .badType
  | probability _ => .badValue
  | noiseProbability (.unreadable .kind) => .badType
  | scenarioSource _ | constraintUncertainty | uncertaintyKey | parameterization
  | priceObjective _ | badType => .badType
  | sampleSize .. => .sampleSize
  | transition _ => .transition
  | infeasible .. => .infeasible
  | solver .. => .solver
  | outsideRibs .. => .interpolation
  | workersGone => .worker
  | reported _ failure => failure.kind
  | noAttribute _ | refusedAttribute => .badAttribute
  | outOfRange => .outOfRange
  | zeroDivision => .zeroDivision
  | singleObservation => .unavailable
  | unknownName => .unknownName
  | interrupted => .interrupted
  | cutDimension .. | stateDimension .. | record .. | sense | sideMismatch .. | ribMissing
  | ribUnknown .. | badRibs _ | dynamics | noNoise | noiseProbability _ | initialValues ..
  | uncertainAndPriced _ | graphArguments | templateInUse | builder | builderArity
  | integerVariables _ | rebuiltStates .. | unequalStates _ | adjacentStates .. | terminalCut
  | noNode .. | riskArguments => .construction

/-- The values that a fault carries, by name. -/
def attributes : Fault K → List (String × Attribute K)
  | outsideRibs price ribs =>
    [("price", match price with | some x => .real x | none => .absent),
     ("rib_locations", .reals ribs)]
  | infeasible _ stage markov =>
    [("stage", match stage with | some n => .whole n | none => .absent),
     ("markov_state", match markov with | some n => .whole n | none => .absent)]
  | solver _ status => [("status", .whole status)]
  | reported _ failure => failure.kept
  | _ => []

/-- The wording of an unknown rib. -/
def ribUnknownMessage [Numeral K] (rib : K) (ribs : List (Option K)) : String :=
  "Attempting to add a cut at the price " ++ Numeral.text rib ++ ", but there is no rib in the " ++
    "value function. Rib locations are [" ++
    ", ".intercalate (ribs.map (optionText Numeral.text)) ++ "]."

/-- The wording of a price outside the ribs. -/
def outsideRibsMessage [Numeral K] (price : Option K) (ribs : List K) : String :=
  let bound := optionText Numeral.text
  "The location " ++ optionText Numeral.text price ++ " is outside the interpolated region [" ++
    bound ribs.head? ++ ", " ++ bound ribs.getLast? ++ "]."

/-- The wording of noise of two sizes. -/
def sampleSizeMessage [Numeral K] (title : String) (size : Nat) (uncertainty : Datum K)
    (found : Nat) : String :=
  "Dimensionality of stochasticModel " ++ title ++ " is " ++ toString size ++
    " but dimension of the uncertainty " ++ uncertainty.shown ++ " is " ++ toString found

/-- The wording of a fault, unless it is a slip. -/
def message [Numeral K] : Fault K → Option String
  | cutSide => sideMessage
  | cutDimension found expected =>
    "cut has " ++ toString found ++ " coefficients while the state vector is of dimension " ++
      optionText (fun n : Nat => toString n) expected ++ "!"
  | stateDimension found expected =>
    "state is of dimension " ++ toString found ++ " while cuts are of dimension " ++
      toString expected ++ "!"
  | record line path cause =>
    "malformed cut record at line " ++ toString line ++ " of " ++ path ++ ": " ++ cause.message
  | sense => "sense must be +1 or -1!"
  | sideMismatch found expected =>
    "cut of sense " ++ found.text ++ " does not match the value function of sense " ++
      expected.text ++ "!"
  | ribMissing => "a rib location is needed to add a cut to a price interpolated value function!"
  | ribUnknown rib ribs => ribUnknownMessage rib ribs
  | badRibs cause => cause.message
  | dynamics => "price dynamics must be callable!"
  | noNoise => "support of the price noise is empty!"
  | noiseProbability (.unreadable .kind) => none
  | noiseProbability cause => cause.message
  | outsideRibs price ribs => outsideRibsMessage price ribs
  | scenarioSource name =>
    "uncertainty must be a finite list of scenarios, got " ++ name ++ "!"
  | scenarioEntries => "Scenarios must only contains numbers!"
  | scenarioShape shape dimension =>
    "scenarios of shape " ++ shapeText shape ++ " do not fit an object of dimension " ++
      toString dimension ++ "!"
  | sampleSize title size uncertainty found => sampleSizeMessage title size uncertainty found
  | constraintUncertainty =>
    "uncertainty of a constraint must be a dict keyed by 'rhs' or gurobipy.Var!"
  | uncertaintyKey => "keys of uncertainty must be 'rhs' or gurobipy.Var!"
  | initialValues given expected =>
    toString given ++ " initial values given for " ++ toString expected ++ " state variables!"
  | parameterization => "noise parameterization must be callable!"
  | noSupport => "support of the noise is empty!"
  | probability (.unreadable _) => none
  | probability cause => cause.message
  | priceObjective name => "price objective of " ++ name ++ " must be callable!"
  | uncertainAndPriced name =>
    name ++ " has both uncertain and price dependent objective!"
  | noAttribute name => "no attribute named " ++ name
  | infeasible title stage markov =>
    let place := optionText (fun n : Int => toString n)
    "infeasibility caught in subproblem " ++ title ++ " (stage " ++ place stage ++
      ", Markov state " ++ place markov ++ "); check complete recourse condition!"
  | solver title status =>
    "solver returns status " ++ toString status ++ " for subproblem " ++ title
  | graphArguments => "Arguments of policy graph construction are not valid!"
  | transition cause => cause.message
  | templateInUse => "value_function must be an uninitialized template!"
  | builder => "builder must be callable!"
  | builderArity => "builder must take (model, stage) or (model, stage, markov_state)!"
  | integerVariables title =>
    "subproblem " ++ title ++ " has integer variables; cuts require the duals of a linear program!"
  | rebuiltStates title found expected =>
    "rebuilt subproblem " ++ title ++ " has " ++ toString found ++
      " state variables instead of " ++ toString expected ++ "!"
  | unequalStates stage =>
    "nodes of stage " ++ toString stage ++ " have different numbers of state variables!"
  | adjacentStates stage found previous expected =>
    "stage " ++ toString stage ++ " has " ++ toString found ++ " state variables while stage " ++
      toString previous ++ " has " ++ toString expected ++ "!"
  | terminalCut => "the last stage has no cost-to-go to add cuts to!"
  | noNode stage markov =>
    "there is no node at stage " ++ toString stage ++ ", Markov state " ++ toString markov ++ "!"
  | riskArguments => "l must be in [0,1] and a in (0,1]!"
  | simulations => "n_simulations must be a positive integer!"
  | seed text => text ++ " cannot be used to seed a numpy.random.RandomState instance"
  | workersGone => "all workers exited unexpectedly"
  | reported worker failure => failure.message worker
  | singleObservation => ""
  | badNumber | badType | outOfRange | zeroDivision | refusedAttribute | unknownName
  | interrupted => none

/-- The report of a fault that ended a worker. -/
def toFailure [Numeral K] (f : Fault K) : Failure (Attribute K) :=
  ⟨f.kind.name, f.attributes, f.message.getD ""⟩

end Fault

end DualDynamic
