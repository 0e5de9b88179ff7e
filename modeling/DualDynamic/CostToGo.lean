import DualDynamic.CutPool
import DualDynamic.Subproblem.Solve

/-!
# Costs to go

The cost-to-go of a node is approximated by variables of its subproblem, each bounded by the cuts
of one pool. Either there is a single variable, or there is one per rib: a location along the
price axis. Between two ribs the cost-to-go at a price is the convex combination of their variables.

A cost-to-go begins as a template. It is started on a subproblem, whose states the cuts are
about, and carried over to a new subproblem when the node is rebuilt. A cut is stored in the pool of
its rib and has a row in the subproblem unless it is there already; a cut that is refused changes
nothing.
-/

namespace DualDynamic

/-! ## Prices -/

/-- A price axis: where it has its ribs, how a price follows from the one before, and the noise
that it is subject to. -/
structure Pricing (K : Type) where
  ribs : List K
  /-- The price that follows, given price, noise, stage and Markov state; none keeps the price. -/
  dynamics : Option (Formula K)
  /-- The price before the first stage. -/
  initial : K
  noise : List (Datum K)
  probability : List K
  deriving Repr

/-- A rule for the price as it was handed in. -/
inductive DynamicsData (K : Type) where
  | keep
  | rule (formula : Formula K)
  /-- Something that cannot be called. -/
  | other
  deriving Repr

namespace Pricing

variable {K : Type} [Numeral K]

/-- Whether numbers are strictly increasing. -/
def isIncreasing : List K → Bool
  | a :: b :: rest => !Scalar.le b a && isIncreasing (b :: rest)
  | _ => true

/-- The rib locations in data: finite, strictly increasing numbers, at least one. -/
def readRibs (d : Datum K) : Except (RibFault K) (List K) :=
  match d.numbers with
  | .error _ => .error .notNumbers
  | .ok ribs =>
    if ribs.isEmpty then .error .none
    else if !ribs.all Scalar.isFinite then .error .notFinite
    else if !isIncreasing ribs then .error (.notIncreasing ribs)
    else .ok ribs

/-- The rule in data. -/
def readDynamics : DynamicsData K → Except (Fault K) (Option (Formula K))
  | .keep => .ok none
  | .rule f => .ok (some f)
  | .other => .error .dynamics

/-- The realizations of the noise in data, at least one. -/
def readNoise (d : Datum K) : Except (Fault K) (List (Datum K)) :=
  match d.items? with
  | none => .error .badType
  | some [] => .error .noNoise
  | some items => .ok items

/-- A price axis from data. -/
def ofData (ribs : Datum K) (dynamics : DynamicsData K) (initial noise probability : Datum K) :
    Except (Fault K) (Pricing K) := do
  let ribs ← (readRibs ribs).mapError .badRibs
  let dynamics ← readDynamics dynamics
  let initial ← initial.number.mapError Unreadable.fault
  let noise ← readNoise noise
  let probability ← (Probability.check probability noise.length).mapError .noiseProbability
  return { ribs, dynamics, initial, noise, probability }

/-- The realizations of the noise that can happen, with their probabilities. -/
def positiveNoise (p : Pricing K) : List (Datum K × K) :=
  (List.zip p.noise p.probability).filter fun (_, weight) => Scalar.lt Scalar.zero weight

/-- The names that the rule for the price refers to. -/
def environment (price : Option K) (noise : Datum K) (stage markov : Int) :
    String → Option (Datum K)
  | "price" => some (Formula.priceDatum price)
  | "noise" => some noise
  | "stage" => some (.real (Scalar.ofInt stage))
  | "markov" => some (.real (Scalar.ofInt markov))
  | _ => none

/-- The price of a stage, given the price of the stage before. -/
def next (p : Pricing K) (price : Option K) (noise : Datum K) (stage markov : Int) :
    Except (Fault K) K := do
  let d ← match p.dynamics with
    | none => pure (Formula.priceDatum price)
    | some rule => rule.evaluate (environment price noise stage markov)
  d.number.mapError Unreadable.fault

/-- The positions of the ribs around a price and their weights. A price on a rib starts the
interval above it, the last rib ends the interval below it. -/
def weights (ribs : List K) (price : Option K) : Except (Fault K) (List (Nat × K)) :=
  if ribs.length == 1 then .ok [(0, Scalar.one)]
  else
    match price with
    | none => .error (.outsideRibs none ribs)
    | some x =>
      let below := (ribs.filter fun r => !Scalar.lt x r).length - 1
      let lower := Nat.min below (ribs.length - 2)
      match ribs[lower]?, ribs[lower + 1]? with
      | some a, some b =>
        let share := (x - a) / (b - a)
        if Scalar.le Scalar.zero share && Scalar.le share Scalar.one then
          .ok [(lower, Scalar.one - share), (lower + 1, share)]
        else .error (.outsideRibs (some x) ribs)
      | _, _ => .error (.outsideRibs (some x) ribs)

end Pricing

/-! ## The approximation -/

/-- What is fixed when a cost-to-go is started: the sense of the program, a bound that holds
without any cut, and the number of state variables. -/
structure Frame (K : Type) where
  sense : Sense
  bound : K
  dimension : Nat
  deriving Repr

/-- An approximated cost-to-go. -/
structure CostToGo (K : Type) where
  selection : Selection K
  /-- The price axis, if there is one. -/
  pricing : Option (Pricing K) := none
  frame : Option (Frame K) := none
  /-- The variables of the subproblem that stand for the cost-to-go, one per rib. -/
  vars : List Nat := []
  pools : List (CutPool K) := []
  /-- The cuts that have a row in the subproblem, per rib. -/
  installed : List (List (Cut K)) := []
  deriving Repr

namespace CostToGo

variable {K : Type}

/-- A template with a single variable. -/
def single (selection : Selection K) : CostToGo K := { selection }

/-- A template with one variable per rib. -/
def alongPrice (selection : Selection K) (pricing : Pricing K) : CostToGo K :=
  { selection, pricing := some pricing }

/-- A template of the same configuration. -/
def spawn (v : CostToGo K) : CostToGo K := { selection := v.selection, pricing := v.pricing }

/-- The number of ribs; a single variable counts as one. -/
def ribCount (v : CostToGo K) : Nat :=
  match v.pricing with
  | none => 1
  | some p => p.ribs.length

/-- The locations of the ribs. A single variable has none. -/
def ribs (v : CostToGo K) : List (Option K) :=
  match v.pricing with
  | none => [none]
  | some p => p.ribs.map some

/-- Whether there are variables for it in a subproblem. -/
def isStarted (v : CostToGo K) : Bool := !v.vars.isEmpty

/-- Whether cuts may be retired. -/
def prunes (v : CostToGo K) : Bool := v.selection.prunes

/-- The number of stored cuts. -/
def cutCount (v : CostToGo K) : Nat := v.pools.foldl (fun total p => total + p.size) 0

/-- The name of the kind in descriptions. -/
def kindName (v : CostToGo K) : String :=
  match v.pricing with
  | none => "ValueFunction"
  | some _ => "StaticPriceInterpolation"

/-- The description of a cost-to-go. -/
def describe (v : CostToGo K) : String :=
  "<" ++ v.kindName ++ ", " ++ toString v.ribCount ++ " ribs, " ++ toString v.cutCount ++ " cuts>"

/-- The side on which cuts bound the cost-to-go. -/
def side (v : CostToGo K) : Side :=
  match v.frame with
  | some f => f.sense.cutSide
  | none => .atMost

section Numerals

variable [Numeral K]

/-! ### Prices -/

/-- The realizations of the price noise that can happen, with their probabilities. -/
def priceNoise (v : CostToGo K) : List (Datum K × K) :=
  match v.pricing with
  | none => [(.absent, Scalar.one)]
  | some p => p.positiveNoise

/-- The price of a stage, given the price of the stage before. -/
def nextPrice (v : CostToGo K) (price : Option K) (noise : Datum K) (stage markov : Int) :
    Except (Fault K) (Option K) :=
  match v.pricing with
  | none => .ok none
  | some p => (p.next price noise stage markov).map some

/-- The price before the first stage. -/
def initialPrice (v : CostToGo K) : Option K := v.pricing.map Pricing.initial

/-- The positions of the ribs that count at a price, and their weights. -/
def weights (v : CostToGo K) (price : Option K) : Except (Fault K) (List (Nat × K)) :=
  match v.pricing with
  | none => .ok [(0, Scalar.one)]
  | some p => Pricing.weights p.ribs price

/-- The cost-to-go at a price as an expression in the variables: a single one by its position, or
weighted ones. -/
def interpolation (v : CostToGo K) (price : Option K) :
    Except (Fault K) (Nat ⊕ List (Nat × K)) := do
  let weights ← v.weights price
  if weights.any fun (i, _) => v.vars.length ≤ i then throw .outOfRange
  return if v.ribCount == 1 then .inl 0 else .inr weights

/-- The position of a rib. A single variable takes no location, a price axis needs one of its
own. -/
def ribIndex (v : CostToGo K) (rib : Option K) : Except (Fault K) Nat :=
  match v.pricing, rib with
  | none, none => .ok 0
  | none, some x => .error (.ribUnknown x [none])
  | some _, none => .error .ribMissing
  | some p, some x =>
    match p.ribs.findIdx? fun r => Scalar.eq r x with
    | some i => .ok i
    | none => .error (.ribUnknown x (p.ribs.map some))

/-! ### Variables -/

/-- The variable of a rib. It is bounded by the bound that holds without any cut. -/
def ribVariable (f : Frame K) (i : Nat) : Variable K :=
  { name := Subproblem.member "theta" i
    lower := match f.sense with
      | .minimize => LinearProgram.lowerBound f.bound
      | .maximize => none
    upper := match f.sense with
      | .minimize => none
      | .maximize => LinearProgram.upperBound f.bound
    cost := Scalar.zero }

/-- The subproblem with variables for `n` ribs. -/
def withRibVariables (f : Frame K) (n : Nat) (m : Subproblem K) : Subproblem K :=
  ((List.range n).map (ribVariable f)).foldl Subproblem.withVariable m

/-- The positions of the next `n` variables of a subproblem. -/
def nextVariables (n : Nat) (m : Subproblem K) : List Nat :=
  (List.range n).map (m.program.vars.size + ·)

/-- The cost-to-go without cuts, with a variable per rib in the subproblem. -/
def start (v : CostToGo K) (sense : Int) (bound : K) (m : Subproblem K) :
    Except (Fault K) (CostToGo K × Subproblem K) :=
  match Sense.ofInt? sense with
  | none => .error .sense
  | some sense =>
    let f : Frame K := ⟨sense, bound, m.stateCount⟩
    .ok ({ v with
        frame := some f
        vars := nextVariables v.ribCount m
        pools := List.replicate v.ribCount (.empty v.selection (some m.stateCount))
        installed := List.replicate v.ribCount [] },
      withRibVariables f v.ribCount m)

/-- The weight of each variable at a price. -/
def location (v : CostToGo K) (price : Option K) : Except (Fault K) (List K) := do
  let weights ← v.weights price
  if weights.any fun (i, _) => v.vars.length ≤ i then throw .outOfRange
  return v.vars.zipIdx.map fun (_, i) => (weights.lookup i).getD Scalar.zero

/-- The subproblem with the cost-to-go at a price in its objective. -/
def setLocation (v : CostToGo K) (price : Option K) (m : Subproblem K) :
    Except (Fault K) (Subproblem K) := do
  let weights ← v.location price
  return { m with
    program := (List.zip v.vars weights).foldl (fun p (i, w) => p.setCost i w) m.program }

/-- The value of the cost-to-go at a price in the last solution. -/
def futureCost (v : CostToGo K) (price : Option K) (m : Subproblem K) : Except (Fault K) K := do
  let weights ← v.weights price
  let parts ← weights.mapM fun (i, w) => do
    match v.vars[i]? with
    | none => throw .outOfRange
    | some x => return w * (← m.valueOf x)
  return Scalar.sum parts

/-! ### Cuts -/

/-- The row of a cut on a variable. -/
def cutRow (x : Nat) (cut : Cut K) (m : Subproblem K) : Constraint K :=
  { name := ""
    terms := (x, Scalar.one) :: List.zipWith (fun i c => (i, -c)) m.states cut.coefficients
    relation := match cut.side with
      | .atLeast => .atLeast
      | .atMost => .atMost
    rhs := cut.intercept }

/-- Refuses cuts about another number of states and cuts of the other side. -/
def checkCut (v : CostToGo K) (cut : Cut K) : Except (Fault K) Unit := do
  let dimension := v.frame.map Frame.dimension
  if some cut.dimension != dimension then throw (.cutDimension cut.dimension dimension)
  if cut.side != v.side then throw (.sideMismatch cut.side v.side)

/-- Gives a cut a row on the variable of a rib, unless it has one. -/
def installRow (v : CostToGo K) (i : Nat) (cut : Cut K) (m : Subproblem K) :
    CostToGo K × Subproblem K :=
  match v.vars[i]? with
  | none => (v, m)
  | some x =>
    if (v.installed.getD i []).any cut.same then (v, m)
    else
      ({ v with installed := v.installed.modify i (· ++ [cut]) },
        m.withConstraint (cutRow x cut m))

/-- Stores a cut in the pool of its rib, together with the state at which it was generated, and
puts it into the subproblem. The answer says whether the cut is new; a retired cut that
is generated again gets its row back without being new. -/
def installCut (v : CostToGo K) (cut : Cut K) (rib : Option K) (state : Option (Datum K))
    (m : Subproblem K) : Except (Fault K) (Bool × CostToGo K × Subproblem K) := do
  v.checkCut cut
  let i ← v.ribIndex rib
  match v.pools[i]? with
  | none => throw .outOfRange
  | some pool =>
    let (new, pool) ← pool.store cut state
    return (new, ({ v with pools := v.pools.set i pool }).installRow i cut m)

/-- Gives all active cuts of the pools their rows, rib by rib. -/
def installActive (v : CostToGo K) (m : Subproblem K) : CostToGo K × Subproblem K :=
  let cuts := v.pools.zipIdx.flatMap fun (pool, i) => pool.active.map fun c => (i, c)
  cuts.foldl (fun (v, m) (i, c) => v.installRow i c m) (v, m)

/-- The cost-to-go carried over to a new subproblem, with the rows of the active cuts. -/
def rebuild (v : CostToGo K) (m : Subproblem K) : CostToGo K × Subproblem K :=
  match v.frame with
  | none => (v, m)
  | some f =>
    let fresh := { v with
      vars := nextVariables v.ribCount m
      installed := List.replicate v.ribCount [] }
    fresh.installActive (withRibVariables f v.ribCount m)

end Numerals

end CostToGo

end DualDynamic
