import DualDynamic.PolicyGraph

/-!
# Generating cuts

A cut on the cost-to-go of a node comes from the programs behind it: those of all successors, for
every price and every realization that can happen. Their optimal values and the duals of the rows
that tie the incoming state are aggregated by the risk measure into a value `v` and a gradient
`g` at the state `x`, and the cut is `v + g · (y - x)` at a state `y`. Along a price axis there is
one cut per rib, which is then the price of the stage.

A backward pass does this for the nodes of a path, last stage first, so that a stage profits from
the cuts of the stages behind it.
-/

namespace DualDynamic

variable {K : Type} [Numeral K]

/-! ## Solving what lies behind -/

namespace Node

/-- The optimal value and the state duals for a realization, at a price. -/
def solveRealization (engine : Engine K) (price : Option K) (k : Nat) :
    Run K (Node K) (K × List K) := do
  onModel (Subproblem.setRealization k)
  setPrice price
  let n ← Run.part
  let value ← onModel (Subproblem.solve engine (some n.stage) (some n.markov))
  let duals ← Step.ofExcept (← Run.part).model.stateDuals
  return (value, duals)

/-- The realizations that can happen, and their probabilities. -/
def possible (n : Node K) : Except (Fault K) (List (Nat × K)) := do
  let weights ← n.model.scenarioProbability
  return (weights.zipIdx.filter fun (p, _) => Scalar.ne p Scalar.zero).map fun (p, k) => (k, p)

/-- Values, duals and weights of all realizations, for a realization of the price noise. The price
is the one of the stage before, and `weight` is the probability of the node. -/
def solvePriced (engine : Engine K) (price : Option K) (weight : K) (noise : Datum K × K) :
    Run K (Node K) (List (K × List K × K)) := do
  let n ← Run.part
  let next ← Step.ofExcept (n.costToGo.nextPrice price noise.1 n.stage n.markov)
  let realizations ← Step.ofExcept n.possible
  realizations.mapM fun (k, p) => do
    let (value, duals) ← solveRealization engine next k
    return (value, duals, weight * noise.2 * p)

/-- Values, duals and weights of all realizations of price and noise. Without an incoming state the
node begins at its initial values. -/
def solveAll (engine : Engine K) (state : Option (List K)) (price : Option K) (weight : K) :
    Run K (Node K) (List (K × List K × K)) := do
  let n ← Run.part
  onModel (Subproblem.setIncoming (state.getD n.model.initialValues))
  let parts ← n.costToGo.priceNoise.mapM (solvePriced engine price weight)
  return parts.flatten

end Node

/-- Realizations put together. -/
def Realizations.ofTriples (xs : List (K × List K × K)) : Realizations K :=
  ⟨xs.map (·.1), xs.map (·.2.1), xs.map (·.2.2)⟩

namespace PolicyGraph

/-- Solves nodes of a stage for everything that can happen there, given their probabilities, the
incoming state and the price of the stage before. -/
def solveStage (engine : Engine K) (stage : Nat) (nodes : List (Nat × K))
    (state : Option (List K)) (price : Option K) : Run K (PolicyGraph K) (Realizations K) := do
  let parts ← nodes.mapM fun (k, p) => atNode stage k (Node.solveAll engine state price p)
  return .ofTriples parts.flatten

/-- The aggregated value and gradient of nodes of a stage. -/
def aggregateStage (engine : Engine K) (stage : Nat) (nodes : List (Nat × K))
    (state : Option (List K)) (price : Option K) : Run K (PolicyGraph K) (K × List K) := do
  let r ← solveStage engine stage nodes state price
  let g ← Run.part
  Step.ofExcept (g.measure.aggregate g.sense r)

/-- Solves what lies behind a node. -/
def solveBehind (engine : Engine K) (n : Node K) (state : Option (List K)) (price : Option K) :
    Run K (PolicyGraph K) (Realizations K) := do
  let g ← Run.part
  solveStage engine (n.stage + 1) (g.successors n) state price

/-- The aggregated value of what lies behind a node. -/
def expectedValue (engine : Engine K) (n : Node K) (state : Option (List K)) (price : Option K) :
    Run K (PolicyGraph K) K := do
  let g ← Run.part
  return (← aggregateStage engine (n.stage + 1) (g.successors n) state price).1

/-- The bound on the optimal value: the aggregated value of the first stage. -/
def computeBound (engine : Engine K) : Run K (PolicyGraph K) K := do
  let g ← Run.part
  return (← aggregateStage engine 0 g.first none g.initialPrice).1

/-! ## Cuts -/

/-- The cut on the cost-to-go of a node, at a rib, that is generated at a state. -/
def generateCut (engine : Engine K) (n : Node K) (state : List K) (rib : Option K)
    (iteration : Option Int) : Run K (PolicyGraph K) (Cut K) := do
  let g ← Run.part
  let (value, gradient) ←
    aggregateStage engine (n.stage + 1) (g.successors n) (some state) rib
  if gradient.length != state.length then throw .badNumber
  return {
    intercept := value - Scalar.dot gradient state
    coefficients := gradient
    side := g.sense.cutSide
    stage := some n.stage
    markov := some n.markov
    iteration }

end PolicyGraph

/-- A graph and the cut file that its new cuts are written to. -/
structure Recorded (K : Type) where
  graph : PolicyGraph K
  log : CutFile.Log

namespace Recorded

variable {A : Type}

/-- A step on the graph. -/
def onGraph (step : Run K (PolicyGraph K) A) : Run K (Recorded K) A :=
  Run.within Recorded.graph (fun g r => { r with graph := g }) step

/-- Writes a record. -/
def write (r : CutRecord K) : Run K (Recorded K) Unit :=
  Run.change fun s => { s with log := s.log.write r }

/-- Generates a cut at a rib of a node, writes it and puts it into the node. -/
def updateRib (engine : Engine K) (n : Node K) (state : List K) (iteration : Option Int)
    (rib : Option K) : Run K (Recorded K) (CutRecord K) := do
  let cut ← onGraph (PolicyGraph.generateCut engine n state rib iteration)
  let r : CutRecord K := ⟨n.stage, n.markov, rib, cut⟩
  write r
  let _ ← onGraph (Run.ofStep
    (PolicyGraph.installCut n.stage n.markov rib cut (some (.list (state.map .real)))))
  return r

/-- Generates a cut at every rib of a node. -/
def update (engine : Engine K) (n : Node K) (state : List K) (iteration : Option Int) :
    Run K (Recorded K) (List (CutRecord K)) :=
  n.costToGo.ribs.mapM (updateRib engine n state iteration)

/-- Generates the cuts of the node that a path visits at a stage. -/
def updateStage (engine : Engine K) (path : List Int) (states : List (List K))
    (iteration : Option Int) (stage : Nat) : Run K (Recorded K) (List (CutRecord K)) := do
  let g := (← Run.part).graph
  let n ← Step.ofExcept (do g.node stage (← Step.itemAt path stage))
  let state ← Step.ofExcept (Step.itemAt states stage)
  update engine n state iteration

/-- The backward pass along a path, at the states that were left behind. -/
def backward (engine : Engine K) (path : List Int) (states : List (List K))
    (iteration : Option Int) : Run K (Recorded K) (List (CutRecord K)) := do
  let stages := (List.range ((← Run.part).graph.stages - 1)).reverse
  let parts ← stages.mapM (updateStage engine path states iteration)
  return parts.flatten

end Recorded

end DualDynamic
