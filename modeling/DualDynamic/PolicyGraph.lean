import DualDynamic.CutRecord.File
import DualDynamic.Node
import DualDynamic.RiskMeasure
import DualDynamic.Subproblem.Statement

/-!
# Policy graphs

A multistage stochastic program is a graph of nodes, one for each Markov state of each stage, with
the transition probabilities of a Markov chain between consecutive stages. The program of every
node comes from one builder, which is asked again when a node is rebuilt.

A built graph collects cuts. A cut goes to the node that it names and to no other one.
-/

namespace DualDynamic

/-! ## Parts -/

/-- Where the programs of the nodes come from. -/
structure Builder (K : Type) where
  /-- The number of parameters; none if it cannot be called at all. -/
  parameters : Option Nat
  /-- The statements of a node that is built for the first time. -/
  recipe : Recipe K
  /-- The statements of a node that is built again. -/
  again : Recipe K

/-- A builder takes a subproblem, a stage and, if it likes, a Markov state. -/
def Builder.check {K : Type} (b : Builder K) : Except (Fault K) Unit :=
  match b.parameters with
  | none => .error .builder
  | some n => if n == 2 || n == 3 then .ok () else .error .builderArity

/-- A bound as it was given: whole numbers are shown as such. -/
inductive KnownBound (K : Type) where
  | whole (value : Int)
  | real (value : K)
  deriving Repr

namespace KnownBound

variable {K : Type} [Numeral K]

/-- The bound that is taken if none is given. -/
def default : Sense → KnownBound K
  | .minimize => whole (-1000000000)
  | .maximize => whole 1000000000

/-- The bound as a number. -/
def value : KnownBound K → K
  | whole n => Scalar.ofInt n
  | real x => x

/-- The text of a bound. -/
def text : KnownBound K → String
  | whole n => toString n
  | real x => Numeral.text x

end KnownBound

/-- A policy graph. -/
structure PolicyGraph (K : Type) where
  stages : Nat
  sense : Sense
  /-- A bound on the cost-to-go of every node. -/
  knownBound : KnownBound K
  transitions : Transitions K
  /-- The cost-to-go that every node gets a copy of. -/
  template : CostToGo K
  measure : RiskMeasure K := .expectation
  retry : Option (Retry K) := none
  builder : Option (Builder K) := none
  /-- The nodes, by stage and Markov state. -/
  nodes : List (List (Node K)) := []
  /-- The bound on the optimal value that was found last. -/
  bound : Option K := none

namespace PolicyGraph

variable {K A : Type}

/-! ## Nodes -/

/-- The node at a stage and a Markov state; negative ones count from the end. -/
def node (g : PolicyGraph K) (stage markov : Int) : Except (Fault K) (Node K) := do
  Step.itemAt (← Step.itemAt g.nodes stage) markov

/-- The graph with a node put in its place. -/
def putNode (g : PolicyGraph K) (n : Node K) : PolicyGraph K :=
  { g with nodes := g.nodes.modify n.stage fun row => row.set n.markov n }

/-- A step on the node at a stage and a Markov state. -/
def atNode (stage markov : Int) (step : Run K (Node K) A) : Run K (PolicyGraph K) A := do
  let n ← Step.ofExcept ((← Run.part).node stage markov)
  Run.within (fun _ => n) (fun n g => g.putNode n) step

/-- All nodes, stage by stage. -/
def allNodes (g : PolicyGraph K) : List (Node K) := g.nodes.flatten

/-- The number of stored cuts. -/
def cutCount (g : PolicyGraph K) : Nat :=
  (g.allNodes.filter fun n => !n.isTerminal).foldl (fun total n => total + n.costToGo.cutCount) 0

/-- The price before the first stage. -/
def initialPrice (g : PolicyGraph K) : Option K := g.template.pricing.map Pricing.initial

/-- The graph with a rule for retries, which holds for the nodes that there are and for the ones
to come. -/
def setRetry (g : PolicyGraph K) (retry : Option (Retry K)) : PolicyGraph K :=
  { g with
    retry
    nodes := g.nodes.map fun row => row.map fun n => { n with model := { n.model with retry } } }

section Numerals

variable [Numeral K]

/-! ## Probabilities -/

/-- The positions of the positive probabilities, and these. -/
def positive (row : List K) : List (Nat × K) :=
  (row.zipIdx.filter fun (p, _) => Scalar.lt Scalar.zero p).map fun (p, k) => (k, p)

/-- The probabilities of the Markov states of the first stage. -/
def firstRow (g : PolicyGraph K) : List K := g.transitions.row 0 0

/-- The Markov states of the first stage that can occur, with their probabilities. -/
def first (g : PolicyGraph K) : List (Nat × K) := positive g.firstRow

/-- The probabilities of the Markov states of the stage behind a node. -/
def transition (g : PolicyGraph K) (n : Node K) : List K :=
  if n.isTerminal then [] else g.transitions.row (n.stage + 1) n.markov

/-- The Markov states of the stage behind a node that can occur, with their probabilities. -/
def successors (g : PolicyGraph K) (n : Node K) : List (Nat × K) := positive (g.transition n)

/-! ## Descriptions -/

/-- The name of the problem. -/
def problemName (g : PolicyGraph K) : String :=
  match g.sense with
  | .minimize => "Minimization"
  | .maximize => "Maximization"

/-- The description of a graph. -/
def describe (g : PolicyGraph K) : String :=
  "<PolicyGraph " ++ g.problemName ++ " problem, " ++ toString g.stages ++ " stages, [" ++
    ", ".intercalate (g.transitions.sizes.map fun n => toString n) ++ "] Markov states, " ++
    g.knownBound.text ++ " known bound>"

/-! ## Construction -/

/-- Whether a value is one of the numbers zero and one. -/
def isSwitch (d : Datum K) : Bool :=
  match d.number with
  | .ok x => d.isNumber && (Scalar.eq x Scalar.zero || Scalar.eq x Scalar.one)
  | .error _ => false

/-- A graph without nodes. The numbers are looked at first, then the transition matrices, then the
template. -/
def ofData (stages : Int) (bound : Option (KnownBound K)) (sense : Int) (matrices : Datum K)
    (template : CostToGo K) (output : Datum K) : Except (Fault K) (PolicyGraph K) := do
  let some sense := Sense.ofInt? sense | throw .graphArguments
  if stages < 2 || !isSwitch output then throw .graphArguments
  let transitions ← Transitions.check matrices stages
  if template.isStarted then throw .templateInUse
  return {
    stages := stages.toNat
    sense
    knownBound := bound.getD (.default sense)
    transitions
    template }

/-- A new subproblem for a node: the statements of the builder, and the rows that tie the local
copies of the state. -/
def newModel (g : PolicyGraph K) (recipe : Recipe K) (stage markov : Nat) :
    Except (Fault K) (Subproblem K) := do
  let title := toString stage ++ "_" ++ toString markov
  let m : Subproblem K := { Subproblem.empty title g.sense with retry := g.retry }
  let (result, m) := (recipe.build stage markov).attempt m
  result
  if m.isIntegral then throw (.integerVariables title)
  let (result, m) := Subproblem.linkStates.attempt m
  result
  return m

/-- A new node. -/
def newNode (g : PolicyGraph K) (b : Builder K) (stage markov : Nat) :
    Except (Fault K) (Node K) := do
  let model ← g.newModel b.recipe stage markov
  if stage + 1 == g.stages then
    return { stage, markov, isTerminal := true, costToGo := g.template.spawn, model }
  let (costToGo, model) ← g.template.spawn.start g.sense.sign g.knownBound.value model
  return { stage, markov, isTerminal := false, costToGo, model }

/-- New nodes for all stages and Markov states. -/
def newNodes (g : PolicyGraph K) (b : Builder K) : Except (Fault K) (List (List (Node K))) :=
  (List.range g.stages).mapM fun t =>
    (List.range (g.transitions.sizes.getD t 0)).mapM (g.newNode b t)

/-- The number of state variables at a stage: all nodes must have the same one. -/
def stageStates (t : Nat) (row : List (Node K)) : Except (Fault K) Nat :=
  match row.map fun n => n.model.stateCount with
  | [] => .error (.unequalStates t)
  | n :: others => if others.all (· == n) then .ok n else .error (.unequalStates t)

/-- The numbers of state variables are the same in every stage and from stage to stage. -/
def checkStates : Nat → Option Nat → List (List (Node K)) → Except (Fault K) Unit
  | _, _, [] => .ok ()
  | t, previous, row :: rest => do
    let n ← stageStates t row
    match previous with
    | some before => if n != before then throw (.adjacentStates t n (t - 1) before)
    | none => pure ()
    checkStates (t + 1) (some n) rest

/-- Builds all nodes. The builder is kept even if that fails. -/
def build (b : Builder K) : Step K (PolicyGraph K) Unit := do
  Step.ofExcept b.check
  modify fun g => { g with builder := some b }
  let nodes ← Step.ofExcept ((← get).newNodes b)
  modify fun g => { g with nodes := nodes }
  Step.ofExcept (checkStates 0 none nodes)

/-- A node with a new subproblem that has the rows of its active cuts. -/
def rebuilt (g : PolicyGraph K) (n : Node K) : Except (Fault K) (Node K) := do
  let some b := g.builder | throw .badType
  let model ← g.newModel b.again n.stage n.markov
  if model.stateCount != n.model.stateCount then
    throw (.rebuiltStates model.title model.stateCount n.model.stateCount)
  if n.isTerminal then return { n with model := model, price := none }
  let (costToGo, model) := n.costToGo.rebuild model
  return { n with costToGo := costToGo, model := model, price := none }

/-- Rebuilds a node. -/
def rebuild (n : Node K) : Step K (PolicyGraph K) Unit := do
  let n ← Step.ofExcept ((← get).rebuilt n)
  modify fun g => g.putNode n

/-- Whether a node has rows of cuts that rebuilding may remove. -/
def isCleanable (n : Node K) : Bool := !n.isTerminal && n.costToGo.prunes

/-- Rebuilds the nodes whose cuts may be retired, so that retired cuts leave their programs. -/
def clean : Step K (PolicyGraph K) Unit := do
  Step.each ((← get).allNodes.filter isCleanable) rebuild

/-! ## Cuts -/

/-- Puts a cut into a node, and says whether it is new there. -/
def installCut (stage markov : Int) (rib : Option K) (cut : Cut K) (state : Option (Datum K)) :
    Step K (PolicyGraph K) Bool := do
  let n ← Step.ofExcept (((← get).node stage markov).mapError fun _ => .noNode stage markov)
  let (new, n) ← Step.ofExcept (n.installCut cut rib state)
  modify fun g => g.putNode n
  return new

/-- Puts the cut of a record into the node that it names. -/
def installRecord (r : CutRecord K) : Step K (PolicyGraph K) Bool :=
  installCut r.stage r.markov r.rib r.cut none

/-- Puts the cuts of records into their nodes, and says how many were new. -/
def replay : List (CutRecord K) → Step K (PolicyGraph K) Nat
  | [] => return 0
  | r :: rs => do
    let new ← installRecord r
    let count ← replay rs
    return if new then count + 1 else count

/-- Replays a cut file up to its first fault, and says how many cuts were new. -/
def readCuts (path text : String) : Step K (PolicyGraph K) Nat := do
  let (records, fault) := CutFile.read path text
  let count ← replay records
  match fault with
  | some f => throw f
  | none => return count

end Numerals

end PolicyGraph

end DualDynamic
