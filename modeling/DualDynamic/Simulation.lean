import DualDynamic.PolicyGraph

/-!
# Simulating a policy

A pass goes through the stages of a graph once. In each stage it draws a Markov state, then a price,
then a realization, and takes the optimal decision there: the outgoing state goes on to the
next stage. What is drawn depends on the stream alone and not on the decisions, so that passes from
equal streams follow the same path under different policies.
-/

namespace DualDynamic

/-- What a pass leaves behind in a stage. -/
structure Visit (K : Type) where
  markov : Nat
  price : Option K
  /-- The outgoing state. -/
  state : List K
  /-- The objective without the cost-to-go. -/
  cost : K
  /-- The values of the variables that were asked for; a missing number if there is none of that
  name. -/
  queried : List (String × K)
  deriving Repr

/-- A pass: one visit per stage. -/
abbrev Pass (K : Type) : Type := List (Visit K)

namespace Pass

variable {K : Type}

/-- The Markov states of the nodes that were visited. -/
def path (p : Pass K) : List Int := p.map fun v => (v.markov : Int)

/-- The outgoing states. -/
def states (p : Pass K) : List (List K) := p.map Visit.state

/-- The values that were asked for, by name and stage. -/
def queried (p : Pass K) : List (String × List K) :=
  let names := ((p.head?.map Visit.queried).getD []).map Prod.fst
  names.map fun name => (name, p.filterMap fun v => v.queried.lookup name)

/-- The stage costs in total. -/
def value [Scalar K] (p : Pass K) : K := Scalar.sum (p.map Visit.cost)

end Pass

/-- A graph and the stream that its passes draw from. -/
structure Simulated (K : Type) where
  graph : PolicyGraph K
  stream : MersenneTwister

namespace Simulated

variable {K A : Type}

/-- A draw from the stream. -/
def draw (step : Draw K A) : Run K (Simulated K) A :=
  Run.ofStep (Step.within Simulated.stream (fun s w => { w with stream := s }) step)

/-- A step on a node. -/
def atNode (stage markov : Nat) (step : Run K (Node K) A) : Run K (Simulated K) A :=
  Run.within Simulated.graph (fun g s => { s with graph := g })
    (PolicyGraph.atNode stage markov step)

section Numerals

variable [Numeral K]

/-- The value of the last variable with a name in the last solution. -/
def valueNamed (m : Subproblem K) (name : String) : Except (Fault K) K :=
  match (List.range m.program.vars.size).reverse.find? fun i => m.variableName i == name with
  | some i => m.valueOf i
  | none => .ok Numeral.missing

/-- The probabilities of the Markov states of a stage, given the one of the stage before. -/
def chances (g : PolicyGraph K) (stage : Nat) (previous : Option Nat) : List K :=
  match previous with
  | none => g.firstRow
  | some k => g.transitions.row stage k

/-- Sets a node up for a realization and a price, and solves it. -/
def decide (engine : Engine K) (price : Option K) (realization : Nat) : Run K (Node K) Unit := do
  Node.onModel (Subproblem.setRealization realization)
  Node.setPrice price
  let n ← Run.part
  let _ ← Node.onModel (Subproblem.solve engine (some n.stage) (some n.markov))

/-- What a node has to say after it was solved. -/
def report (n : Node K) (query : List String) : Except (Fault K) (Visit K) := do
  let state ← n.model.outgoing
  let queried ← query.mapM fun name => return (name, ← valueNamed n.model name)
  let cost ← n.stageCost
  return { markov := n.markov, price := n.price, state, cost, queried }

/-- The visit of one stage, given Markov state and outgoing state of the stage before, if there
is one, and its price. -/
def visit (engine : Engine K) (query : List String) (stage : Nat)
    (previous : Option (Nat × List K)) (price : Option K) : Run K (Simulated K) (Visit K) := do
  let row := chances (← Run.part).graph stage (previous.map Prod.fst)
  let k ← draw (Draw.weighted row.length row)
  let n ← Step.ofExcept ((← Run.part).graph.node stage k)
  let incoming := (previous.map Prod.snd).getD n.model.initialValues
  atNode stage k (Node.onModel (Subproblem.setIncoming incoming))
  let price ← draw (n.samplePrice price)
  let realization ← draw (Draw.item n.model.sampleCount n.model.probability)
  atNode stage k (decide engine price realization)
  let n ← Step.ofExcept ((← Run.part).graph.node stage k)
  Step.ofExcept (report n query)

/-- The visits of the last stages, `count` in number. -/
def visits (engine : Engine K) (query : List String) (stages : Nat) :
    Nat → Option (Nat × List K) → Option K → Run K (Simulated K) (Pass K)
  | 0, _, _ => return []
  | count + 1, previous, price => do
    let v ← visit engine query (stages - (count + 1)) previous price
    let rest ← visits engine query stages count (some (v.markov, v.state)) v.price
    return v :: rest

/-- A pass. Each name is asked for once. -/
def forward (engine : Engine K) (query : List String) : Run K (Simulated K) (Pass K) := do
  let g := (← Run.part).graph
  visits engine query.eraseDups g.stages g.stages none g.initialPrice

/-- Some passes, one after the other. -/
def passes (engine : Engine K) (query : List String) : Nat → Run K (Simulated K) (List (Pass K))
  | 0 => return []
  | n + 1 => do
    let p ← forward engine query
    let rest ← passes engine query n
    return p :: rest

/-- Passes through a graph that draw from a stream. -/
def onGraph (stream : MersenneTwister) (step : Run K (Simulated K) A) :
    Run K (PolicyGraph K) A :=
  Run.within (fun g => ⟨g, stream⟩) (fun s _ => s.graph) step

end Numerals

end Simulated

end DualDynamic
