import DualDynamic.CostToGo
import DualDynamic.Monitor
import DualDynamic.Random.Draw

/-!
# Nodes

A node of a policy graph stands for a stage and a Markov state. It owns a subproblem and the
approximated cost-to-go of the stages behind it, and it remembers the price for which it was set up
last. The nodes of the last stage have nothing behind them: no cuts, and all of their
objective is stage cost.
-/

namespace DualDynamic

/-- A stage and a Markov state. -/
structure Node (K : Type) where
  stage : Nat
  markov : Nat
  /-- Whether the stage is the last one. -/
  isTerminal : Bool
  costToGo : CostToGo K
  model : Subproblem K
  /-- The price for which the node was set up last. -/
  price : Option K := none
  deriving Repr

namespace Node

variable {K A : Type}

/-- The description of a node. -/
def describe (n : Node K) : String :=
  "<Node stage " ++ toString n.stage ++ ", Markov state " ++ toString n.markov ++ ", " ++
    n.costToGo.describe ++ ">"

/-- A step on the subproblem. -/
def onModel (step : Run K (Subproblem K) A) : Run K (Node K) A :=
  Run.within Node.model (fun m n => { n with model := m }) step

section Numerals

variable [Numeral K]

/-- Puts a price into the subproblem: into the costs that depend on it and into the cost-to-go. The
price counts as set only if both succeed. -/
def setPrice (price : Option K) : Run K (Node K) Unit := do
  onModel (Subproblem.setPrice price)
  let n ← Run.part
  if n.isTerminal then Run.change fun n => { n with price := price }
  else
    let model ← Step.ofExcept (n.costToGo.setLocation price n.model)
    Run.change fun n => { n with model := model, price := price }

/-- Draws the price of the node, given the price of the stage before. -/
def samplePrice (n : Node K) (price : Option K) : Draw K (Option K) := do
  let noise := n.costToGo.priceNoise
  let i ← Draw.weighted noise.length (noise.map Prod.snd)
  match noise[i]? with
  | some (w, _) => Step.ofExcept (n.costToGo.nextPrice price w n.stage n.markov)
  | none => throw .outOfRange

/-- Draws the price of the node several times, always given the same price before. -/
def samplePrices (n : Node K) (price : Option K) : Nat → Draw K (List (Option K))
  | 0 => return []
  | count + 1 => do
    let x ← n.samplePrice price
    let rest ← samplePrices n price count
    return x :: rest

/-- The optimal value of the last solve without the cost-to-go. -/
def stageCost (n : Node K) : Except (Fault K) K := do
  let value ← n.model.objective
  if n.isTerminal then return value
  else return value - (← n.costToGo.futureCost n.price n.model)

/-- The node with one more cut, and whether the cut is new. -/
def installCut (n : Node K) (cut : Cut K) (rib : Option K) (state : Option (Datum K)) :
    Except (Fault K) (Bool × Node K) :=
  if n.isTerminal then .error .terminalCut
  else
    (n.costToGo.installCut cut rib state n.model).map fun (new, v, m) =>
      (new, { n with costToGo := v, model := m })

end Numerals

end Node

end DualDynamic
