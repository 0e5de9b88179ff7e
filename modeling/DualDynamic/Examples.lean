import DualDynamic.PolicyGraph

/-!
# Example problems

Four small problems with known solutions or simple structure: the expansion of generating
capacity, a newsvendor, an inventory with Markovian demand, and a reservoir that sells into a market
whose price is a random walk.
-/

namespace DualDynamic.Examples

/-! ## Writing statements -/

/-- A variable from zero up. -/
def plain (cost : Float) : VariableSpec Float := ⟨0.0, 1.0 / 0.0, cost, "C"⟩

/-- A variable between zero and a number. -/
def upTo (upper : Float) : VariableSpec Float := ⟨0.0, upper, 0.0, "C"⟩

/-- A list of numbers. -/
def reals (xs : List Float) : Datum Float := .list (xs.map .real)

/-- A row without scenarios. -/
def row (name : String) (terms : List (String × Float)) (relation : Relation) (rhs : Float) :
    Statement Float :=
  .constr name ⟨terms, relation, rhs⟩ (.inl .absent)

/-- A row that is equal to scenarios. -/
def uncertainRow (name : String) (terms : List (String × Float)) (scenarios : List Float) :
    Statement Float :=
  .constr name ⟨terms, .equal, 0.0⟩ (.inr [("rhs", reals scenarios)])

/-- The name of a member of a group with two indices. -/
def entryName (name : String) (i j : Nat) : String :=
  name ++ "[" ++ toString i ++ "," ++ toString j ++ "]"

/-- A graph built from statements by stage and Markov state. -/
def built (g : Except (Fault Float) (PolicyGraph Float)) (recipe : Recipe Float) :
    Except (Fault Float) (PolicyGraph Float) := do
  let (result, g) := (PolicyGraph.build ⟨some 3, recipe, recipe⟩).attempt (← g)
  result
  return g

/-- A graph without Markov states in which every node has a single cost-to-go. -/
def simple (stages sense : Int) (bound : KnownBound Float) (selection : Selection Float) :
    Except (Fault Float) (PolicyGraph Float) :=
  PolicyGraph.ofData stages (some bound) sense .absent (.single selection) (.whole 0)

/-! ## Capacity expansion -/

/-- The costs of investing into one unit of each kind of plant. -/
def investmentCosts : List Float := [16.0, 5.0, 32.0, 2.0]

/-- The costs of running each kind of plant. -/
def operationCosts : List Float := [25.0, 80.0, 6.5, 160.0]

/-- The share of the year that each mode of load takes. -/
def durations : List Float := [8760.0 / 8760.0, 7000.0 / 8760.0, 1500.0 / 8760.0]

/-- The kinds of plants. -/
def plants : List Nat := List.range 4

/-- The modes of load. -/
def modes : List Nat := List.range 3

/-- The output of a kind of plant in a mode of load. -/
def produce (i j : Nat) : Statement Float :=
  .var (entryName "produce" i j) (plain (operationCosts.getD i 0.0 * durations.getD j 0.0)) .absent

/-- The statements of capacity expansion: capacity is decided on in the first stage and meets one
of two demands in the second one. -/
def capacityExpansionRecipe : Recipe Float := fun stage _ =>
  let capacity := Subproblem.member "capacity"
  let past := Subproblem.member (Statement.copyName "capacity")
  let invest := Subproblem.member "invest"
  let expand := plants.map fun i =>
    ⟨[(capacity i, 1.0), (past i, -1.0), (invest i, -1.0)], .equal, 0.0⟩
  let available := plants.map fun i =>
    ⟨(modes.map fun j => (entryName "produce" i j, 1.0)) ++ [(past i, -1.0)], .atMost, 0.0⟩
  let demand := modes.map fun j =>
    ⟨(plants.map fun i => (entryName "produce" i j, 1.0)) ++ [("penalty", 1.0)], .atLeast, 0.0⟩
  [.states "capacity" (plants.map fun _ => plain 0.0) (.real 0.0) .absent] ++
    (plants.flatMap fun i => modes.map (produce i)) ++
    [.vars "invest" (investmentCosts.map plain) .absent, .var "penalty" (plain 1e6) .absent,
      .constrs "expand" expand .absent, .constrs "available" available .absent] ++
    if stage == 1 then
      [.constrs "demand" demand
        (.list [reals [3919.0, 3410.0, 2986.0], reals [7086.0, 1918.0, 2165.0]]),
        .probability (reals [0.9, 0.1]),
        row "final" (plants.map fun i => (invest i, 1.0)) .equal 0.0]
    else []

/-- Capacity expansion. -/
def capacityExpansion (selection : Selection Float) : Except (Fault Float) (PolicyGraph Float) :=
  built (simple 2 1 (.real 0.0) selection) capacityExpansionRecipe

/-! ## Newsvendor -/

/-- The statements of the newsvendor: what was bought is sold as far as there is demand, and the
rest is recycled. -/
def newsvendorRecipe : Recipe Float := fun stage _ =>
  if stage == 0 then [.state "bought" (plain (-1.0)) (.real 0.0) .absent]
  else
    [.state "bought" (plain 0.0) (.real 0.0) .absent, .var "sold" (plain 2.0) .absent,
      .var "unsatisfied" (plain 0.0) .absent, .var "recycled" (plain 0.5) .absent,
      uncertainRow "demand" [("sold", 1.0), ("unsatisfied", 1.0)]
        ((List.range 11).map Nat.toFloat),
      row "balance" [("sold", 1.0), ("recycled", 1.0), (Statement.copyName "bought", -1.0)]
        .equal 0.0]

/-- The newsvendor. -/
def newsvendor (selection : Selection Float) : Except (Fault Float) (PolicyGraph Float) :=
  built (simple 2 (-1) (.whole 20) selection) newsvendorRecipe

/-! ## Inventory -/

/-- The levels of demand, by stage and Markov state. -/
def demandLevels : List (List Float) := [[5.0], [3.0, 8.0], [3.0, 8.0]]

/-- The transition matrices of the demand. -/
def demandTransitions : Datum Float :=
  .list [.list [reals [1.0]], .list [reals [0.5, 0.5]],
    .list [reals [0.7, 0.3], reals [0.3, 0.7]]]

/-- The statements of the inventory: stock serves the demand, and what is missing is ordered or
lost. -/
def inventoryRecipe : Recipe Float := fun stage markov =>
  let level := (demandLevels.getD stage []).getD markov 0.0
  [.state "stock" (plain 0.5) (.real 2.0) .absent, .var "order" (plain 1.0) .absent,
    .var "lost" (plain 5.0) .absent,
    uncertainRow "balance"
      [("stock", 1.0), (Statement.copyName "stock", -1.0), ("order", -1.0), ("lost", -1.0)]
      ([-1.0, 0.0, 1.0].map fun noise => -(level + noise))]

/-- The inventory. -/
def inventory : Except (Fault Float) (PolicyGraph Float) :=
  built (PolicyGraph.ofData 3 (some (.real 0.0)) 1 demandTransitions (.single .keepAll) (.whole 0))
    inventoryRecipe

/-! ## Reservoir -/

/-- The price moves by its noise and stays between zero and one hundred. -/
def spotPrice : Formula Float :=
  let moved := Formula.apply .add (.name "price") (.name "noise")
  .apply .min (.apply .max moved (.constant (.real 0.0))) (.constant (.real 100.0))

/-- The statements of the reservoir: inflow is stored, released or spilled, and what the release
does not cover is bought at the spot price. -/
def reservoirRecipe : Recipe Float := fun _ _ =>
  [.state "volume" (upTo 200.0) (.real 100.0) .absent, .var "hydro" (upTo 100.0) .absent,
    .var "spill" (plain 0.0) .absent, .var "buy" (plain 0.0) .absent,
    uncertainRow "balance"
      [("volume", 1.0), (Statement.copyName "volume", -1.0), ("hydro", 1.0), ("spill", 1.0)]
      [0.0, 25.0, 50.0],
    row "load" [("hydro", 1.0), ("buy", 1.0)] .atLeast 120.0,
    .priceObjective [("buy", some (.name "price"))]]

/-- The usual ribs of the reservoir. -/
def reservoirRibs : Datum Float := reals [0.0, 25.0, 50.0, 75.0, 100.0]

/-- The reservoir. -/
def reservoir (ribs : Datum Float) (selection : Selection Float) (stages : Int) :
    Except (Fault Float) (PolicyGraph Float) := do
  let pricing ← Pricing.ofData ribs (.rule spotPrice) (.real 50.0) (reals [-10.0, 10.0]) .absent
  let template := CostToGo.alongPrice selection pricing
  built (PolicyGraph.ofData stages (some (.real 0.0)) 1 .absent template (.whole 0))
    reservoirRecipe

end DualDynamic.Examples
