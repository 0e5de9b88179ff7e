import DualDynamic.Proofs.PolicyGraph
import DualDynamic.Proofs.Subproblem.Pricing

/-!
# Prices that fail

Setting the price of a node writes the costs that depend on it, one rule after the other, then the weights
of the cost-to-go, and records the price last. It fails at the first rule that gives no number, or, after
all of them, at a price outside the ribs. What was written until then stays: the node has some costs
of the new price, and all else of the old one, the recorded price included (`setPrice_eq_error`). So a
price that fails leaves the objective as it was only if everything written was there already
(`failsCleanly_iff`).
-/

namespace DualDynamic

open Step

variable {K : Type} [Numeral K]

/-! ## Costs written one after the other -/

namespace LinearProgram

/-- The program with costs written to variables, one after the other. -/
def withCosts (costs : List (ℕ × K)) (p : LinearProgram K) : LinearProgram K :=
  costs.foldl (fun p e => p.setCost e.1 e.2) p

/-- What was written to a variable last. -/
def lastCost (costs : List (ℕ × K)) (i : ℕ) : Option K := costs.reverse.lookup i

omit [Numeral K] in
theorem lastCost_concat (costs : List (ℕ × K)) (e : ℕ × K) (i : ℕ) :
    lastCost (costs ++ [e]) i = if e.1 = i then some e.2 else lastCost costs i := by
  rw [lastCost, List.reverse_concat, List.lookup_cons]
  by_cases h : e.1 = i
  · simp [h]
  · rw [if_neg h, beq_false_of_ne fun h' => h h'.symm]
    rfl

/-- A variable costs what was written to it last, if something was. -/
theorem read_withCosts (costs : List (ℕ × K)) (p : LinearProgram K) (i : ℕ) :
    (p.withCosts costs).read (.cost i) = (p.read (.cost i)).map ((lastCost costs i).getD ·) := by
  induction costs using List.reverseRecOn with
  | nil =>
    show p.read (.cost i) = (p.read (.cost i)).map id
    rw [Option.map_id_fun, id]
  | append_singleton costs e ih =>
    have hstep : p.withCosts (costs ++ [e]) = (p.withCosts costs).setCost e.1 e.2 := by
      rw [withCosts, List.foldl_concat]
      rfl
    rw [hstep, lastCost_concat]
    by_cases h : e.1 = i
    · rw [if_pos h, h]
      have hwritten : ((p.withCosts costs).setCost i e.2).read (.cost i) =
          ((p.withCosts costs).read (.cost i)).map fun _ => e.2 := by
        simp only [read, setCost, getElem?_changeVariable, if_true, Option.map_map]
        rfl
      rw [hwritten, ih, Option.map_map]
      rfl
    · rw [if_neg h, (writesCell_setCost e.1 e.2).other _ _ fun hcell => h (Cell.cost.inj hcell).symm, ih]

/-- The costs are as they were if what was written last was there already. -/
theorem read_withCosts_iff (costs : List (ℕ × K)) (p : LinearProgram K) :
    (∀ i, (p.withCosts costs).read (.cost i) = p.read (.cost i)) ↔
      ∀ i x y, lastCost costs i = some x → p.read (.cost i) = some y → x = y := by
  refine forall_congr' fun i => ?_
  rw [read_withCosts]
  cases p.read (.cost i) with
  | none => simp
  | some y => cases lastCost costs i <;> simp

end LinearProgram

/-! ## The rules for the price -/

namespace Subproblem

/-- What the rules come to at a price, up to the first one that fails. -/
def costsUpTo (price : Option K) : List (ℕ × Formula K) → List (ℕ × K)
  | [] => []
  | e :: rules =>
    match priceCost price e.2 with
    | .ok x => (e.1, x) :: costsUpTo price rules
    | .error _ => []

/-- Why the first one fails that does. -/
def ruleFault? (price : Option K) : List (ℕ × Formula K) → Option (Fault K)
  | [] => none
  | e :: rules =>
    match priceCost price e.2 with
    | .ok _ => ruleFault? price rules
    | .error fault => some fault

/-- The subproblem with costs written to its variables. -/
def withCosts (costs : List (ℕ × K)) (m : Subproblem K) : Subproblem K :=
  { m with program := m.program.withCosts costs }

variable {price : Option K}

theorem writePrices_eq (rules : List (ℕ × Formula K)) (w : Watched (Subproblem K)) :
    Step.each rules (writePrice price) w = match ruleFault? price rules with
      | none => .ok () ⟨w.monitor, w.part.withCosts (costsUpTo price rules)⟩
      | some e => .error e ⟨w.monitor, w.part.withCosts (costsUpTo price rules)⟩ := by
  induction rules generalizing w with
  | nil => rfl
  | cons e rules ih =>
    have hrun : Step.each (e :: rules) (writePrice price) w =
        (writePrice price e >>= fun _ => Step.each rules (writePrice price)) w := rfl
    rw [hrun]
    cases hcost : priceCost price e.2 with
    | error fault =>
      have hwrite : writePrice price e w = .error fault w := by
        rw [writePrice, hcost]
        rfl
      rw [bind_of_error hwrite]
      simp only [ruleFault?, costsUpTo, hcost]
      rfl
    | ok x =>
      rw [bind_of_ok (writePrice_eq_ok.2 ⟨x, hcost, rfl⟩), ih]
      simp only [ruleFault?, costsUpTo, hcost]
      rfl

/-- The rules are followed up to the first one that fails. -/
theorem setPrice_apply (price : Option K) (w : Watched (Subproblem K)) :
    setPrice price w = match ruleFault? price w.part.priceObjective with
      | none => .ok () ⟨w.monitor, w.part.withCosts (costsUpTo price w.part.priceObjective)⟩
      | some e => .error e ⟨w.monitor, w.part.withCosts (costsUpTo price w.part.priceObjective)⟩ := by
  rw [setPrice_eq, writePrices_eq]

end Subproblem

/-! ## Nodes -/

namespace Node

variable {n : Node K} {price : Option K} {i : Monitor} {e : Fault K} {w : Watched (Node K)}

/-- What the rules of a node come to at a price, up to the first one that fails. -/
def costsUpTo (n : Node K) (price : Option K) : List (ℕ × K) :=
  Subproblem.costsUpTo price n.model.priceObjective

/-- The node with these costs, and everything else as it was. -/
def withCosts (n : Node K) (price : Option K) : Node K :=
  { n with model := n.model.withCosts (n.costsUpTo price) }

/-- Why a price fails, if it does: a rule does, or the price is outside the ribs. -/
def priceFault? (n : Node K) (price : Option K) : Option (Fault K) :=
  match Subproblem.ruleFault? price n.model.priceObjective with
  | some e => some e
  | none =>
    if n.isTerminal then none
    else match n.costToGo.location price with
      | .error e => some e
      | .ok _ => none

theorem onModel_setPrice (price : Option K) (i : Monitor) (n : Node K) :
    onModel (Subproblem.setPrice price) ⟨i, n⟩ =
      match Subproblem.ruleFault? price n.model.priceObjective with
      | none => .ok () ⟨i, n.withCosts price⟩
      | some e => .error e ⟨i, n.withCosts price⟩ := by
  rw [onModel, Run.within, within, Subproblem.setPrice_apply]
  cases hfault : Subproblem.ruleFault? price n.model.priceObjective <;> rfl

/-- A price that fails has written the costs up to the fault, and nothing else. -/
theorem setPrice_eq_error : setPrice price ⟨i, n⟩ = .error e w ↔
    n.priceFault? price = some e ∧ w = ⟨i, n.withCosts price⟩ := by
  have hrules := onModel_setPrice price i n
  unfold priceFault?
  cases hfault : Subproblem.ruleFault? price n.model.priceObjective with
  | some fault =>
    rw [hfault] at hrules
    rw [setPrice, bind_of_error hrules]
    simp [eq_comm]
  | none =>
    rw [hfault] at hrules
    rw [setPrice, bind_of_ok hrules, Run.part_bind_apply]
    have hterminal : (n.withCosts price).isTerminal = n.isTerminal := rfl
    have hweights : (n.withCosts price).costToGo.setLocation price (n.withCosts price).model =
        n.costToGo.setLocation price (n.withCosts price).model := rfl
    rw [hterminal, hweights, CostToGo.setLocation]
    cases n.isTerminal with
    | true => simp [Run.change, modify, modifyGet, MonadStateOf.modifyGet, EStateM.modifyGet]
    | false =>
      simp only [Bool.false_eq_true, if_false]
      cases n.costToGo.location price with
      | error fault =>
        rw [exceptBind_error, ofExcept_error_bind_apply]
        simp [eq_comm]
      | ok weights =>
        refine iff_of_false ?_ fun h => by cases h.1
        intro h
        cases h

/-- What is wanted of a price: if it fails, then all costs of the program and the recorded price are
as before. -/
def FailsCleanly (n : Node K) (price : Option K) : Prop :=
  ∀ i e w, setPrice price ⟨i, n⟩ = .error e w → w.part.price = n.price ∧
    ∀ j, w.part.model.program.read (.cost j) = n.model.program.read (.cost j)

/-- A price that fails leaves the recorded price and the program, apart from the costs of the variables
that have a rule in front of the fault: these cost what the rules come to at the new price. So a price
leaves the node intact exactly if it does not fail, or each of these variables has that cost already. -/
theorem failsCleanly_iff (n : Node K) (price : Option K) :
    (n.FailsCleanly price ↔ n.priceFault? price = none ∨ ∀ j x y,
      LinearProgram.lastCost (n.costsUpTo price) j = some x →
        n.model.program.read (.cost j) = some y → x = y) ∧
    ∀ i e w, setPrice price ⟨i, n⟩ = .error e w ↔
      n.priceFault? price = some e ∧ w = ⟨i, n.withCosts price⟩ := by
  refine ⟨⟨fun h => ?_, fun h i e w hrun => ?_⟩, fun _ _ _ => setPrice_eq_error⟩
  · cases hfault : n.priceFault? price with
    | none => exact Or.inl rfl
    | some e =>
      obtain ⟨-, hcosts⟩ := h {} e _ (setPrice_eq_error.2 ⟨hfault, rfl⟩)
      exact Or.inr ((LinearProgram.read_withCosts_iff _ _).1 hcosts)
  · obtain ⟨hfault, rfl⟩ := setPrice_eq_error.1 hrun
    rcases h with hnone | hcosts
    · rw [hnone] at hfault
      cases hfault
    · exact ⟨rfl, (LinearProgram.read_withCosts_iff _ _).2 hcosts⟩

end Node

/-! ## A market -/

namespace Market

/-- Stock is kept, and what is sold brings the price. -/
def recipe : Recipe ℚ := fun _ _ =>
  [.state "stock" ⟨0, 10, 0, "C"⟩ (.real 0) .absent, .var "sold" ⟨0, 1, 0, "C"⟩ .absent,
    .priceObjective [("sold", some (.name "price"))]]

def builder : Builder ℚ := ⟨some 3, recipe, recipe⟩

/-- The problem before it is built: prices from zero to two. -/
def unbuilt : PolicyGraph ℚ :=
  { stages := 2, sense := .minimize, knownBound := .whole 0, transitions := .trivial 2,
    template := .alongPrice .keepAll ⟨[0, 2], none, 1, [.real 0], [1]⟩ }

def graph : PolicyGraph ℚ := final (PolicyGraph.build builder) unbuilt

theorem build_graph : PolicyGraph.build builder unbuilt = .ok () graph := by
  have hsucceeds : succeeds (PolicyGraph.build builder) unbuilt = true := by decide +kernel
  exact eq_ok_final hsucceeds

/-- The fault of the price nine. -/
def isOutside : Option (Fault ℚ) → Bool
  | some (.outsideRibs (some x) ribs) => decide (x = 9 ∧ ribs = [0, 2])
  | _ => false

theorem eq_of_isOutside {fault : Option (Fault ℚ)} (h : isOutside fault = true) :
    fault = some (.outsideRibs (some 9) [0, 2]) := by
  unfold isOutside at h
  split at h
  · obtain ⟨rfl, rfl⟩ := of_decide_eq_true h
    rfl
  · cases h

end Market

namespace Node

/-- A seller at the price one is told the price nine, which is outside the ribs. Then what is sold
brings nine, at a recorded price of one. -/
theorem not_failsCleanly_market : ∃ n : Node ℚ, n ∈ Market.graph.allNodes ∧ n.isTerminal = false ∧
    ∃ v w, setPrice (some 1) ⟨{}, n⟩ = .ok () v ∧
      setPrice (some 9) v = .error (.outsideRibs (some 9) [0, 2]) w ∧ ¬ v.part.FailsCleanly (some 9) ∧
      w.part.price = some 1 ∧ v.part.model.program.read (.cost 2) = some 1 ∧
      w.part.model.program.read (.cost 2) = some 9 := by
  have hfirst : (Market.graph.nodeAt 0 0).any (fun n : Node ℚ => !n.isTerminal &&
      succeeds (setPrice (some 1)) ⟨{}, n⟩ &&
      let v := (final (setPrice (some 1)) ⟨{}, n⟩).part
      Market.isOutside (v.priceFault? (some 9)) &&
      decide (v.price = some 1 ∧ v.model.program.read (.cost 2) = some 1 ∧
        (v.withCosts (some 9)).model.program.read (.cost 2) = some 9)) = true := by decide +kernel
  obtain ⟨n, hn, htest⟩ := (Option.any_eq_true _ _).1 hfirst
  simp only [Bool.and_eq_true, Bool.not_eq_true', decide_eq_true_eq] at htest
  obtain ⟨⟨hterminal, hsucceeds⟩, hfault, hprice, hbefore, hafter⟩ := htest
  set v := final (setPrice (some 1)) ⟨{}, n⟩ with hv
  have hfails : v.part.priceFault? (some 9) = some (.outsideRibs (some 9) [0, 2]) :=
    Market.eq_of_isOutside hfault
  have hrun : setPrice (some 9) v = .error (.outsideRibs (some 9) [0, 2])
      ⟨v.monitor, v.part.withCosts (some 9)⟩ := setPrice_eq_error.2 ⟨hfails, rfl⟩
  refine ⟨n, PolicyGraph.mem_allNodes.2 ⟨0, 0, hn⟩, hterminal, v, _, eq_ok_final hsucceeds, hrun,
    fun hclean => ?_, hprice, hbefore, hafter⟩
  have hsame := (hclean _ _ _ hrun).2 2
  rw [hbefore, hafter] at hsame
  norm_num at hsame

end Node

end DualDynamic
