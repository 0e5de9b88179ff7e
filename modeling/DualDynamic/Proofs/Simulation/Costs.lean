import DualDynamic.Proofs.Node.StageCost
import DualDynamic.Proofs.PolicyGraph.Shown
import DualDynamic.Proofs.Simulation.Paths

/-!
# Passes count every cost once

A pass sums up what its stages were charged. Each of them was charged for the objective without the
cost-to-go, at the solution that its node still has when the pass is through, and the last stage for all
of it (`Simulated.costs_add_up`). So what the cuts promise about the stages behind is in no charge,
whatever cuts there are and whatever the graph was used for before: no name ever stands for a variable of
the cost-to-go, in a graph that was built, and in what becomes of it (`PolicyGraph.KeepsApart`).

The coefficients are those of the realization and the price that the pass has drawn. A retry that writes
costs breaks this rule, in the programs that it is asked about (`Simulated.costs_run_over_wager`).
-/

namespace DualDynamic

open Step

variable {K : Type}

/-! ## Variables of the cost-to-go stay apart -/

namespace CostToGo

variable [Numeral K] {v : CostToGo K} {m : Subproblem K} {rows : ℕ}

/-- New variables stand behind those that names can stand for. -/
theorem isApart_withRibVariables (hwell : m.WellFormed rows) (f : Frame K) (count : ℕ)
    (hvars : v.vars = nextVariables count m) : v.IsApart (withRibVariables f count m) := by
  have hnames : (withRibVariables f count m).variableNames = m.variableNames := by
    obtain ⟨p, r, t, s, heq⟩ := Subproblem.exists_of_outline (outline_withRibVariables f count m)
    rw [heq]
  have hsize : (withRibVariables f count m).program.vars.size = m.program.vars.size + count := by
    rw [withRibVariables, (foldl_withVariable _ m).2]
    simp
  constructor
  · rw [hvars]
    exact List.nodup_range.map fun i j hij => Nat.add_left_cancel hij
  · intro x hx
    rw [hvars] at hx
    obtain ⟨i, hi, rfl⟩ := List.mem_map.1 hx
    have hi := List.mem_range.1 hi
    omega
  · intro e he hx
    rw [hnames] at he
    rw [hvars] at hx
    obtain ⟨i, -, heq⟩ := List.mem_map.1 hx
    have hlt := hwell.variableNames e he
    omega

theorem isApart_rebuild (hwell : m.WellFormed rows) {f : Frame K} (hf : v.frame = some f) :
    (v.rebuild m).1.IsApart (v.rebuild m).2 := by
  simp only [rebuild, hf]
  refine installActive_induction (P := IsApart) (isApart_withRibVariables hwell f _ rfl) ?_
  exact fun _ _ _ _ _ _ h _ _ _ => ⟨h.distinct, h.there, h.unnamed⟩

end CostToGo

namespace PolicyGraph

variable [Numeral K] {g g₀ unbuilt : PolicyGraph K} {d t k : ℕ} {n n' : Node K}

/-- A node that shows its cuts, and whose variables for the cost-to-go stay apart. -/
def KeepsApart (g : PolicyGraph K) (d t k : ℕ) (n : Node K) : Prop :=
  n.ShowsCuts g d t k ∧ n.costToGo.IsApart n.model

theorem unreached_keepsApart (g : PolicyGraph K) (d : ℕ) : Unreached (KeepsApart g d) where
  placed t k n hn := (unreached_showsCuts g d).placed t k n hn.1
  wellFormed hn := (unreached_showsCuts g d).wellFormed hn.1
  touches hn htouches := ⟨(unreached_showsCuts g d).touches hn.1 htouches,
    Node.isApart_extends hn.2
      (isBlind_extends (Set.subset_univ _) _ _ _ htouches (Extends.refl Set.univ _))⟩

theorem keepsApart_rebuilt {g' : PolicyGraph K} (hn : KeepsApart g d t k n)
    (h : g'.rebuilt n = .ok n') : KeepsApart g d t k n' := by
  refine ⟨showsCuts_rebuilt hn.1 h, ?_⟩
  obtain ⟨b, m, -, hm, -, rfl⟩ := rebuilt_eq_ok h
  obtain ⟨rows, hlinked⟩ := isLinked_newModel hm
  by_cases hterminal : n.isTerminal = true
  · rw [if_pos hterminal]
    exact CostToGo.isApart_of_nil (hn.1.idle hterminal) m
  · rw [if_neg hterminal]
    obtain ⟨bound, hframe⟩ := hn.1.isOpen.frame (eq_false_of_ne_true hterminal)
    exact CostToGo.isApart_rebuild hlinked.wellFormed hframe

theorem isLasting_keepsApart (g : PolicyGraph K) (d : ℕ) : IsLasting (KeepsApart g d) where
  steady _ := (unreached_keepsApart g d).steady
  accepts := {
    placed := (unreached_keepsApart g d).placed
    installCut := fun hn _ h => ⟨showsCuts_installCut hn.1 h,
      Node.isApart_extends hn.2 (Node.extends_installCut (Extends.refl Set.univ _) h)⟩ }
  rebuilt := keepsApart_rebuilt
  retry r hn := ⟨(isLasting_showsCuts g d).retry r hn.1, hn.2.distinct, hn.2.there, hn.2.unnamed⟩

/-- All nodes of a graph that came of one that was built keep these variables apart. -/
theorem exists_keepsApart_reached {b : Builder K} (h : build b unbuilt = .ok () g₀) :
    ∃ d, ∀ g, Reaches g₀ g → Holds g.frame (KeepsApart g₀ d) g := by
  obtain ⟨d, hshows⟩ := exists_showsCuts_build h
  refine ⟨d, fun g hreach => ((isLasting_keepsApart g₀ d).of_reaches ?_ hreach).1⟩
  refine ⟨rfl, fun t k n hn => ⟨hshows.nodes t k n hn, ?_⟩⟩
  obtain ⟨m, hm, ⟨-, rfl⟩ | ⟨-, f, -, rfl⟩⟩ := newNode_eq_ok (newNode_of_build h hn).2
  · exact CostToGo.isApart_of_nil rfl m
  · obtain ⟨rows, hlinked⟩ := isLinked_newModel hm
    exact CostToGo.isApart_withRibVariables hlinked.wellFormed f _ rfl

end PolicyGraph

/-! ## What a pass was charged -/

section Passes

open PolicyGraph

variable [ExactNumeral K] {engine : Engine K} {g g' g₀ unbuilt : PolicyGraph K} {d t : ℕ}

/-- A stop is accounted for at its node, which is `n₀` in the graph `g` before the pass and `n` in the
graph `g'` behind it. The program of the stop was set up for some incoming state, for its price and for
its realization, and it was charged for the solution that `n` has left of it. All of the objective is
charged in the last stage. -/
structure PolicyGraph.Accounts (engine : Engine K) (g g' : PolicyGraph K) (t : ℕ) (s : Stop K)
    (n₀ n : Node K) : Prop where
  before : g.nodeAt t s.1.markov = some n₀
  data : ∃ state, n₀.HasData state s.1.price s.2.realization s.2.program
  behind : g'.nodeAt t s.1.markov = some n
  last : n.isTerminal = (t + 1 == g.stages)
  price : n.price = s.1.price
  charged : ∃ solution, n.IsCharged engine s.2.program s.1.cost solution

namespace Simulated

theorem stageCost_of_report {n : Node K} {query : List String} {v : Visit K}
    (h : report n query = .ok v) : n.stageCost = .ok v.cost := by
  obtain ⟨state, -, h⟩ := exceptBind_eq_ok.1 h
  obtain ⟨queried, -, h⟩ := exceptBind_eq_ok.1 h
  obtain ⟨cost, hcost, h⟩ := exceptBind_eq_ok.1 h
  obtain rfl := Except.ok.inj h
  exact hcost

section Visits

variable (hg : g.IsSound) (hapart : ∀ t k n, g.nodeAt t k = some n → KeepsApart g₀ d t k n)
  (hpoints : engine.HasPoints) {query : List String} {previous : Option (ℕ × List K)}
  {price : Option K} {w w' : Watched (Simulated K)}
include hg hapart hpoints

/-- A visit accounts for its stop. -/
theorem accounts_of_observeVisit {s : Stop K} (hkin : g.IsKin w.part.graph)
    (h : observeVisit engine query t previous price w = .ok s w') :
    ∃ n₀ n, g.Accounts engine w'.part.graph t s n₀ n := by
  obtain ⟨hkin', hmarkov, -, n, p, q, r, next, u, v, hn, -, -, hentered, hrun, hplace, hreport⟩ :=
    steps_of_observeVisit hg hkin h
  obtain ⟨rows, hwell⟩ := (hg.nodes _ _ n hn).model.wellFormed
  obtain ⟨hshows, hnapart⟩ := hapart _ _ n hn
  have hext := hentered.like
  have hidle : u.part.isTerminal = true → u.part.costToGo.vars = [] := by
    obtain ⟨m, pools, installed, price, -, heq⟩ := Node.exists_of_outline hext.outline
    rw [heq]
    exact hshows.idle
  obtain ⟨hprice, solution, hcharged⟩ := Node.isCharged_of_observeDecision hpoints
    (hwell.mono (Node.model_outline hext.outline) hext.program.vars.ge hext.program.rows)
    (Node.isApart_extends hnapart hext) hidle hrun (stageCost_of_report hreport)
  have hsame : v.part.price = s.1.price := (report_price hreport).symm
  have hdata : n.HasData ((previous.map Prod.snd).getD n.model.initialValues) next
      s.2.realization s.2.program :=
    ((Node.ensures_observeDecision hwell _ next s.2.realization).of_ok hentered hrun).1
  have hstages : w'.part.graph.stages = g.stages := congrArg (fun F => F.1.stages) hkin'.frame
  have hlast := ((hg.of_isKin hkin').nodes _ _ _ hplace).terminal
  rw [← hprice, hsame] at hdata
  rw [← hmarkov] at hn hplace
  exact ⟨n, v.part, hn, ⟨_, hdata⟩, hplace, hstages ▸ hlast, hsame, solution, hcharged⟩

/-- The induction is on the number of stages that are left. A stop stays accounted for, since later
visits leave the nodes of its stage alone. -/
theorem accounts_of_observeVisits {count : ℕ} (hcount : count ≤ g.stages) {stops : List (Stop K)}
    (hkin : g.IsKin w.part.graph)
    (h : observeVisits engine query g.stages count previous price w = .ok stops w') :
    stops.length = count ∧
      (∀ t k, t < g.stages - count → w'.part.graph.nodeAt t k = w.part.graph.nodeAt t k) ∧
      ∀ i s, stops[i]? = some s →
        ∃ n₀ n, g.Accounts engine w'.part.graph (g.stages - count + i) s n₀ n := by
  induction count generalizing previous price w stops with
  | zero =>
    obtain ⟨rfl, rfl⟩ := EStateM.Result.ok.inj h
    exact ⟨rfl, fun _ _ _ => rfl, by simp⟩
  | succ count ih =>
    obtain ⟨s, w₁, hvisit, h⟩ := bind_eq_ok.1 h
    obtain ⟨rest, w₂, hrest, h⟩ := bind_eq_ok.1 h
    obtain ⟨rfl, rfl⟩ := EStateM.Result.ok.inj h
    obtain ⟨hkin₁, -, hothers, -⟩ := steps_of_observeVisit hg hkin hvisit
    obtain ⟨hlength, hearlier, haccounts⟩ := ih (by omega) hkin₁ hrest
    refine ⟨by rw [List.length_cons, hlength], fun t k ht => ?_, fun i s' hs' => ?_⟩
    · rw [hearlier t k (by omega), hothers t k (by omega)]
    · cases i with
      | zero =>
        obtain rfl := Option.some.inj hs'
        obtain ⟨n₀, n, haccount⟩ := accounts_of_observeVisit hg hapart hpoints hkin hvisit
        refine ⟨n₀, n, { haccount with behind := ?_ }⟩
        rw [Nat.add_zero, hearlier _ _ (by omega)]
        exact haccount.behind
      | succ i =>
        obtain ⟨n₀, n, haccount⟩ := haccounts i s' hs'
        have hstage : g.stages - (count + 1) + (i + 1) = g.stages - count + i := by omega
        rw [hstage]
        exact ⟨n₀, n, haccount⟩

end Visits

section Forward

variable {b : Builder K} (hbuild : build b unbuilt = .ok () g₀) (hreach : Reaches g₀ g)
  (hpoints : engine.HasPoints) {stream : MersenneTwister} {query : List String} {u : Monitor}
  {w : Watched (Simulated K)}
include hbuild hreach hpoints

/-- A pass accounts for all of its stops. -/
theorem accounts_of_observeForward {stops : List (Stop K)}
    (h : observeForward engine query ⟨u, ⟨g, stream⟩⟩ = .ok stops w) :
    stops.length = g.stages ∧ ∀ t s, stops[t]? = some s →
      ∃ n₀ n, g.Accounts engine w.part.graph t s n₀ n := by
  have hg : g.IsSound := (isSound_build hbuild).of_reaches hreach
  obtain ⟨d, hkeeps⟩ := exists_keepsApart_reached hbuild
  have hvisits : observeVisits engine query.eraseDups g.stages g.stages none g.initialPrice
      ⟨u, ⟨g, stream⟩⟩ = .ok stops w := h
  obtain ⟨hlength, -, haccounts⟩ :=
    accounts_of_observeVisits hg (hkeeps g hreach).nodes hpoints le_rfl (.refl g) hvisits
  exact ⟨hlength, fun t s hs => by simpa using haccounts t s hs⟩

/-- A pass counts every cost once, and nothing of what its cuts promise. Let a graph have come of one that
was built, in any way: by cuts, solves and rebuilding, with any retry. Let optimal values be the
objectives at the solutions. Then the value of a pass, on any stream, is the sum of the costs of its
stages, one for each stage. The cost of a stage is what its node accounts for behind the pass: the
objective without the variables of the cost-to-go at the solution, in the program that was set up for the
realization and the price that were drawn, unless a retry has overwritten cells of it. The rest of the
objective is the cost-to-go for the price of the node, and this is the value of its expression at the
solution. In the last stage all of the objective counts. -/
theorem costs_add_up {pass : Pass K} (h : forward engine query ⟨u, ⟨g, stream⟩⟩ = .ok pass w) :
    pass.length = g.stages ∧ pass.value = (pass.map Visit.cost).sum ∧
      ∃ stops, observeForward engine query ⟨u, ⟨g, stream⟩⟩ = .ok stops w ∧
        stops.map Prod.fst = pass ∧ ∀ t s, stops[t]? = some s →
          ∃ n₀ n, g.Accounts engine w.part.graph t s n₀ n := by
  rw [← map_observeForward] at h
  obtain ⟨stops, hstops, rfl⟩ := map_eq_ok.1 h
  obtain ⟨hlength, haccounts⟩ := accounts_of_observeForward hbuild hreach hpoints hstops
  exact ⟨by rw [List.length_map, hlength], Scalar.sum_eq _, stops, hstops, rfl, haccounts⟩

end Forward

end Simulated

end Passes

/-! ## A wager -/

open PolicyGraph

namespace Wager

/-- A stake is paid, and a fee that depends on the price. Then something is bet on what is sure to win. -/
def recipe : Recipe ℚ := fun stage _ =>
  .state "stake" ⟨1, 10, if stage == 0 then 2 else 0, "C"⟩ (.real 0) .absent ::
    if stage == 0 then
      [.var "fee" ⟨1, 10, 0, "C"⟩ .absent, .priceObjective [("fee", some (.name "price"))]]
    else [.var "bet" (Supply.amount 0) (.list [.real (-1)])]

/-- The problem before it is built: the price one stays, halfway between two ribs. -/
def unbuilt : PolicyGraph ℚ :=
  { stages := 2, sense := .minimize, knownBound := .whole 5, transitions := .trivial 2,
    template := .alongPrice .keepAll ⟨[0, 2], none, 1, [.real 0], [1]⟩ }

def builder : Builder ℚ := ⟨some 3, recipe, recipe⟩

def built : PolicyGraph ℚ := final (build builder) unbuilt

theorem build_built : build builder unbuilt = .ok () built := by
  have hsucceeds : succeeds (build builder) unbuilt = true := by decide +kernel
  exact eq_ok_final hsucceeds

/-- Who finds that there is no largest bet is told to bet at most five. -/
def graph : PolicyGraph ℚ := built.setRetry <| some
  { answer := true, actions := [.upper "bet" (.constant (.real 5))] }

/-- Who is also told that it wins three times as much. -/
def overrated : PolicyGraph ℚ := built.setRetry <| some
  { answer := true
    actions := [.upper "bet" (.constant (.real 5)), .cost "bet" (.constant (.real (-3)))] }

/-- Moves every variable to the bound that its cost asks for, and copies the incoming state. -/
def corner (p : LinearProgram ℚ) : Array ℚ := p.vars.map fun v =>
  if v.cost < 0 then v.upper.getD 0 else v.lower.getD ((p.read (.rhs 0)).getD 0)

def gambler : Engine ℚ := (Engine.certified fun _ p => (corner p, #[])).orUnbounded

theorem hasPoints_gambler : gambler.HasPoints := Engine.hasPoints_certified.orUnbounded

end Wager

/-- The stake and the fee of the first stage cost three, and the bet wins five. What the first stage has
to expect is not charged, and the cost-to-go at the price one is read off both variables. -/
theorem Simulated.costs_add_up_wager :
    (build Wager.builder Wager.unbuilt = .ok () Wager.built ∧ Reaches Wager.built Wager.graph ∧
      Wager.gambler.HasPoints) ∧
    ∃ pass w, forward Wager.gambler [] ⟨{}, ⟨Wager.graph, Turbine.stream⟩⟩ = .ok pass w ∧
      pass.map Visit.cost = [3, -5] ∧ pass.value = -2 ∧
      ∃ (n : Node ℚ) (c : ℚ) (solution : Solution ℚ), w.part.graph.nodeAt 0 0 = some n ∧
        n.costToGo.futureCost (some 1) n.model = .ok c ∧
        3 + c = n.model.program.objective solution.point := by
  have hreach : Reaches Wager.built Wager.graph := .tail (.refl _) (.retry _)
  have hvisits : ((attempt (forward Wager.gambler []) ⟨{}, ⟨Wager.graph, Turbine.stream⟩⟩).1.toOption.any
      fun pass => pass.map (fun v => (v.markov, v.price, v.cost)) ==
        [(0, some 1, 3), (0, some 1, -5)]) = true := by decide +kernel
  obtain ⟨pass, hrun, hvisits⟩ := exists_eq_ok_of_any hvisits
  obtain ⟨v, v', rfl⟩ := List.length_eq_two.1 (by simpa using congrArg List.length (eq_of_beq hvisits))
  obtain ⟨⟨hmarkov, hprice, hcost⟩, -, -, hcost'⟩ : (v.markov = 0 ∧ v.price = some 1 ∧ v.cost = 3) ∧
      v'.markov = 0 ∧ v'.price = some 1 ∧ v'.cost = -5 := by simpa using hvisits
  obtain ⟨-, hvalue, stops, -, hstops, haccounts⟩ :=
    costs_add_up Wager.build_built hreach Wager.hasPoints_gambler hrun
  obtain ⟨s, rest, rfl, rfl, -⟩ := List.map_eq_cons_iff.1 hstops
  obtain ⟨n₀, n, haccount⟩ := haccounts 0 s rfl
  obtain ⟨solution, hcharged⟩ := haccount.charged
  have hstages : Wager.graph.stages = 2 := by decide +kernel
  have hlast : n.isTerminal = false := by
    rw [haccount.last, hstages]
    rfl
  obtain ⟨c, hc, hsum⟩ := hcharged.future hlast
  have hplace := haccount.behind
  rw [haccount.price, hprice] at hc
  rw [hcost] at hsum
  rw [hmarkov] at hplace
  refine ⟨⟨Wager.build_built, hreach, Wager.hasPoints_gambler⟩, _, _, hrun, by simp [hcost, hcost'], ?_,
    n, c, solution, hplace, hc, hsum⟩
  rw [hvalue]
  norm_num [hcost, hcost']

/-- Who is told by a retry that the bet wins three times as much is charged for that: the objective that was
set up for what was drawn comes to five at the solution, and the stage is charged for fifteen. -/
theorem Simulated.costs_run_over_wager :
    (build Wager.builder Wager.unbuilt = .ok () Wager.built ∧ Reaches Wager.built Wager.overrated ∧
      Wager.gambler.HasPoints) ∧
    ∃ (pass : Pass ℚ) (w : Watched (Simulated ℚ)) (v : Visit ℚ) (n₀ n : Node ℚ) (state : List ℚ)
      (p : LinearProgram ℚ) (solution : Solution ℚ),
      forward Wager.gambler [] ⟨{}, ⟨Wager.overrated, Turbine.stream⟩⟩ = .ok pass w ∧
      pass[1]? = some v ∧ Wager.overrated.nodeAt 1 v.markov = some n₀ ∧
      n₀.HasData state v.price 0 p ∧ w.part.graph.nodeAt 1 v.markov = some n ∧ n.isTerminal = true ∧
      n.model.solution = some solution ∧ p.objective solution.point = -5 ∧ v.cost = -15 := by
  have hreach : Reaches Wager.built Wager.overrated := .tail (.refl _) (.retry _)
  set start : Watched (Simulated ℚ) := ⟨{}, ⟨Wager.overrated, Turbine.stream⟩⟩
  have hstops : ((attempt (observeForward Wager.gambler []) start).1.toOption.any
      fun stops : List (Stop ℚ) => stops[1]?.any fun s : Stop ℚ =>
        s.1.cost == (-15 : ℚ) && s.2.realization == 0 &&
        ((final (observeForward Wager.gambler []) start).part.graph.nodeAt 1 s.1.markov).any
          fun n : Node ℚ => n.model.solution.any fun solution : Solution ℚ =>
            s.2.program.objective solution.point == (-5 : ℚ)) = true := by decide +kernel
  obtain ⟨stops, hrun, hstops⟩ := exists_eq_ok_of_any hstops
  obtain ⟨s, hs, htest⟩ := (Option.any_eq_true _ _).1 hstops
  simp only [Bool.and_eq_true, beq_iff_eq] at htest
  obtain ⟨⟨hcost, hrealization⟩, hobjective⟩ := htest
  obtain ⟨-, haccounts⟩ := accounts_of_observeForward Wager.build_built hreach Wager.hasPoints_gambler hrun
  obtain ⟨n₀, n, haccount⟩ := haccounts 1 s hs
  obtain ⟨state, hdata⟩ := haccount.data
  obtain ⟨solution, hcharged⟩ := haccount.charged
  have hstages : Wager.overrated.stages = 2 := by decide +kernel
  have hlast : n.isTerminal = true := by
    rw [haccount.last, hstages]
    rfl
  rw [haccount.behind, Option.any_some, hcharged.answered.solution, Option.any_some,
    beq_iff_eq] at hobjective
  rw [hrealization] at hdata
  have hforward : forward Wager.gambler [] start =
      .ok (stops.map Prod.fst) (final (observeForward Wager.gambler []) start) := by
    rw [← map_observeForward]
    exact map_eq_ok.2 ⟨stops, hrun, rfl⟩
  exact ⟨⟨Wager.build_built, hreach, Wager.hasPoints_gambler⟩, _, _, s.1, n₀, n, state, s.2.program,
    solution, hforward, by rw [List.getElem?_map, hs, Option.map_some], haccount.before, hdata,
    haccount.behind, hlast, hcharged.answered.solution, hobjective, hcost⟩

end DualDynamic
