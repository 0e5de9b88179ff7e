import DualDynamic.Proofs.Node.Twins
import DualDynamic.Proofs.PolicyGraph.Growth
import DualDynamic.Proofs.Simulation
import DualDynamic.Proofs.Training.Evaluation

/-!
# Sample paths

A pass draws a Markov state, a price noise and a realization in each stage. What it draws them from is in
the transition matrices and in the lottery of the node that it comes to (`Node.lottery`). Graphs that were
built by one recipe have the same lotteries (`sameLotteries_build`), and setting nodes up, solving them and
installing cuts leave these alone (`SameLotteries.of_grows`). The price follows from price and noise.

So two passes that draw from one stream stay together all the way, whatever decisions they take
(`couples_observeVisit`): they come to the same nodes at the same prices, see the same realizations and leave
the stream in the same state for the next pass. Policies that are evaluated with one seed are compared on
the same paths (`paths_coincide`).
-/

namespace DualDynamic

open Step PolicyGraph

variable {K A : Type} [Numeral K]

/-! ## Lotteries -/

/-- What is drawn at a node, and how the price goes on from there. -/
structure Lottery (K : Type) where
  noise : List (Datum K × K)
  next : Option K → Datum K → Except (Fault K) (Option K)
  scenarios : ℕ
  probability : Option (List K)

/-- The lottery of a node. Its cuts, its program and its last price have no part in it. -/
def Node.lottery (n : Node K) : Lottery K where
  noise := n.costToGo.priceNoise
  next price noise := n.costToGo.nextPrice price noise n.stage n.markov
  scenarios := n.model.sampleCount
  probability := n.model.probability

theorem Node.lottery_congr {n n' : Node K} (h : n'.outline = n.outline) :
    n'.lottery = n.lottery := by
  obtain ⟨m, pools, installed, price, hm, rfl⟩ := Node.exists_of_outline h
  obtain ⟨program, reductions, status, solution, rfl⟩ := Subproblem.exists_of_outline hm
  rfl

theorem Node.observePrice_congr {n n' : Node K} (h : n'.lottery = n.lottery) (price : Option K) :
    n'.observePrice price = n.observePrice price := by
  have hnoise : n'.costToGo.priceNoise = n.costToGo.priceNoise := congrArg Lottery.noise h
  have hnext : ∀ w, n'.costToGo.nextPrice price w n'.stage n'.markov =
      n.costToGo.nextPrice price w n.stage n.markov := congrFun (congrFun (congrArg Lottery.next h) price)
  simp only [observePrice, hnoise, hnext]

/-- The node stands where it belongs and has the lottery of this place. -/
structure Node.Draws (d : ℕ → ℕ → Option (Lottery K)) (t k : ℕ) (n : Node K) : Prop where
  stage : n.stage = t
  markov : n.markov = k
  lottery : d t k = some n.lottery

theorem Node.Draws.of_outline {d : ℕ → ℕ → Option (Lottery K)} {t k : ℕ} {n : Node K}
    {m : Subproblem K} (hn : n.Draws d t k) (hm : m.outline = n.model.outline) (x : Option K) :
    Node.Draws d t k { n with model := m, price := x } := by
  obtain ⟨program, reductions, status, solution, rfl⟩ := Subproblem.exists_of_outline hm
  exact ⟨hn.stage, hn.markov, hn.lottery⟩

namespace PolicyGraph

variable {engine : Engine K} {d : ℕ → ℕ → Option (Lottery K)} {g g' : PolicyGraph K}

theorem isPlaced_draws (d : ℕ → ℕ → Option (Lottery K)) : IsPlaced (Node.Draws d) :=
  fun _ _ _ h => ⟨h.stage, h.markov⟩

theorem steady_draws (d : ℕ → ℕ → Option (Lottery K)) : Steady engine (Node.Draws d) :=
  steady_of_ignoring (isPlaced_draws d) fun _ _ _ _ x hn hm => hn.of_outline hm x

/-- Passes through the two graphs draw from the same: they begin at the same price, their Markov chains have
the same transition matrices, and nodes at the same place have the same lottery. -/
structure SameLotteries (g g' : PolicyGraph K) : Prop where
  stages : g'.stages = g.stages
  transitions : g'.transitions = g.transitions
  initialPrice : g'.initialPrice = g.initialPrice
  nodes : ∀ t k n n', g.nodeAt t k = some n → g'.nodeAt t k = some n' → n'.lottery = n.lottery

/-- The lotteries of two graphs with the same ones, by place. -/
theorem SameLotteries.exists_draws (hg : g.IsSettled) (hg' : g'.IsSettled) (h : SameLotteries g g') :
    ∃ d, Holds g.frame (Node.Draws d) g ∧ Holds g'.frame (Node.Draws d) g' := by
  refine ⟨fun t k => ((g.nodeAt t k).or (g'.nodeAt t k)).map Node.lottery,
    ⟨rfl, fun t k n hn => ?_⟩, ⟨rfl, fun t k n' hn' => ?_⟩⟩
  · exact ⟨(hg t k n hn).1, (hg t k n hn).2, by rw [hn]; rfl⟩
  · refine ⟨(hg' t k n' hn').1, (hg' t k n' hn').2, ?_⟩
    cases hn : g.nodeAt t k with
    | none => rw [hn', Option.none_or, Option.map_some]
    | some n => rw [Option.some_or, Option.map_some, h.nodes t k n n' hn hn']

/-! ### Where lotteries are the same -/

/-- What is set up, solved and cut further down is still drawn from the same. -/
theorem SameLotteries.of_grows {g₀ g₀' : PolicyGraph K} (h : SameLotteries g₀ g₀') (hg : Grows g₀ g)
    (hg' : Grows g₀' g') : SameLotteries g g' := by
  have hleft : ∀ {A : Type} (f : PolicyGraph K × List ℕ → A), f g.frame = f g₀.frame := fun f =>
    congrArg f hg.frame
  have hright : ∀ {A : Type} (f : PolicyGraph K × List ℕ → A), f g'.frame = f g₀'.frame := fun f =>
    congrArg f hg'.frame
  refine ⟨?_, ?_, ?_, fun t k n n' hn hn' => ?_⟩
  · exact (hright fun F => F.1.stages).trans (h.stages.trans (hleft fun F => F.1.stages).symm)
  · exact (hright fun F => F.1.transitions).trans
      (h.transitions.trans (hleft fun F => F.1.transitions).symm)
  · exact (hright fun F => F.1.initialPrice).trans
      (h.initialPrice.trans (hleft fun F => F.1.initialPrice).symm)
  · obtain ⟨m, hm, hext⟩ := hg.nodes t k n hn
    obtain ⟨m', hm', hext'⟩ := hg'.nodes t k n' hn'
    rw [Node.lottery_congr hext.outline, Node.lottery_congr hext'.outline, h.nodes t k m m' hm hm']

/-- The scenarios of a new node are the ones of its recipe. -/
theorem outline_newNode {b : Builder K} {t k : ℕ} {n : Node K} (h : g.newNode b t k = .ok n) :
    ∃ m, g.newModel b.recipe t k = .ok m ∧ n.model.outline = m.outline := by
  obtain ⟨m, hm, ⟨-, rfl⟩ | ⟨-, f, -, rfl⟩⟩ := newNode_eq_ok h
  · exact ⟨m, hm, rfl⟩
  · exact ⟨m, hm, CostToGo.outline_withRibVariables f _ m⟩

/-- Graphs that were built by the same recipe, with the same prices and the same transition matrices, have
the same lotteries. They may choose cuts in different ways and know different bounds. -/
theorem sameLotteries_build {b b' : Builder K} {u u' : PolicyGraph K} (hbuild : build b u = .ok () g)
    (hbuild' : build b' u' = .ok () g') (hrecipe : b'.recipe = b.recipe)
    (hstages : u'.stages = u.stages) (hsense : u'.sense = u.sense) (hretry : u'.retry = u.retry)
    (htransitions : u'.transitions = u.transitions)
    (hpricing : u'.template.pricing = u.template.pricing) : SameLotteries g g' := by
  have hsound := isSound_build hbuild
  have hsound' := isSound_build hbuild'
  have hnodes := fun t k n => newNode_of_build (t := t) (k := k) (n := n) hbuild
  have hnodes' := fun t k n => newNode_of_build (t := t) (k := k) (n := n) hbuild'
  obtain ⟨nodes, rfl, -⟩ := build_eq_ok hbuild
  obtain ⟨nodes', rfl, -⟩ := build_eq_ok hbuild'
  refine ⟨hstages, htransitions, congrArg (Option.map Pricing.initial) hpricing,
    fun t k n n' hn hn' => ?_⟩
  obtain ⟨m, hm, hmodel⟩ := outline_newNode (hnodes t k n hn).2
  obtain ⟨m', hm', hmodel'⟩ := outline_newNode (hnodes' t k n' hn').2
  have hsame : n'.model.outline = n.model.outline := by
    simp only [newModel, hrecipe, hsense, hretry] at hm hm'
    rw [hmodel, hmodel', Except.ok.inj (hm.symm.trans hm')]
  obtain ⟨program, reductions, status, solution, hn'model⟩ := Subproblem.exists_of_outline hsame
  obtain ⟨hstage, hmarkov, -, -, hprices, -⟩ := hsound.nodes t k n hn
  obtain ⟨hstage', hmarkov', -, -, hprices', -⟩ := hsound'.nodes t k n' hn'
  have hpriced : n'.costToGo.pricing = n.costToGo.pricing := hprices'.trans (hpricing.trans hprices.symm)
  simp only [Node.lottery, CostToGo.priceNoise, CostToGo.nextPrice, hpriced, hstage, hstage', hmarkov,
    hmarkov', hn'model, Subproblem.sampleCount]

end PolicyGraph

/-! ## Two passes side by side -/

/-- What is drawn in a stage: the Markov state, the price that follows and the realization. -/
def Stop.sample (s : Stop K) : ℕ × Option K × ℕ := (s.1.markov, s.1.price, s.2.realization)

namespace Simulated

variable {engine engine' : Engine K} {F F' : PolicyGraph K × List ℕ} {d : ℕ → ℕ → Option (Lottery K)}

/-- Some passes, and what happens on them. -/
def observePasses (engine : Engine K) (query : List String) :
    ℕ → Run K (Simulated K) (List (List (Stop K)))
  | 0 => return []
  | n + 1 => do
    let p ← observeForward engine query
    let rest ← observePasses engine query n
    return p :: rest

theorem map_observePasses (query : List String) (count : ℕ) :
    List.map (List.map Prod.fst) <$> observePasses engine query count =
      passes engine query count := by
  induction count with
  | zero => rfl
  | succ count ih =>
    simp only [observePasses, passes, map_bind, map_pure, List.map_cons, ← map_observeForward, ← ih,
      bind_map_left]

/-- Two graphs with the same lotteries that are about to draw from the same stream. -/
structure Along (F F' : PolicyGraph K × List ℕ) (d : ℕ → ℕ → Option (Lottery K))
    (w w' : Watched (Simulated K)) : Prop where
  left : Holds F (Node.Draws d) w.part.graph
  right : Holds F' (Node.Draws d) w'.part.graph
  stream : w'.part.stream = w.part.stream

/-- Draws have the same results. -/
theorem Along.respects_draw (step : Draw K A) : Step.Respects (Along F F' d) (draw step) := by
  intro w w' hw a v hv a' v' hv'
  obtain ⟨s, hs, rfl⟩ := draw_eq_ok.1 hv
  obtain ⟨s', hs', rfl⟩ := draw_eq_ok.1 hv'
  rw [hw.stream, hs] at hs'
  obtain ⟨rfl, rfl⟩ := EStateM.Result.ok.inj hs'
  exact ⟨rfl, hw.left, hw.right, rfl⟩

/-- A step on a node leaves the stream alone, and the graph has the node that the step ends with. -/
theorem Along.of_atNode {t k : ℕ} {step : Run K (Node K) A} {Q : A → Node K → Prop}
    {E : Watched (Node K) → Prop}
    (hstep : Ensures (fun w => w.part.Draws d t k) step (fun a w => w.part.Draws d t k ∧ Q a w.part) E)
    {w v : Watched (Simulated K)} {a : A} (hw : Holds F (Node.Draws d) w.part.graph)
    (h : atNode t k step w = .ok a v) : Holds F (Node.Draws d) v.part.graph ∧
      v.part.stream = w.part.stream ∧ ∀ n, v.part.graph.nodeAt t k = some n → Q a n := by
  obtain ⟨n, u, hn, hu, rfl⟩ := atNode_eq_ok h
  obtain ⟨hdraws, hQ⟩ := hstep.of_ok (s := ⟨w.monitor, n⟩) (hw.nodes t k n hn) hu
  refine ⟨hw.putNode_of_placed (isPlaced_draws d) hdraws, rfl, fun n' hn' => ?_⟩
  rw [nodeAt_putNode, if_pos ⟨hdraws.stage.symm, hdraws.markov.symm⟩, hn] at hn'
  exact Option.some.inj hn' ▸ hQ

/-- A node that takes a decision has the price of it afterwards. -/
theorem ensures_observeDecision (t k : ℕ) (price : Option K) (realization : ℕ) :
    Ensures (fun w => w.part.Draws d t k) (Node.observeDecision engine price realization)
      (fun _ w => w.part.Draws d t k ∧ w.part.price = price) fun w => w.part.Draws d t k := by
  have hdraws : Ensures (fun w => w.part.Draws d t k)
      (Node.observeDecision engine price realization) (fun _ w => w.part.Draws d t k)
      fun w => w.part.Draws d t k := by
    have hsteady : Steady engine (Node.Draws d) := steady_draws d
    have hdecide := hsteady.keeps_decide t k price realization
    rwa [← Node.map_observeDecision, Keeps, ensures_map] at hdecide
  have hsolve : ∀ n : Node K, Keeps (fun w => w.part.price = price)
      (Node.onModel (Subproblem.solve engine (some n.stage) (some n.markov))) := fun n =>
    Run.keeps_within fun w hw => ⟨fun _ => True, trivial, fun u _ => by split <;> trivial,
      fun v _ => hw⟩
  have hprice : Ensures (fun _ => True) (Node.observeDecision engine price realization)
      (fun _ w => w.part.price = price) fun _ => True := by
    simp only [Node.observeDecision, Node.present, bind_assoc, pure_bind]
    rw [← bind_assoc]
    refine (Node.ensures_setting price realization).bind fun _ => ?_
    refine Run.ensures_part_bind fun w hw => Run.ensures_part_bind fun v hv => ?_
    subst hv
    exact ((hsolve v.part).bind fun _ => keeps_pure _).weaken (fun u hu => hu ▸ hw) (fun _ _ => id)
      fun _ _ => trivial
  exact (hdraws.and (hprice.weaken (fun _ _ => trivial) (fun _ _ => id) fun _ => id)).weaken
    (fun _ => id) (fun _ _ => id) fun _ hw => hw.1

/-- Steps on the nodes of one place. They need not be the same. -/
theorem Along.couples_atNode {B : Type} {t k : ℕ} {x : Run K (Node K) A} {y : Run K (Node K) B}
    {Q : A → Node K → Prop} {R : B → Node K → Prop}
    (hx : Ensures (fun w => w.part.Draws d t k) x (fun a w => w.part.Draws d t k ∧ Q a w.part)
      fun w => w.part.Draws d t k)
    (hy : Ensures (fun w => w.part.Draws d t k) y (fun b w => w.part.Draws d t k ∧ R b w.part)
      fun w => w.part.Draws d t k) :
    Couples (Along F F' d) (atNode t k x) (atNode t k y) fun a b w w' => Along F F' d w w' ∧
      (∀ n, w.part.graph.nodeAt t k = some n → Q a n) ∧
      ∀ n, w'.part.graph.nodeAt t k = some n → R b n := by
  intro w w' hw a v hv b v' hv'
  obtain ⟨hleft, hstream, hQ⟩ := Along.of_atNode hx hw.left hv
  obtain ⟨hright, hstream', hR⟩ := Along.of_atNode hy hw.right hv'
  exact ⟨⟨hleft, hright, by rw [hstream, hstream', hw.stream]⟩, hQ, hR⟩

theorem Along.couples_setIncoming (t k : ℕ) (state state' : List K) :
    Couples (Along F F' d) (atNode t k (Node.onModel (Subproblem.setIncoming state)))
      (atNode t k (Node.onModel (Subproblem.setIncoming state'))) fun _ _ => Along F F' d := by
  have hkeeps : ∀ state, Ensures (fun w => w.part.Draws d t k)
      (Node.onModel (Subproblem.setIncoming state)) (fun _ w => w.part.Draws d t k ∧ True)
      fun w => w.part.Draws d t k := fun state =>
    (Node.keeps_setIncoming_of_ignoring (fun _ _ x hn hm => Node.Draws.of_outline hn hm x)
      state).weaken (fun _ => id) (fun _ _ hw => ⟨hw, trivial⟩) fun _ => id
  exact (Along.couples_atNode (Q := fun _ _ => True) (R := fun _ _ => True) (hkeeps state)
    (hkeeps state')).weaken (fun _ _ => id) fun _ _ _ _ h => h.1

theorem report_price {n : Node K} {query : List String} {v : Visit K}
    (h : report n query = .ok v) : v.price = n.price := by
  obtain ⟨state, -, h⟩ := exceptBind_eq_ok.1 h
  obtain ⟨queried, -, h⟩ := exceptBind_eq_ok.1 h
  obtain ⟨cost, -, h⟩ := exceptBind_eq_ok.1 h
  obtain rfl := Except.ok.inj h
  rfl

section Passes

variable (htransitions : F'.1.transitions = F.1.transitions)
include htransitions

/-- Side by side, two visits of one stage draw the same, whatever decisions they take and whatever states
they come from. -/
theorem couples_observeVisit (query query' : List String) (stage : ℕ)
    {previous previous' : Option (ℕ × List K)}
    (hprevious : previous'.map Prod.fst = previous.map Prod.fst) (price : Option K) :
    Couples (Along F F' d) (observeVisit engine query stage previous price)
      (observeVisit engine' query' stage previous' price)
      fun s s' w w' => s'.sample = s.sample ∧ Along F F' d w w' := by
  refine Run.couples_part_bind_of fun w w' hw => ?_
  have hrow : chances w'.part.graph stage (previous'.map Prod.fst) =
      chances w.part.graph stage (previous.map Prod.fst) := by
    have hsame : w'.part.graph.transitions = w.part.graph.transitions := by
      have hleft : w.part.graph.transitions = F.1.transitions :=
        congrArg (fun F => F.1.transitions) hw.left.frame
      have hright : w'.part.graph.transitions = F'.1.transitions :=
        congrArg (fun F => F.1.transitions) hw.right.frame
      rw [hleft, hright, htransitions]
    rw [hprevious]
    cases previous <;> simp only [chances, firstRow, hsame, Option.map_none, Option.map_some]
  dsimp only
  rw [hrow]
  -- The Markov state, and the nodes there.
  refine (Along.respects_draw _).couples_bind fun k => Run.couples_part_bind_of fun w w' hw => ?_
  refine Couples.ofExcept_bind_of fun n n' hn hn' => ?_
  have hdraws := hw.left.nodes _ _ n (nodeAt_of_node hn)
  have hdraws' := hw.right.nodes _ _ n' (nodeAt_of_node hn')
  have hlottery : n'.lottery = n.lottery := Option.some.inj (hdraws'.lottery.symm.trans hdraws.lottery)
  have hscenarios : n'.model.sampleCount = n.model.sampleCount := congrArg Lottery.scenarios hlottery
  have hprobability : n'.model.probability = n.model.probability :=
    congrArg Lottery.probability hlottery
  -- The incoming states may differ.
  refine Couples.bind (Along.couples_setIncoming stage k _ _) fun _ _ => ?_
  rw [Node.observePrice_congr hlottery, hscenarios, hprobability]
  refine (Along.respects_draw _).couples_bind fun drawn => ?_
  obtain ⟨noise, price⟩ := drawn
  refine (Along.respects_draw _).couples_bind fun realization => ?_
  -- The decisions may differ, but both nodes are at the price that was drawn.
  refine Couples.bind (Along.couples_atNode (Q := fun _ n => n.price = price)
    (R := fun _ n => n.price = price) (ensures_observeDecision stage k price realization)
    (ensures_observeDecision stage k price realization)) fun _ _ => ?_
  refine Run.couples_part_bind_of fun w w' hw => ?_
  obtain ⟨halong, hprice, hprice'⟩ := hw
  refine Couples.ofExcept_bind_of fun m m' hm hm' => Couples.ofExcept_bind_of fun v v' hv hv' => ?_
  refine couples_pure fun _ _ h => ⟨?_, h.1⟩
  have hmarkov := (halong.left.nodes _ _ m (nodeAt_of_node hm)).markov
  have hmarkov' := (halong.right.nodes _ _ m' (nodeAt_of_node hm')).markov
  simp only [Stop.sample, report_markov hv, report_markov hv', hmarkov, hmarkov', report_price hv,
    report_price hv', hprice _ (nodeAt_of_node hm), hprice' _ (nodeAt_of_node hm')]

theorem couples_observeVisits (query query' : List String) (stages count : ℕ)
    {previous previous' : Option (ℕ × List K)}
    (hprevious : previous'.map Prod.fst = previous.map Prod.fst) (price : Option K) :
    Couples (Along F F' d) (observeVisits engine query stages count previous price)
      (observeVisits engine' query' stages count previous' price)
      fun ss ss' w w' => ss'.map Stop.sample = ss.map Stop.sample ∧ Along F F' d w w' := by
  induction count generalizing previous previous' price with
  | zero => exact couples_pure fun _ _ hw => ⟨rfl, hw⟩
  | succ count ih =>
    refine Couples.bind (couples_observeVisit htransitions query query' _ hprevious price)
      fun s s' => ?_
    rintro w w' ⟨hsample, hw⟩
    obtain ⟨hmarkov, hprice, -⟩ : s'.1.markov = s.1.markov ∧ s'.1.price = s.1.price ∧
        s'.2.realization = s.2.realization := by simpa [Stop.sample] using hsample
    rw [hprice]
    have hprevious' : (some (s'.1.markov, s'.1.state)).map Prod.fst =
        (some (s.1.markov, s.1.state)).map Prod.fst := congrArg some hmarkov
    refine Couples.bind (ih hprevious' s.1.price) (fun ss ss' => ?_) w w' hw
    exact couples_pure fun _ _ h => ⟨by rw [List.map_cons, List.map_cons, hsample, h.1], h.2⟩

variable (hstages : F'.1.stages = F.1.stages) (hprice : F'.1.initialPrice = F.1.initialPrice)
include hstages hprice

theorem couples_observeForward (query query' : List String) :
    Couples (Along F F' d) (observeForward engine query) (observeForward engine' query')
      fun ss ss' w w' => ss'.map Stop.sample = ss.map Stop.sample ∧ Along F F' d w w' := by
  refine Run.couples_part_bind_of fun w w' hw => ?_
  have hleft := hw.left.frame
  have hright := hw.right.frame
  have hstages' : w'.part.graph.stages = w.part.graph.stages := by
    rw [show w'.part.graph.stages = F'.1.stages from congrArg (fun F => F.1.stages) hright,
      show w.part.graph.stages = F.1.stages from congrArg (fun F => F.1.stages) hleft, hstages]
  have hprice' : w'.part.graph.initialPrice = w.part.graph.initialPrice := by
    rw [show w'.part.graph.initialPrice = F'.1.initialPrice from
        congrArg (fun F => F.1.initialPrice) hright,
      show w.part.graph.initialPrice = F.1.initialPrice from
        congrArg (fun F => F.1.initialPrice) hleft, hprice]
  dsimp only
  rw [hstages', hprice']
  exact couples_observeVisits htransitions _ _ _ _ rfl _

theorem couples_observePasses (query query' : List String) (count : ℕ) :
    Couples (Along F F' d) (observePasses engine query count) (observePasses engine' query' count)
      fun ps ps' w w' => ps'.map (List.map Stop.sample) = ps.map (List.map Stop.sample) ∧
        Along F F' d w w' := by
  induction count with
  | zero => exact couples_pure fun _ _ hw => ⟨rfl, hw⟩
  | succ count ih =>
    refine Couples.bind (couples_observeForward htransitions hstages hprice query query')
      fun ss ss' => ?_
    rintro w w' ⟨hsample, hw⟩
    refine Couples.bind ih (fun ps ps' => ?_) w w' hw
    exact couples_pure fun _ _ h => ⟨by rw [List.map_cons, List.map_cons, hsample, h.1], h.2⟩

end Passes

/-- Passes through graphs with the same lotteries that draw from one stream go the same way, and leave the
stream in the same state behind. -/
theorem observePasses_coincide {g g' : PolicyGraph K} (hg : g.IsSettled) (hg' : g'.IsSettled)
    (h : g.SameLotteries g') {stream : MersenneTwister} {count : ℕ} {query query' : List String}
    {u u' : Monitor} {ps ps' : List (List (Stop K))} {v v' : Watched (Simulated K)}
    (hps : observePasses engine query count ⟨u, ⟨g, stream⟩⟩ = .ok ps v)
    (hps' : observePasses engine' query' count ⟨u', ⟨g', stream⟩⟩ = .ok ps' v') :
    ps'.map (List.map Stop.sample) = ps.map (List.map Stop.sample) ∧
      v'.part.stream = v.part.stream := by
  obtain ⟨d, hdraws, hdraws'⟩ := h.exists_draws hg hg'
  have halong : Along g.frame g'.frame d ⟨u, ⟨g, stream⟩⟩ ⟨u', ⟨g', stream⟩⟩ := ⟨hdraws, hdraws', rfl⟩
  obtain ⟨hsamples, hafter⟩ := couples_observePasses h.transitions h.stages h.initialPrice query query'
    count _ _ halong ps v hps ps' v' hps'
  exact ⟨hsamples, hafter.stream⟩

end Simulated

/-! ## Evaluations -/

namespace Evaluation

variable {engine engine' : Engine K} {plan : EvaluationPlan K} {g g' : PolicyGraph K}
  {w' : Watched (PolicyGraph K)} {e : Evaluation K}

/-- The simulated passes of an evaluation, and what happens on them. -/
def observe (engine : Engine K) (plan : EvaluationPlan K) :
    Run K (PolicyGraph K) (List (List (Stop K))) := do
  let s ← Step.ofExcept (stream plan.seed)
  Simulated.onGraph s (Simulated.observePasses engine plan.query plan.simulations.toNat)

theorem observe_eq_ok {w : Watched (PolicyGraph K)} {stops : List (List (Stop K))} :
    observe engine plan w = .ok stops w' ↔ ∃ s v, stream plan.seed = .ok s ∧
      Simulated.observePasses engine plan.query plan.simulations.toNat ⟨w.monitor, ⟨w.part, s⟩⟩ =
        .ok stops v ∧ w' = ⟨v.monitor, v.part.graph⟩ := by
  constructor
  · intro h
    obtain ⟨s, w₁, hread, h⟩ := bind_eq_ok.1 h
    obtain ⟨hs, rfl⟩ := ofExcept_eq_ok.1 hread
    obtain ⟨v, hv, rfl⟩ := Run.within_eq_ok.1 h
    exact ⟨s, v, hs, hv, rfl⟩
  · rintro ⟨s, v, hs, hv, rfl⟩
    exact bind_eq_ok.2 ⟨s, w, ofExcept_eq_ok.2 ⟨hs, rfl⟩, Run.within_eq_ok.2 ⟨v, hv, rfl⟩⟩

/-- The passes of an evaluation are the ones that are observed. -/
theorem exists_observe {w : Watched (PolicyGraph K)} (h : run engine plan w = .ok e w') :
    ∃ stops, observe engine plan w = .ok stops w' ∧ stops.map (List.map Prod.fst) = e.passes := by
  obtain ⟨s, interval, hs, hpasses, -⟩ := run_eq_ok h
  obtain ⟨v, hv, rfl⟩ := Run.within_eq_ok.1 hpasses
  rw [← Simulated.map_observePasses] at hv
  obtain ⟨stops, hstops, hsame⟩ := map_eq_ok.1 hv
  exact ⟨stops, observe_eq_ok.2 ⟨s, v, hs, hstops, rfl⟩, hsame⟩

/-- Sample paths do not depend on the policy. Two graphs begin at the same price and have the same
transition matrices, price noise, price dynamics and scenarios. However different their cuts are, and
whatever the engines answer, passes through the two that draw from one stream come to the same Markov state
at the same price and see the same realization in every stage, and leave the stream in the same state
behind. So it is with all simulations of two evaluations that have the same number of them and the same
seed. -/
theorem paths_coincide (hg : g.IsSettled) (hg' : g'.IsSettled) (h : g.SameLotteries g') :
    (∀ (stream : MersenneTwister) (count : ℕ) (query query' : List String) (u u' : Monitor)
      (ps ps' : List (List (Stop K))) (v v' : Watched (Simulated K)),
      Simulated.observePasses engine query count ⟨u, ⟨g, stream⟩⟩ = .ok ps v →
      Simulated.observePasses engine' query' count ⟨u', ⟨g', stream⟩⟩ = .ok ps' v' →
      ps'.map (List.map Stop.sample) = ps.map (List.map Stop.sample) ∧
        v'.part.stream = v.part.stream) ∧
    ∀ (plan plan' : EvaluationPlan K) (u u' : Monitor) (e e' : Evaluation K)
      (w w' : Watched (PolicyGraph K)), plan'.simulations = plan.simulations →
      plan'.seed = plan.seed → run engine plan ⟨u, g⟩ = .ok e w →
      run engine' plan' ⟨u', g'⟩ = .ok e' w' →
      ∃ stops stops' : List (List (Stop K)),
        (observe engine plan ⟨u, g⟩ = .ok stops w ∧ stops.map (List.map Prod.fst) = e.passes) ∧
        (observe engine' plan' ⟨u', g'⟩ = .ok stops' w' ∧
          stops'.map (List.map Prod.fst) = e'.passes) ∧
        stops'.map (List.map Stop.sample) = stops.map (List.map Stop.sample) := by
  refine ⟨fun stream count query query' u u' ps ps' v v' =>
    Simulated.observePasses_coincide hg hg' h, ?_⟩
  intro plan plan' u u' e e' w w' hsimulations hseed hrun hrun'
  obtain ⟨stops, hstops, hforget⟩ := exists_observe hrun
  obtain ⟨stops', hstops', hforget'⟩ := exists_observe hrun'
  refine ⟨stops, stops', ⟨hstops, hforget⟩, ⟨hstops', hforget'⟩, ?_⟩
  obtain ⟨s, v, hs, hps⟩ := observe_eq_ok.1 hstops
  obtain ⟨s', v', hs', hps'⟩ := observe_eq_ok.1 hstops'
  rw [hseed, hs] at hs'
  obtain rfl := Except.ok.inj hs'
  rw [hsimulations] at hps'
  exact (Simulated.observePasses_coincide hg hg' h hps.1 hps'.1).1

end Evaluation

/-! ## The larder, stocked and not -/

namespace Larder

/-- A cut that asks for stock. -/
def advice : CutRecord Coin :=
  ⟨0, 0, none, { intercept := 9, coefficients := [-3], side := .atLeast }⟩

def stockedShop : PolicyGraph Coin := final (installRecord advice) shop

def twice : EvaluationPlan Coin := { EvaluationPlan.standard with simulations := 2 }

/-- The stock at the end of each stage of each simulation. -/
def stocks (g : PolicyGraph Coin) : Option (List (List (List ℤ))) :=
  (attempt (Evaluation.run planner twice) ⟨{}, g⟩).1.toOption.map fun e => e.passes.map Pass.states

theorem grows_stockedShop : Grows shop stockedShop :=
  (keeps_installCut (accepts_grown (isSound_build build_shop)) (fun _ _ _ _ => trivial) _ _).final
    (Grows.refl shop)

end Larder

/-- The larder is evaluated as it is built and with a cut that has stock bought. -/
theorem Evaluation.paths_coincide_shop :
    (build Larder.shopBuilder Larder.unbuiltShop = .ok () Larder.shop ∧
      Larder.stocks Larder.shop ≠ Larder.stocks Larder.stockedShop) ∧
    ∃ e e' w w' stops stops', run Larder.planner Larder.twice ⟨{}, Larder.shop⟩ = .ok e w ∧
      run Larder.planner Larder.twice ⟨{}, Larder.stockedShop⟩ = .ok e' w' ∧
      (observe Larder.planner Larder.twice ⟨{}, Larder.shop⟩ = .ok stops w ∧
        stops.map (List.map Prod.fst) = e.passes) ∧
      (observe Larder.planner Larder.twice ⟨{}, Larder.stockedShop⟩ = .ok stops' w' ∧
        stops'.map (List.map Prod.fst) = e'.passes) ∧
      stops'.map (List.map Stop.sample) = stops.map (List.map Stop.sample) := by
  have hsound := isSound_build Larder.build_shop
  have hstocked := hsound.of_grows Larder.grows_stockedShop
  have hlotteries : Larder.shop.SameLotteries Larder.stockedShop :=
    (sameLotteries_build Larder.build_shop Larder.build_shop rfl rfl rfl rfl rfl rfl).of_grows
      (.refl _) Larder.grows_stockedShop
  have hrun : succeeds (run Larder.planner Larder.twice) ⟨{}, Larder.shop⟩ = true := by
    decide +kernel
  have hrun' : succeeds (run Larder.planner Larder.twice) ⟨{}, Larder.stockedShop⟩ = true := by
    decide +kernel
  obtain ⟨e, he⟩ := exists_eq_ok_final hrun
  obtain ⟨e', he'⟩ := exists_eq_ok_final hrun'
  obtain ⟨-, hpaths⟩ := @paths_coincide _ _ Larder.planner Larder.planner _ _
    (isSettled_of_holds (Node.isPlaced_isSound _) hsound)
    (isSettled_of_holds (Node.isPlaced_isSound _) hstocked) hlotteries
  obtain ⟨stops, stops', hsame⟩ := hpaths _ _ _ _ _ _ _ _ rfl rfl he he'
  exact ⟨⟨Larder.build_shop, by decide +kernel⟩, e, e', _, _, stops, stops', he, he', hsame⟩

end DualDynamic
