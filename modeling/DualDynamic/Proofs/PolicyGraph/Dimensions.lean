import DualDynamic.Proofs.Node.Observed
import DualDynamic.Proofs.PolicyGraph.Changes
import DualDynamic.Proofs.PolicyGraph.Copies
import DualDynamic.Proofs.Probability
import DualDynamic.Proofs.RiskMeasure.Width

/-!
# The number of state variables

Building compares the numbers of state variables within each stage and between neighbouring ones. Cuts,
costs-to-go and rebuilt nodes all rely on this one comparison (`dimensions_fit`): in whatever became of
the graph, each program has a row for each state variable of the common number, and each cost-to-go is
about as many. So the state duals of the programs behind a node are as many as the entries of a state,
and a cut can be generated from them and put into the node.

This takes something to happen behind the node: a successor, a realization of the price noise and one of
the noise of the program. The first two are there in accepted data.
-/

namespace DualDynamic

open Step

variable {K : Type} [Numeral K]

/-! ## Templates -/

namespace Pricing

variable {p : Pricing K} {ribs initial noise probability : Datum K} {dynamics : DynamicsData K}

/-- What was read as a price axis has finite ribs, and a positive number of realizations of the noise with
accepted probabilities. -/
theorem ofData_eq_ok (h : ofData ribs dynamics initial noise probability = .ok p) :
    (∀ r ∈ p.ribs, Scalar.isFinite r = true) ∧ 0 < p.noise.length ∧
      Probability.check probability p.noise.length = .ok p.probability := by
  obtain ⟨locations, hribs, h⟩ := exceptBind_eq_ok.1 h
  obtain ⟨rule, -, h⟩ := exceptBind_eq_ok.1 h
  obtain ⟨start, -, h⟩ := exceptBind_eq_ok.1 h
  obtain ⟨points, hnoise, h⟩ := exceptBind_eq_ok.1 h
  obtain ⟨chances, hprobability, h⟩ := exceptBind_eq_ok.1 h
  obtain rfl := Except.ok.inj h
  refine ⟨?_, ?_, mapError_eq_ok.1 hprobability⟩
  · have hread := mapError_eq_ok.1 hribs
    unfold readRibs at hread
    split at hread
    · cases hread
    · split_ifs at hread with _ hfinite
      obtain rfl := Except.ok.inj hread
      exact List.all_eq_true.1 (by simpa using hfinite)
  · unfold readNoise at hnoise
    cases hitems : noise.items? with
    | none => simp [hitems] at hnoise
    | some items =>
      cases items with
      | nil => simp [hitems] at hnoise
      | cons item items =>
        obtain rfl : item :: items = points := by simpa [hitems] using hnoise
        exact Nat.succ_pos _

/-- Some realization of the noise can happen. -/
theorem positiveNoise_ne_nil (hK : Probability.IsDiscerning K p.noise.length)
    (h : ofData ribs dynamics initial noise probability = .ok p) : p.positiveNoise ≠ [] := by
  obtain ⟨-, hnoise, hprobability⟩ := ofData_eq_ok h
  obtain ⟨hlength, x, hx, hpos⟩ := hK.exists_pos_of_check hnoise hprobability
  obtain ⟨i, hi, rfl⟩ := List.getElem_of_mem hx
  have hlt : i < p.noise.length := hlength ▸ hi
  have hmem : (p.noise[i], p.probability[i]) ∈ List.zip p.noise p.probability := by
    rw [← List.getElem_zip (h := by rw [List.length_zip]; omega)]
    exact List.getElem_mem _
  exact List.ne_nil_of_mem (List.mem_filter.2 ⟨hmem, hpos⟩)

end Pricing

namespace CostToGo

/-- The templates that graphs are made with: a single variable, or a price axis that was read. -/
inductive IsTemplate : CostToGo K → Prop
  | single (selection : Selection K) : IsTemplate (.single selection)
  | alongPrice (selection : Selection K) {ribs initial noise probability : Datum K}
      {dynamics : DynamicsData K} {p : Pricing K} :
      Pricing.ofData ribs dynamics initial noise probability = .ok p → IsTemplate (.alongPrice selection p)

/-- The number of realizations of the price noise. -/
def noiseCount (v : CostToGo K) : ℕ := v.pricing.elim 1 fun p => p.noise.length

variable {v v' : CostToGo K}

theorem IsTemplate.priceNoise_ne_nil (hv : v.IsTemplate) (hK : Probability.IsDiscerning K v.noiseCount) :
    v.priceNoise ≠ [] := by
  cases hv with
  | single selection => exact List.cons_ne_nil _ _
  | alongPrice selection h => exact Pricing.positiveNoise_ne_nil hK h

theorem IsTemplate.sameRib_self (hv : v.IsTemplate) (hK : Probability.IsDiscerning K v.noiseCount) :
    ∀ rib ∈ v.ribs, CutRecord.sameRib rib rib = true := by
  cases hv with
  | single selection =>
    intro rib hrib
    obtain rfl := List.mem_singleton.1 hrib
    rfl
  | alongPrice selection h =>
    intro rib hrib
    obtain ⟨x, hx, rfl⟩ := List.mem_map.1 hrib
    exact hK.eq_self ((Pricing.ofData_eq_ok h).1 x hx)

theorem priceNoise_congr (h : v'.pricing = v.pricing) : v'.priceNoise = v.priceNoise := by
  unfold priceNoise
  rw [h]

end CostToGo

/-! ## Layouts -/

namespace PolicyGraph

variable {g g' g₀ made unbuilt : PolicyGraph K} {n : Node K} {d t k : ℕ} {b : Builder K}

/-- The transition matrices were accepted, and there is a node for each Markov state. -/
structure IsLaidOut (g : PolicyGraph K) : Prop where
  transitions : ∃ matrices, Transitions.check matrices g.stages = .ok g.transitions
  lengths : g.nodes.map List.length = (List.range g.stages).map fun t => g.transitions.sizes.getD t 0

omit [Numeral K] in
/-- What the design of a graph says of it. -/
theorem eq_of_design (h : g'.design = g.design) :
    g'.stages = g.stages ∧ g'.sense = g.sense ∧ g'.transitions = g.transitions ∧
      g'.template = g.template ∧ g'.nodes.map List.length = g.nodes.map List.length :=
  ⟨congrArg (fun D => D.1.stages) h, congrArg (fun D => D.1.sense) h,
    congrArg (fun D => D.1.transitions) h, congrArg (fun D => D.1.template) h, congrArg Prod.snd h⟩

theorem IsLaidOut.of_design (hg : g.IsLaidOut) (h : g'.design = g.design) : g'.IsLaidOut := by
  obtain ⟨hstages, -, htransitions, -, hlengths⟩ := eq_of_design h
  refine ⟨?_, ?_⟩
  · rw [hstages, htransitions]
    exact hg.transitions
  · rw [hlengths, hstages, htransitions]
    exact hg.lengths

theorem length_of_newNodes {nodes : List (List (Node K))} (h : g.newNodes b = .ok nodes) :
    nodes.map List.length = (List.range g.stages).map fun t => g.transitions.sizes.getD t 0 := by
  have hrows : List.Forall₂ (fun row t => row.length = g.transitions.sizes.getD t 0) nodes
      (List.range g.stages) :=
    (forall₂_of_mapM h).flip.imp fun row t hrow => by
      rw [← (forall₂_of_mapM hrow).length_eq, List.length_range]
  exact List.forall₂_eq_eq_eq.le _ _
    (List.forall₂_map_left_iff.2 (List.forall₂_map_right_iff.2 hrows))

variable {stages sense : ℤ} {bound : Option (KnownBound K)} {matrices output : Datum K}
  {template : CostToGo K}

/-- A graph that was made from data has accepted matrices, the template that was given, no nodes, and two
stages or more. -/
theorem ofData_eq_ok (h : ofData stages bound sense matrices template output = .ok made) :
    Transitions.check matrices made.stages = .ok made.transitions ∧ made.template = template ∧
      made.nodes = [] ∧ 2 ≤ made.stages := by
  unfold ofData at h
  cases hsense : Sense.ofInt? sense with
  | none =>
    simp only [hsense] at h
    cases h
  | some s =>
    simp only [hsense] at h
    obtain ⟨hstages, h⟩ := guard_eq_ok h
    obtain ⟨transitions, htransitions, h⟩ := exceptBind_eq_ok.1 h
    obtain ⟨-, h⟩ := guard_eq_ok h
    obtain rfl := Except.ok.inj h
    have htwo : 2 ≤ stages := by
      simp only [Bool.or_eq_true, decide_eq_true_eq, not_or, not_lt] at hstages
      exact hstages.1
    have hcast : ((stages.toNat : ℕ) : ℤ) = stages := Int.toNat_of_nonneg (by omega)
    refine ⟨by rw [hcast]; exact htransitions, rfl, rfl, ?_⟩
    exact_mod_cast hcast ▸ htwo

variable (hmade : ofData stages bound sense matrices template output = .ok made)
  (hset : Reaches made unbuilt) (hbuild : build b unbuilt = .ok () g₀)
include hmade hset hbuild

/-- What was read is still there once the graph is built. -/
theorem eq_made_of_build : g₀.stages = made.stages ∧ g₀.transitions = made.transitions ∧
    g₀.template = made.template := by
  obtain ⟨-, -, hnodes, -⟩ := ofData_eq_ok hmade
  have hempty : Holds made.frame (Node.IsOpen made 0) made := by
    refine ⟨rfl, fun t k n hn => ?_⟩
    rw [nodeAt, hnodes] at hn
    cases hn
  obtain ⟨-, hdesign⟩ := (isLasting_isOpen made 0).of_reaches hempty hset
  obtain ⟨hstages, -, hchain, hsame, -⟩ := eq_of_design hdesign
  obtain ⟨nodes, hbuilt, -⟩ := build_eq_ok hbuild
  rw [hbuilt]
  exact ⟨hstages, hchain, hsame⟩

/-- So a graph that was built from it is laid out, and has the template. -/
theorem isLaidOut_build : g₀.IsLaidOut ∧ g₀.template = template := by
  obtain ⟨htransitions, htemplate, -⟩ := ofData_eq_ok hmade
  obtain ⟨hstages, hchain, hsame⟩ := eq_made_of_build hmade hset hbuild
  obtain ⟨nodes, hbuilt, hnew, -⟩ := build_eq_ok hbuild
  have hrows : g₀.nodes = nodes := by rw [hbuilt]
  refine ⟨⟨⟨matrices, by rwa [hstages, hchain]⟩, ?_⟩, hsame.trans htemplate⟩
  rw [hrows]
  exact length_of_newNodes hnew

omit hmade hset hbuild

theorem positive_ne_nil {row : List K} (h : ∃ x ∈ row, Scalar.lt Scalar.zero x = true) :
    positive row ≠ [] := by
  obtain ⟨x, hx, hpos⟩ := h
  obtain ⟨i, hi⟩ := List.mem_iff_getElem?.1 hx
  have hmem : (x, i) ∈ row.zipIdx := List.mem_zipIdx_iff_getElem?.2 hi
  exact List.ne_nil_of_mem (List.mem_map_of_mem (List.mem_filter.2 ⟨hmem, hpos⟩))

/-- In a graph that is laid out, something follows each node that is not of the last stage. -/
theorem IsLaidOut.successors_ne_nil (hg : g.IsLaidOut) {count : ℕ} (hK : Probability.IsDiscerning K count)
    (hn : g.nodeAt t k = some n) (hstage : n.stage = t) (hmarkov : n.markov = k)
    (hterminal : n.isTerminal = false) (hlast : t + 1 ≠ g.stages) : g.successors n ≠ [] := by
  obtain ⟨matrices, hmatrices⟩ := hg.transitions
  obtain ⟨row, hrow, hk⟩ := Option.bind_eq_some_iff.1 hn
  have hlength : ((List.range g.stages).map fun t => g.transitions.sizes.getD t 0)[t]? =
      some row.length := by
    rw [← hg.lengths, List.getElem?_map, hrow, Option.map_some]
  rw [List.getElem?_map] at hlength
  obtain ⟨t', ht', hsize⟩ := Option.map_eq_some_iff.1 hlength
  have hlt : t < g.stages := by simpa using (List.getElem?_eq_some_iff.1 ht').1
  rw [eq_of_getElem?_range ht'] at hsize
  have hwidth : k < g.transitions.sizes.getD t 0 := by
    rw [hsize]
    exact (List.getElem?_eq_some_iff.1 hk).1
  have htransition : g.transition n = g.transitions.row (t + 1) k := by
    rw [transition, hterminal, hstage, hmarkov]
    rfl
  rw [successors, htransition]
  refine positive_ne_nil ?_
  rcases Transitions.row_of_check hmatrices (by omega) hwidth with hone | hdistribution
  · exact ⟨Scalar.one, by rw [hone]; exact List.mem_singleton_self _, hK.one_pos⟩
  · exact hK.exists_pos hdistribution

/-! ## Programs -/

end PolicyGraph

/-- The program of a node has a row for each of its state variables, and the node stands at its place. -/
structure Node.IsTied (t k : ℕ) (n : Node K) : Prop where
  stage : n.stage = t
  markov : n.markov = k
  links : n.model.links.length = n.model.stateCount

namespace Node

variable {n n' : Node K} {m : Subproblem K} {t k : ℕ}

omit [Numeral K] in
theorem IsTied.withModel (hn : n.IsTied t k) (hm : m.outline = n.model.outline) (v : CostToGo K)
    (x : Option K) : IsTied t k { n with costToGo := v, model := m, price := x } := by
  obtain ⟨p, r, s, u, rfl⟩ := Subproblem.exists_of_outline hm
  exact ⟨hn.stage, hn.markov, hn.links⟩

theorem isTied_rebuilt {g : PolicyGraph K} (hn : n.IsTied t k) (h : g.rebuilt n = .ok n') :
    n'.IsTied t k := by
  obtain ⟨b, m, -, hm, -, rfl⟩ := PolicyGraph.rebuilt_eq_ok h
  obtain ⟨rows, hlinked⟩ := PolicyGraph.isLinked_newModel hm
  have hnew : IsTied t k { n with model := m } := ⟨hn.stage, hn.markov, hlinked.linkCount⟩
  split_ifs
  · exact hnew.withModel rfl n.costToGo none
  · exact hnew.withModel (CostToGo.outline_rebuild n.costToGo m) _ none

theorem isTied_newNode {g : PolicyGraph K} {b : Builder K} (h : g.newNode b t k = .ok n) :
    n.IsTied t k := by
  obtain ⟨m, hm, ⟨-, rfl⟩ | ⟨-, f, -, rfl⟩⟩ := PolicyGraph.newNode_eq_ok h <;>
  obtain ⟨rows, hlinked⟩ := PolicyGraph.isLinked_newModel hm
  · exact ⟨rfl, rfl, hlinked.linkCount⟩
  · have hbare : IsTied t k (⟨t, k, false, g.template.spawn, m, none⟩ : Node K) :=
      ⟨rfl, rfl, hlinked.linkCount⟩
    exact hbare.withModel (CostToGo.outline_withRibVariables f _ m) _ none

theorem isLasting_isTied : PolicyGraph.IsLasting (IsTied (K := K)) where
  steady _ := PolicyGraph.steady_of_ignoring (fun _ _ _ h => ⟨h.stage, h.markov⟩)
    fun _ _ n _ x hn hm => hn.withModel hm n.costToGo x
  accepts := {
    placed := fun _ _ _ h => ⟨h.stage, h.markov⟩
    installCut := fun {_ _ n _ _ _ _ _} hn _ h => by
      obtain ⟨v, m, -, hinstall, rfl⟩ := Node.installCut_eq_ok.1 h
      obtain ⟨-, -, -, -, -, -, -, houtline⟩ := CostToGo.changes_installCut hinstall
      exact hn.withModel houtline v n.price }
  rebuilt := isTied_rebuilt
  retry _ hn := ⟨hn.stage, hn.markov, hn.links⟩

end Node

/-! ## What solving nodes gives -/

/-- Answers with `d` duals each, at least one of them. -/
structure AreAnswers (d : ℕ) (rs : List (K × List K × K)) : Prop where
  nonempty : rs ≠ []
  lengths : ∀ r ∈ rs, r.2.1.length = d

omit [Numeral K] in
theorem AreAnswers.flatten {A : Type} {d : ℕ} {items : List A} {parts : List (List (K × List K × K))}
    (hitems : items ≠ []) (h : List.Forall₂ (fun _ rs => AreAnswers d rs) items parts) :
    AreAnswers d parts.flatten := by
  constructor
  · obtain ⟨a, ha⟩ := List.exists_mem_of_ne_nil _ hitems
    obtain ⟨part, hpart, hanswers⟩ := exists_left_of_forall₂ h.flip ha
    obtain ⟨r, hr⟩ := List.exists_mem_of_ne_nil _ hanswers.nonempty
    exact List.ne_nil_of_mem (List.mem_flatten.2 ⟨part, hpart, hr⟩)
  · intro r hr
    obtain ⟨part, hpart, hr⟩ := List.mem_flatten.1 hr
    obtain ⟨-, -, hanswers⟩ := exists_left_of_forall₂ h hpart
    exact hanswers.lengths r hr

/-- A node of the graph `g` at which something can happen. -/
structure Node.IsReady (g : PolicyGraph K) (d t k : ℕ) (n : Node K) : Prop extends n.IsOpen g d t k where
  links : n.model.links.length = d
  noise : n.costToGo.priceNoise ≠ []
  /-- The program has a realization of positive probability, unless its probabilities are refused. -/
  chances : ∀ weights, n.model.scenarioProbability = .ok weights →
    ∃ p ∈ weights, Scalar.lt Scalar.zero p = true

namespace Node

variable {g : PolicyGraph K} {n : Node K} {m : Subproblem K} {d t k count : ℕ} {engine : Engine K}

omit [Numeral K] in
theorem IsOpen.of_design {g' : PolicyGraph K} (hn : n.IsOpen g d t k) (h : g'.design = g.design) :
    n.IsOpen g' d t k := by
  obtain ⟨hstages, hsense, -, htemplate, -⟩ := PolicyGraph.eq_of_design h
  exact {
    hn with
    terminal := by rw [hstages]; exact hn.terminal
    pricing := by rw [htemplate]; exact hn.pricing
    frame := by rw [hsense]; exact hn.frame }

theorem IsReady.withModel (hn : n.IsReady g d t k) (hm : m.outline = n.model.outline) (x : Option K) :
    IsReady g d t k { n with model := m, price := x } := by
  have hopen := hn.toIsOpen.withModel hm x
  obtain ⟨p, r, s, u, rfl⟩ := Subproblem.exists_of_outline hm
  exact { hopen with links := hn.links, noise := hn.noise, chances := hn.chances }

theorem steady_isReady (g : PolicyGraph K) (d : ℕ) : PolicyGraph.Steady engine (IsReady g d) :=
  PolicyGraph.steady_of_ignoring (fun _ _ _ h => ⟨h.stage, h.markov⟩)
    fun _ _ _ _ x hn hm => hn.withModel hm x

theorem possible_ne_nil (hK : Probability.IsDiscerning K count) (hn : n.IsReady g d t k)
    {items : List (ℕ × K)} (h : n.possible = .ok items) : items ≠ [] := by
  obtain ⟨weights, hweights, h⟩ := exceptBind_eq_ok.1 h
  obtain rfl := Except.ok.inj h
  obtain ⟨p, hp, hpos⟩ := hn.chances weights hweights
  obtain ⟨i, hi⟩ := List.mem_iff_getElem?.1 hp
  have hmem : (p, i) ∈ weights.zipIdx := List.mem_zipIdx_iff_getElem?.2 hi
  exact List.ne_nil_of_mem (List.mem_map_of_mem (List.mem_filter.2 ⟨hmem, hK.ne_zero hpos⟩))

omit [Numeral K] in
theorem outline_ignoring (o n : Node K) (m : Subproblem K) (x : Option K) (hn : n.outline = o.outline)
    (hm : m.outline = n.model.outline) : outline { n with model := m, price := x } = o.outline := by
  rw [← hn, outline, outline, hm]

/-- The duals that a program is asked for are as many as its rows for state variables. -/
theorem ensures_solveRealization_links (o : Node K) (price : Option K) (k : ℕ) :
    Ensures (fun w => w.part.outline = o.outline) (solveRealization engine price k)
      (fun r w => r.2.length = o.model.links.length ∧ w.part.outline = o.outline)
      fun w => w.part.outline = o.outline := by
  have hI := outline_ignoring o
  refine Ensures.bind (keeps_setRealization_of_ignoring hI k) fun _ => ?_
  refine Ensures.bind (keeps_setPrice_of_ignoring hI price) fun _ => Run.ensures_part_bind fun w hw => ?_
  refine Ensures.weaken (P := fun w => w.part.outline = o.outline) ?_ (fun v hv => hv ▸ hw)
    (fun _ _ => id) fun _ => id
  refine Ensures.bind (keeps_solve_of_ignoring hI _ _) fun value => Run.ensures_part_bind fun w hw => ?_
  refine Ensures.bind (Q := fun duals v => duals.length = o.model.links.length ∧ v.part.outline = o.outline)
    (ensures_ofExcept (fun duals hduals v hv => ⟨?_, hv ▸ hw⟩) fun v hv => hv ▸ hw) fun duals =>
      ensures_pure fun _ => id
  have hlinks : w.part.model.links = o.model.links := by
    obtain ⟨p, r, s, u, hm⟩ := Subproblem.exists_of_outline (model_outline hw)
    rw [hm]
  rw [← (forall₂_of_mapM hduals).length_eq, hlinks]

/-- Solving a node at which something can happen gives answers. -/
theorem ensures_areAnswers (hK : Probability.IsDiscerning K count) (hn : n.IsReady g d t k)
    (state : Option (List K)) (price : Option K) (weight : K) :
    Ensures (fun w => w.part.outline = n.outline) (solveAll engine state price weight)
      (fun rs _ => AreAnswers d rs) fun _ => True := by
  have hincoming : Ensures (fun w : Watched (Node K) => w.part.outline = n.outline)
      (onModel (Subproblem.setIncoming (state.getD n.model.initialValues)))
      (fun _ w => w.part.outline = n.outline) fun _ => True :=
    (keeps_setIncoming_of_ignoring (outline_ignoring n) _).weaken (fun _ => id) (fun _ _ => id)
      fun _ _ => trivial
  refine (ensures_solveAll (fun _ => id) (ensures_solveRealization_links n) (fun _ => id)
    (fun _ _ => trivial) hincoming price weight).weaken (fun _ => id) ?_ fun _ => id
  rintro rs w ⟨⟨parts, rfl, hparts⟩, -⟩
  refine AreAnswers.flatten hn.noise (hparts.imp fun noise part hpart => ?_)
  obtain ⟨next, items, -, hitems, hrs⟩ := hpart
  refine ⟨?_, fun r hr => ?_⟩
  · rintro rfl
    exact possible_ne_nil hK hn hitems (List.forall₂_nil_right_iff.1 hrs)
  · obtain ⟨kp, -, hduals, -⟩ := exists_left_of_forall₂ hrs hr
    exact hduals.trans hn.links

end Node

namespace PolicyGraph

variable {g g₀ : PolicyGraph K} {n : Node K} {d count : ℕ} {engine : Engine K}
  {F : PolicyGraph K × List ℕ}

/-- So does solving the nodes of a stage, of which there is one at least. -/
theorem ensures_isUniform (hK : Probability.IsDiscerning K count) {nodes : List (ℕ × K)}
    (hnodes : nodes ≠ []) (stage : ℕ) (state : Option (List K)) (price : Option K) :
    Ensures (fun w => Holds F (Node.IsReady g d) w.part) (solveStage engine stage nodes state price)
      (fun r w => r.IsUniform d ∧ Holds F (Node.IsReady g d) w.part)
      fun w => Holds F (Node.IsReady g d) w.part := by
  have hsteady : Steady engine (Node.IsReady g d) := Node.steady_isReady g d
  have hnode : ∀ kp ∈ nodes, Ensures (fun w => Holds F (Node.IsReady g d) w.part)
      (atNode stage kp.1 (Node.solveAll engine state price kp.2))
      (fun rs w => AreAnswers d rs ∧ Holds F (Node.IsReady g d) w.part)
      fun w => Holds F (Node.IsReady g d) w.part := by
    refine fun kp _ => ensures_atNode hsteady.placed fun t k _ _ => ?_
    have hanswers : Ensures (fun w => Node.IsReady g d t k w.part)
        (Node.solveAll engine state price kp.2) (fun rs _ => AreAnswers d rs) fun _ => True :=
      fun w hw => Node.ensures_areAnswers hK hw state price kp.2 w rfl
    exact (hanswers.and (hsteady.keeps_solveAll t k state price kp.2)).weaken (fun _ => id)
      (fun _ _ => id) fun _ h => h.2
  refine (Ensures.mapM hnode).bind fun parts => ensures_pure fun w hw => ⟨?_, hw.2⟩
  have hanswers := AreAnswers.flatten hnodes hw.1
  exact {
    nonempty := by simpa [Realizations.ofTriples] using hanswers.nonempty
    gradients := by rw [Realizations.ofTriples, List.length_map, List.length_map]
    lengths := List.forall_mem_map.2 hanswers.lengths }

/-- When the programs behind a node solve, a cut is generated from them. -/
theorem exists_generateCut {state : List K} {rib : Option K} {w v : Watched (PolicyGraph K)}
    {r : Realizations K} (hsolve : solveBehind engine n (some state) rib w = .ok r v)
    (hr : r.IsUniform state.length) (iteration : Option ℤ) :
    ∃ cut, generateCut engine n state rib iteration w = .ok cut v := by
  obtain ⟨value, gradient, haggregate, hlength⟩ := v.part.measure.exists_aggregate v.part.sense hr
  have hstage : aggregateStage engine (n.stage + 1) (w.part.successors n) (some state) rib w =
      .ok (value, gradient) v := by
    rw [solveBehind, Run.part_bind_apply] at hsolve
    refine bind_eq_ok.2 ⟨r, v, hsolve, ?_⟩
    rw [Run.part_bind_apply]
    exact ofExcept_eq_ok.2 ⟨haggregate, rfl⟩
  refine ⟨{
    intercept := value - Scalar.dot gradient state
    coefficients := gradient
    side := w.part.sense.cutSide
    stage := some n.stage
    markov := some n.markov
    iteration }, ?_⟩
  rw [generateCut, Run.part_bind_apply]
  refine bind_eq_ok.2 ⟨(value, gradient), v, hstage, ?_⟩
  dsimp only
  rw [if_neg (by simp [hlength])]
  rfl

/-- A cut that is generated behind a node of a graph, in which something can happen, is taken by the node. -/
theorem exists_generated_installed (hK : Probability.IsDiscerning K count) (hlaid : g.IsLaidOut)
    (hribs : g.HasRibs) (hready : Holds g.frame (Node.IsReady g d) g) (hn : n ∈ g.allNodes)
    (hterminal : n.isTerminal = false) {state : List K} (hstate : state.length = d) {rib : Option K}
    (hrib : rib ∈ n.costToGo.ribs) {i : Monitor} {r : Realizations K} {v : Watched (PolicyGraph K)}
    (hsolve : solveBehind engine n (some state) rib ⟨i, g⟩ = .ok r v) (iteration : Option ℤ) :
    ∃ cut, generateCut engine n state rib iteration ⟨i, g⟩ = .ok cut v ∧ cut.dimension = d ∧
      cut.side = g.sense.cutSide ∧ ∃ new g',
        installCut n.stage n.markov rib cut (some (.list (state.map .real))) v.part = .ok new g' := by
  obtain ⟨t, k, hplace⟩ := mem_allNodes.1 hn
  have hnode := hready.nodes t k n hplace
  have hlast : t + 1 ≠ g.stages := by
    have hend := hnode.terminal
    rw [hterminal] at hend
    simpa using hend.symm
  have hsuccessors : g.successors n ≠ [] :=
    hlaid.successors_ne_nil hK hplace hnode.stage hnode.markov hterminal hlast
  obtain ⟨huniform, hready'⟩ : r.IsUniform d ∧ Holds g.frame (Node.IsReady g d) v.part := by
    have hstage := hsolve
    rw [solveBehind, Run.part_bind_apply] at hstage
    exact (ensures_isUniform hK hsuccessors _ _ _).of_ok (s := ⟨i, g⟩) hready hstage
  obtain ⟨cut, hcut⟩ := exists_generateCut hsolve (hstate.symm ▸ huniform) iteration
  obtain ⟨hdimension, hside⟩ := dimension_generateCut hcut
  have hfits : g.Fits d ⟨n.stage, n.markov, rib, cut⟩ := {
    place := ⟨t, k, by rw [hnode.stage], by rw [hnode.markov], by rw [hplace]; rfl, hlast⟩
    rib := by
      have hsame : n.costToGo.ribs = g.template.ribs := by
        rw [CostToGo.ribs, hnode.pricing, CostToGo.ribs]
      exact hsame ▸ hrib
    dimension := hdimension.trans hstate
    side := hside }
  have hopen : Holds g.frame (Node.IsOpen g d) v.part :=
    ⟨hready'.frame, fun t k n hn => (hready'.nodes t k n hn).toIsOpen⟩
  refine ⟨cut, hcut, hdimension.trans hstate, hside, exists_installCut hopen hribs hfits _ fun s hs => ?_⟩
  exact ⟨state, hstate, (Option.some.inj hs).symm⟩

/-- In a graph that was built, and in all that became of it, the nodes are open for one number of state
variables, and their programs have a row for each. -/
theorem exists_isOpen_reached {b : Builder K} {unbuilt : PolicyGraph K}
    (hbuild : build b unbuilt = .ok () g₀) : ∃ d, ∀ g, Reaches g₀ g → g.design = g₀.design ∧
      ∀ t k n, g.nodeAt t k = some n → n.IsOpen g d t k ∧ n.model.links.length = d := by
  obtain ⟨d, hopen⟩ := exists_isOpen_build hbuild
  have htied : Holds g₀.frame Node.IsTied g₀ :=
    ⟨rfl, fun _ _ _ hn => Node.isTied_newNode (newNode_of_build hbuild hn).2⟩
  refine ⟨d, fun g hreach => ?_⟩
  obtain ⟨hopen, hdesign⟩ := (isLasting_isOpen g₀ d).of_reaches hopen hreach
  obtain ⟨htied, -⟩ := Node.isLasting_isTied.of_reaches htied hreach
  refine ⟨hdesign, fun t k n hn => ⟨(hopen.nodes t k n hn).of_design hdesign, ?_⟩⟩
  exact (htied.nodes t k n hn).links.trans (hopen.nodes t k n hn).stateCount

/-- The number of state variables is the same everywhere, and stays: in every graph that became of a graph
that was built, each program has as many states and as many rows that tie them, and each cost-to-go that
is not of the last stage is about as many. So if something can happen in each program and those behind a
node solve at a state with as many entries, at a rib of the node, then a cut is generated, has as many
coefficients and the side of the problem, and the node takes it at this rib and this state. -/
theorem dimensions_fit {stages sense : ℤ} {bound : Option (KnownBound K)} {matrices output : Datum K}
    {template : CostToGo K} {made unbuilt : PolicyGraph K} {b : Builder K}
    (hK : Probability.IsDiscerning K template.noiseCount) (htemplate : template.IsTemplate)
    (hmade : ofData stages bound sense matrices template output = .ok made)
    (hset : Reaches made unbuilt) (hbuild : build b unbuilt = .ok () g₀) :
    ∃ d, ∀ g, Reaches g₀ g →
      (∀ n ∈ g.allNodes, n.model.stateCount = d ∧ n.model.links.length = d ∧
        (n.isTerminal = false → ∃ f, n.costToGo.frame = some f ∧ f.dimension = d)) ∧
      ((∀ n ∈ g.allNodes, ∀ weights, n.model.scenarioProbability = .ok weights →
          ∃ p ∈ weights, Scalar.lt Scalar.zero p = true) →
        ∀ n ∈ g.allNodes, n.isTerminal = false → ∀ state : List K, state.length = d →
          ∀ rib ∈ n.costToGo.ribs, ∀ (engine : Engine K) (i : Monitor) r v,
            solveBehind engine n (some state) rib ⟨i, g⟩ = .ok r v → ∀ iteration, ∃ cut,
              generateCut engine n state rib iteration ⟨i, g⟩ = .ok cut v ∧
                cut.dimension = d ∧ cut.side = g.sense.cutSide ∧ ∃ new g', installCut n.stage
                  n.markov rib cut (some (.list (state.map .real))) v.part = .ok new g') := by
  obtain ⟨hlaid, hsame⟩ := isLaidOut_build hmade hset hbuild
  obtain ⟨d, hreached⟩ := exists_isOpen_reached hbuild
  refine ⟨d, fun g hreach => ?_⟩
  obtain ⟨hdesign, hnodes⟩ := hreached g hreach
  constructor
  · intro n hn
    obtain ⟨t, k, hplace⟩ := mem_allNodes.1 hn
    obtain ⟨hopen, hlinks⟩ := hnodes t k n hplace
    refine ⟨hopen.stateCount, hlinks, fun hterminal => ?_⟩
    obtain ⟨known, hframe⟩ := hopen.frame hterminal
    exact ⟨_, hframe, rfl⟩
  · intro hchances n hn hterminal state hstate rib hrib engine i r v hsolve iteration
    obtain ⟨-, -, -, htemplates, -⟩ := eq_of_design hdesign
    have hgiven : g.template = template := htemplates.trans hsame
    have hribs : g.HasRibs := by
      rw [HasRibs, hgiven]
      exact htemplate.sameRib_self hK
    have hready : Holds g.frame (Node.IsReady g d) g := by
      refine ⟨rfl, fun t k n hn => ?_⟩
      obtain ⟨hopen, hlinks⟩ := hnodes t k n hn
      refine { hopen with
        links := hlinks
        noise := ?_
        chances := hchances n (mem_allNodes.2 ⟨t, k, hn⟩) }
      rw [CostToGo.priceNoise_congr hopen.pricing, hgiven]
      exact htemplate.priceNoise_ne_nil hK
    exact exists_generated_installed hK (hlaid.of_design hdesign) hribs hready hn hterminal hstate hrib
      hsolve iteration

/-- A supplier's graph with a cut, whose first node gets one more. -/
theorem dimensions_fit_supply :
    let g : PolicyGraph ℚ :=
      final (installCut 0 0 none { intercept := 9, coefficients := [-3], side := .atLeast } none)
        Supply.neutral
    (Probability.IsDiscerning ℚ Supply.unbuilt.template.noiseCount ∧
      Supply.unbuilt.template.IsTemplate ∧
      ofData 2 (some (.whole 0)) 1 .absent Supply.unbuilt.template (.whole 0) = .ok Supply.unbuilt ∧
      build Supply.builder Supply.unbuilt = .ok () Supply.neutral ∧ Reaches Supply.neutral g) ∧
    (∀ n ∈ g.allNodes, n.model.stateCount = 1 ∧ n.model.links.length = 1) ∧
    ∃ n ∈ g.allNodes, n.isTerminal = false ∧ ∃ cut v,
      generateCut Supply.buyer n [0] none (some 1) ⟨{}, g⟩ = .ok cut v ∧ cut.dimension = 1 ∧
        succeeds (installCut n.stage n.markov none cut (some (.list [.real 0]))) v.part = true := by
  intro g
  have hK : Probability.IsDiscerning ℚ Supply.unbuilt.template.noiseCount := Probability.isDiscerning _
  have htemplate : Supply.unbuilt.template.IsTemplate := .single _
  have hmade : ofData 2 (some (.whole 0)) 1 .absent Supply.unbuilt.template (.whole 0) =
      .ok Supply.unbuilt := rfl
  have hreach : Reaches Supply.neutral g := Reaches.tail (.refl _) (.install 0 0 none _ none)
  obtain ⟨d, hfit⟩ := dimensions_fit hK htemplate hmade (.refl _) Supply.build_neutral
  obtain ⟨hdimensions, hcuts⟩ := hfit g hreach
  have hchances : g.allNodes.all (fun n => n.model.scenarioProbability.toOption.all fun weights =>
      weights.any fun p => Scalar.lt Scalar.zero p) = true := by decide +kernel
  have hfirst : (g.nodeAt 0 0).any (fun n => !n.isTerminal && n.model.stateCount == 1 &&
      n.costToGo.pricing.isNone && succeeds (solveBehind Supply.buyer n (some [0]) none) ⟨{}, g⟩) =
        true := by decide +kernel
  obtain ⟨n, hplace, hn⟩ := (Option.any_eq_true _ _).1 hfirst
  simp only [Bool.and_eq_true, Bool.not_eq_true', beq_iff_eq, Option.isNone_iff_eq_none] at hn
  obtain ⟨⟨⟨hterminal, hcount⟩, hpricing⟩, hsolves⟩ := hn
  have hmem : n ∈ g.allNodes := mem_allNodes.2 ⟨0, 0, hplace⟩
  obtain rfl : d = 1 := (hdimensions n hmem).1.symm.trans hcount
  have hrib : none ∈ n.costToGo.ribs := by
    rw [CostToGo.ribs, hpricing]
    exact List.mem_singleton_self _
  have hpositive : ∀ n ∈ g.allNodes, ∀ weights, n.model.scenarioProbability = .ok weights →
      ∃ p ∈ weights, Scalar.lt Scalar.zero p = true := by
    intro n hn weights hweights
    have hany := List.all_eq_true.1 hchances n hn
    rw [hweights] at hany
    exact List.any_eq_true.1 hany
  obtain ⟨r, hsolve⟩ := exists_eq_ok_final hsolves
  obtain ⟨cut, hcut, hdimension, -, new, g', hinstall⟩ :=
    hcuts hpositive n hmem hterminal [0] rfl none hrib Supply.buyer {} r _ hsolve (some 1)
  refine ⟨⟨hK, htemplate, hmade, Supply.build_neutral, hreach⟩,
    fun n hn => ⟨(hdimensions n hn).1, (hdimensions n hn).2.1⟩,
    n, hmem, hterminal, cut, _, hcut, hdimension, ?_⟩
  unfold Step.succeeds
  rw [show [Datum.real 0] = [(0 : ℚ)].map Datum.real from rfl, hinstall]

end PolicyGraph

end DualDynamic
