import DualDynamic.Proofs.PolicyGraph.Twins

/-!
# Passes through twins

Simulated passes through twin graphs that draw from equal streams take the same path and the same
decisions, and backward passes at the states that they leave behind come to the same cuts. A graph whose
policy is evaluated stays a twin of one that is left alone.
-/

namespace DualDynamic

open Step PolicyGraph

variable {K A B : Type} {F : PolicyGraph K × List ℕ} {engine : Engine K}

/-! ## Backward passes -/

namespace Recorded

variable [Numeral K]

/-- Twin graphs whose cuts are written to equal files. -/
structure AreTwins (F : PolicyGraph K × List ℕ) (r r' : Recorded K) : Prop where
  graph : PolicyGraph.AreTwins F r.graph r'.graph
  log : r'.log = r.log

theorem respects_onGraph {x : Run K (PolicyGraph K) A}
    (hx : Run.Respects (PolicyGraph.AreTwins F) x) : Run.Respects (AreTwins F) (onGraph x) :=
  Run.respects_within hx (fun _ _ h => h.graph) fun _ _ _ _ h hg => ⟨hg, h.log⟩

/-- What is generated for a node depends neither on its program nor on its price. -/
theorem update_congr {n n' : Node K} (h : n'.rest = n.rest) (state : List K)
    (iteration : Option ℤ) : update engine n' state iteration = update engine n state iteration := by
  obtain ⟨m, price, -, rfl⟩ := Node.exists_of_rest h
  rfl

variable (hspares : engine.Spares F.1.retry) (hfunctional : engine.IsFunctional)
include hspares hfunctional

theorem respects_updateRib (n : Node K) (state : List K) (iteration : Option ℤ) (rib : Option K) :
    Run.Respects (AreTwins F) (updateRib engine n state iteration rib) := by
  refine (respects_onGraph (respects_generateCut hspares hfunctional n state rib iteration)).bind
    fun cut => ?_
  have hwrite : ∀ r, Run.Respects (AreTwins F) (write r) := fun r =>
    Run.respects_change fun _ _ h => ⟨h.graph, congrArg (CutFile.Log.write · r) h.log⟩
  exact (hwrite _).bind fun _ => (respects_onGraph (Run.respects_ofStep
    (respects_installCut _ _ _ _ _))).bind fun _ => respects_pure _

theorem respects_updateStage (path : List ℤ) (states : List (List K)) (iteration : Option ℤ)
    (stage : ℕ) : Run.Respects (AreTwins F) (updateStage engine path states iteration stage) := by
  refine Run.couples_part_bind_of fun w w' hw => Couples.ofExcept_bind_of fun n n' hn hn' => ?_
  have hrest : n'.rest = n.rest := by
    obtain ⟨markov, hmarkov, hn⟩ := exceptBind_eq_ok.1 hn
    obtain ⟨markov', hmarkov', hn'⟩ := exceptBind_eq_ok.1 hn'
    obtain rfl : markov = markov' := Except.ok.inj (hmarkov.symm.trans hmarkov')
    obtain ⟨t, k, hplace, hfound⟩ := exists_place (hw.graph.right.trans hw.graph.left.symm) hn
    obtain ⟨m, hm, htwin⟩ := hw.graph.nodes t k n hplace
    obtain rfl : m = n' := Except.ok.inj ((hfound m hm).symm.trans hn')
    exact htwin.twins.rest
  refine Couples.ofExcept_bind fun state _ => ?_
  rw [update_congr hrest]
  exact Respects.mapM fun rib _ => respects_updateRib hspares hfunctional n state iteration rib

/-- Backward passes through twins come to the same cuts. -/
theorem respects_backward (path : List ℤ) (states : List (List K)) (iteration : Option ℤ) :
    Run.Respects (AreTwins F) (backward engine path states iteration) := by
  refine Run.respects_part_bind (fun r r' h => ?_) fun r => ?_
  · rw [show r'.graph.stages = r.graph.stages from h.graph.congr stages fun _ => rfl]
  · exact (Respects.mapM fun stage _ => respects_updateStage hspares hfunctional path states iteration
      stage).bind fun _ => respects_pure _

end Recorded

/-! ## Simulated passes -/

namespace Node

variable [Numeral K] {n n' : Node K}

theorem samplePrice_congr (h : n'.rest = n.rest) (price : Option K) :
    n'.samplePrice price = n.samplePrice price := by
  obtain ⟨m, x, -, rfl⟩ := exists_of_rest h
  rfl

omit [Numeral K] in
theorem chances_congr (h : n'.rest = n.rest) : n'.model.sampleCount = n.model.sampleCount ∧
    n'.model.probability = n.model.probability := by
  obtain ⟨m, x, hm, rfl⟩ := exists_of_rest h
  obtain ⟨p, r, t, s, rfl⟩ := Subproblem.exists_of_outline hm
  exact ⟨rfl, rfl⟩

end Node

namespace Simulated

variable {R : ℕ → ℕ → Node K → Node K → Prop}

/-- Graphs beside each other whose passes draw from equal streams. -/
structure Beside (F : PolicyGraph K × List ℕ) (R : ℕ → ℕ → Node K → Node K → Prop)
    (s s' : Simulated K) : Prop where
  graph : PolicyGraph.Beside F R s.graph s'.graph
  stream : s'.stream = s.stream

/-- What is drawn does not depend on the graph. -/
theorem respects_draw (step : Draw K A) : Run.Respects (Beside F R) (draw step) := by
  refine Run.respects_ofStep fun s s' h a t ht a' t' ht' => ?_
  unfold Step.within at ht ht'
  rw [h.stream] at ht'
  cases hstep : step s.stream with
  | error e u =>
    rw [hstep] at ht
    cases ht
  | ok b u =>
    rw [hstep] at ht ht'
    cases ht
    cases ht'
    exact ⟨rfl, h.graph, rfl⟩

theorem couples_atNode {x : Run K (Node K) A} {t k : ℕ} {S : Node K → Node K → Prop}
    (hS : ∀ n n', S n n' → n.IsSound F t k ∧ n'.rest = n.rest)
    (hx : Couples (fun w w' => R t k w.part w'.part) x x fun _ _ w w' => S w.part w'.part) :
    Couples (fun w w' => Beside F R w.part w'.part) (atNode t k x) (atNode t k x)
      fun _ _ w w' => Beside F (AtPlace t k S R) w.part w'.part := by
  have hnode := PolicyGraph.Beside.couples_atNode (Q := fun _ _ => True) hS
    (hx.weaken (fun _ _ => id) fun _ _ _ _ h => ⟨trivial, h⟩)
  exact Run.couples_within hnode (fun _ _ hw => hw.graph) fun _ _ hw _ _ _ _ h => ⟨h.2, hw.stream⟩

variable [Numeral K] (hspares : engine.Spares F.1.retry) (hfunctional : engine.IsFunctional)
include hspares hfunctional

/-- Twins that are visited after the same history report the same. -/
theorem respects_visit (stage : ℕ) (previous : Option (ℕ × List K)) (price : Option K) :
    Run.Respects (Beside F (Node.IsTwin F Node.cells)) (visit engine [] stage previous price) := by
  refine Run.couples_part_bind_of fun w w' hw => ?_
  rw [show chances w'.part.graph = chances w.part.graph from hw.graph.congr chances fun _ => rfl]
  refine (respects_draw _).couples_bind fun k => ?_
  refine Run.couples_part_bind_of fun w w' hw => Couples.ofExcept_bind_of fun n n' hn hn' => ?_
  have htwins := (hw.graph.nodeAt (nodeAt_of_node hn) (nodeAt_of_node hn')).twins
  have hrest : n'.rest = n.rest := htwins.rest
  have houtline : n'.outline = n.outline := htwins.outline
  rw [Node.initialValues_congr houtline, Node.samplePrice_congr hrest,
    (Node.chances_congr hrest).1, (Node.chances_congr hrest).2]
  -- set up for the incoming state, the two agree up to the other settings
  refine Couples.bind (couples_atNode (fun _ _ h => ⟨h.sound, h.twins.rest⟩)
    (Node.couples_isTwin_setIncoming hspares _)) fun _ _ => ?_
  refine (respects_draw _).couples_bind fun price => (respects_draw _).couples_bind
    fun realization => ?_
  -- and when they have decided they agree in everything
  refine Couples.bind (couples_atNode (S := fun n n' => n.IsSound F stage k ∧ n.Decided n')
    (fun _ _ h => ⟨h.1, h.2.twins.rest⟩) ?_) fun _ _ => ?_
  · exact (Node.couples_isTwin_decide hspares hfunctional price realization).weaken
      (fun w w' hw => by simpa [AtPlace] using hw) fun _ _ _ _ => id
  refine Run.couples_part_bind_of fun w w' hw => Couples.ofExcept_bind_of fun n n' hn hn' => ?_
  have hdecided := hw.graph.nodeAt (nodeAt_of_node hn) (nodeAt_of_node hn')
  rw [AtPlace, if_pos ⟨rfl, rfl⟩] at hdecided
  rw [hdecided.2.report]
  refine (respects_ofExcept _).weaken (fun _ _ => id) fun v v' u u' h => ⟨h.1, ?_, h.2.stream⟩
  have hincoming : PolicyGraph.Beside F (AtPlace stage k (Node.IsTwin F Node.settingCells stage k)
      (Node.IsTwin F Node.cells)) u.part.graph u'.part.graph := h.2.graph.of_atPlace fun n n' h => by
    rw [AtPlace, if_pos ⟨rfl, rfl⟩]
    exact ⟨h.1, h.2.twins.mono (Set.empty_subset _)⟩
  exact hincoming.of_atPlace fun n n' h => ⟨h.sound, h.twins.mono Set.subset_union_right⟩

theorem respects_visits (stages count : ℕ) (previous : Option (ℕ × List K)) (price : Option K) :
    Run.Respects (Beside F (Node.IsTwin F Node.cells))
      (visits engine [] stages count previous price) := by
  induction count generalizing previous price with
  | zero => exact respects_pure _
  | succ count ih =>
    exact (respects_visit hspares hfunctional _ previous price).bind fun v =>
      (ih _ _).bind fun _ => respects_pure _

/-- Passes through twins that draw from equal streams are equal. -/
theorem respects_forward (stream : MersenneTwister) :
    Run.Respects (PolicyGraph.AreTwins F) (onGraph stream (forward engine [])) := by
  have hforward : Run.Respects (Beside F (Node.IsTwin F Node.cells)) (forward engine []) := by
    refine Run.respects_part_bind (fun s s' h => ?_) fun s =>
      respects_visits hspares hfunctional _ _ _ _
    dsimp only
    rw [show s'.graph.stages = s.graph.stages from h.graph.congr stages fun _ => rfl,
      show s'.graph.initialPrice = s.graph.initialPrice from h.graph.congr initialPrice fun _ => rfl]
  exact Run.respects_within hforward (fun _ _ h => ⟨h, rfl⟩) fun _ _ _ _ _ h => h.graph

end Simulated

/-! ## Evaluations -/

section Evaluations

variable [Numeral K] {g' : PolicyGraph K}

/-- A node that is set up and solved stays a twin of one that is left alone. -/
theorem PolicyGraph.undisturbed_isTwin (hspares : engine.Spares F.1.retry) :
    Undisturbed engine fun t k n => ∃ n', g'.nodeAt t k = some n' ∧ n.IsTwin F Node.cells t k n' where
  placed := fun t k n ⟨_, _, h⟩ => ⟨h.sound.stage, h.sound.markov⟩
  base := by
    rintro t k n ⟨n', hn', h⟩
    obtain ⟨rows, hwell⟩ := h.sound.model.wellFormed
    have houtline : ∀ m : Node K, (∃ m', g'.nodeAt t k = some m' ∧ m.IsTwin F Node.cells t k m') →
        m.outline = n.outline := by
      rintro m ⟨m', hm', hm⟩
      obtain rfl := Option.some.inj (hn'.symm.trans hm')
      exact hm.twins.outline.symm.trans h.twins.outline
    refine ⟨n, rows, hwell, h.sound.model.retry ▸ hspares, fun m m₁ htouches hm => ?_, houtline⟩
    have hcells := Node.cells_congr (houtline m hm)
    obtain ⟨m', hm', hm⟩ := hm
    have hafter : m₁.outline = m.outline := Programmed.outline_eq htouches.rest
    refine ⟨m', hm', hm.sound.extends
      (isBlind_extends (Set.subset_univ _) m m m₁ htouches (.refl _ m)), ?_⟩
    rw [Node.cells_congr hafter]
    exact hm.twins.touches_left htouches hcells.ge

/-- A graph whose policy is evaluated stays a twin of what it was a twin of. -/
theorem Evaluation.keeps_areTwins (hspares : engine.Spares F.1.retry) (plan : EvaluationPlan K)
    (hg' : g'.frame = F) : Keeps (fun w => PolicyGraph.AreTwins F w.part g') (run engine plan) := by
  have hholds : ∀ g, PolicyGraph.AreTwins F g g' ↔ Holds F
      (fun t k n => ∃ n', g'.nodeAt t k = some n' ∧ n.IsTwin F Node.cells t k n') g :=
    fun _ => ⟨fun h => ⟨h.left, h.nodes⟩, fun h => ⟨h.frame, hg', h.nodes⟩⟩
  simp only [hholds]
  exact keeps_run (undisturbed_isTwin hspares).steady plan

end Evaluations

end DualDynamic
