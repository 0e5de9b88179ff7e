import DualDynamic.Proofs.Node
import DualDynamic.Evaluation

/-!
# Nodes of a graph, one by one

A graph keeps a property of its nodes, place by place, if every step on a node keeps it there. Steps
on a graph change nothing but nodes: each node is put back where it was taken from.
-/

namespace DualDynamic

open Step

variable {K A : Type}

namespace PolicyGraph

/-- The node at a place. -/
def nodeAt (g : PolicyGraph K) (t k : ℕ) : Option (Node K) := g.nodes[t]?.bind (·[k]?)

/-- All of a graph but its nodes, and how many of them there are in each stage. -/
def frame (g : PolicyGraph K) : PolicyGraph K × List ℕ :=
  ({ g with nodes := [], bound := none }, g.nodes.map List.length)

theorem exists_of_node {g : PolicyGraph K} {stage markov : ℤ} {n : Node K}
    (h : g.node stage markov = .ok n) :
    ∃ t k, g.nodeAt t k = some n ∧ (∀ i : ℕ, stage = i → t = i) ∧ ∀ i : ℕ, markov = i → k = i := by
  simp only [node, bind, Except.bind] at h
  split at h
  · cases h
  · rename_i row hrow
    obtain ⟨t, ht, hstage⟩ := exists_of_itemAt hrow
    obtain ⟨k, hk, hmarkov⟩ := exists_of_itemAt h
    exact ⟨t, k, by rw [nodeAt, ht, Option.bind_some, hk], hstage, hmarkov⟩

theorem nodeAt_of_node {g : PolicyGraph K} {t k : ℕ} {n : Node K} (h : g.node t k = .ok n) :
    g.nodeAt t k = some n := by
  obtain ⟨i, j, hplace, hi, hj⟩ := exists_of_node h
  rwa [hi t rfl, hj k rfl] at hplace

theorem mem_allNodes {g : PolicyGraph K} {n : Node K} :
    n ∈ g.allNodes ↔ ∃ t k, g.nodeAt t k = some n := by
  simp only [nodeAt, allNodes, List.mem_flatten, Option.bind_eq_some_iff]
  simp only [List.mem_iff_getElem?]
  exact ⟨fun ⟨row, ⟨t, ht⟩, k, hk⟩ => ⟨t, k, row, ht, hk⟩,
    fun ⟨t, k, row, ht, hk⟩ => ⟨row, ⟨t, ht⟩, k, hk⟩⟩

theorem nodeAt_putNode (g : PolicyGraph K) (n : Node K) (t k : ℕ) :
    (g.putNode n).nodeAt t k =
      if t = n.stage ∧ k = n.markov then (g.nodeAt t k).map fun _ => n else g.nodeAt t k := by
  simp only [nodeAt, putNode, List.getElem?_modify]
  by_cases ht : n.stage = t
  · cases g.nodes[t]? with
    | none => simp
    | some row =>
      by_cases hk : n.markov = k
      · subst hk
        simp only [ht, List.getElem?_set, if_true, and_self, Option.map_eq_map, Option.map_some,
          Option.bind_some]
        split_ifs with hk
        · simp [hk]
        · simp [Nat.le_of_not_lt hk]
      · simp [ht, List.getElem?_set_ne hk, Ne.symm hk]
  · simp [ht, Ne.symm ht]

theorem frame_putNode (g : PolicyGraph K) (n : Node K) : (g.putNode n).frame = g.frame := by
  simp only [frame, putNode, Prod.mk.injEq, true_and]
  refine List.ext_getElem? fun t => ?_
  simp only [List.getElem?_map, List.getElem?_modify]
  by_cases h : n.stage = t <;> cases g.nodes[t]? <;> simp [h]

/-! ## Properties of all nodes -/

/-- The graph has a frame, and a property holds of its nodes. -/
structure Holds (F : PolicyGraph K × List ℕ) (J : ℕ → ℕ → Node K → Prop) (g : PolicyGraph K) :
    Prop where
  frame : g.frame = F
  nodes : ∀ t k n, g.nodeAt t k = some n → J t k n

/-- The nodes with a property stand where they belong. -/
def IsPlaced (J : ℕ → ℕ → Node K → Prop) : Prop := ∀ t k n, J t k n → n.stage = t ∧ n.markov = k

variable {F : PolicyGraph K × List ℕ} {J : ℕ → ℕ → Node K → Prop} {g : PolicyGraph K}

theorem Holds.putNode (h : Holds F J g) {n : Node K} (hn : J n.stage n.markov n) :
    Holds F J (g.putNode n) where
  frame := (frame_putNode g n).trans h.frame
  nodes t k m hm := by
    rw [nodeAt_putNode] at hm
    split_ifs at hm with hplace
    · obtain ⟨-, -, rfl⟩ := Option.map_eq_some_iff.1 hm
      obtain ⟨rfl, rfl⟩ := hplace
      exact hn
    · exact h.nodes t k m hm

theorem Holds.putNode_of_placed (h : Holds F J g) (hJ : IsPlaced J) {t k : ℕ} {n : Node K}
    (hn : J t k n) : Holds F J (g.putNode n) := by
  obtain ⟨rfl, rfl⟩ := hJ t k n hn
  exact h.putNode hn

/-- A step on a node, of which the property is known at its place. -/
theorem ensures_atNode {step : Run K (Node K) A} {Q : A → Prop} {stage markov : ℤ}
    (hJ : IsPlaced J) (h : ∀ t k : ℕ, (∀ i : ℕ, stage = i → t = i) →
      (∀ i : ℕ, markov = i → k = i) → Ensures (fun w => J t k w.part) step
        (fun a w => Q a ∧ J t k w.part) fun w => J t k w.part) :
    Ensures (fun w => Holds F J w.part) (atNode stage markov step)
      (fun a w => Q a ∧ Holds F J w.part) fun w => Holds F J w.part := by
  refine Run.ensures_part_bind fun w hw => ?_
  cases hn : w.part.node stage markov with
  | error e => exact ensures_throw fun _ hv => hv ▸ hw
  | ok n =>
    obtain ⟨t, k, hplace, ht, hk⟩ := exists_of_node hn
    change Ensures _ (Run.within (fun _ => n) (fun n g => PolicyGraph.putNode g n) step) _ _
    refine Ensures.within ?_
    rintro v rfl
    exact (h t k ht hk).weaken (fun u hu => hu ▸ hw.nodes t k n hplace)
      (fun _ _ hu => ⟨hu.1, hw.putNode_of_placed hJ hu.2⟩)
      fun _ hu => hw.putNode_of_placed hJ hu

theorem keeps_atNode {step : Run K (Node K) A} (stage markov : ℤ) (hJ : IsPlaced J)
    (h : ∀ t k, Keeps (fun w => J t k w.part) step) :
    Keeps (fun w => Holds F J w.part) (atNode stage markov step) :=
  (ensures_atNode (Q := fun _ => True) hJ fun t k _ _ => (h t k).weaken (fun _ => id)
    (fun _ _ hw => ⟨trivial, hw⟩) fun _ => id).weaken (fun _ => id) (fun _ _ hw => hw.2) fun _ => id

/-- What a step on a node comes to. -/
theorem atNode_eq_ok {t k : ℕ} {step : Run K (Node K) A} {w v : Watched (PolicyGraph K)} {a : A}
    (h : atNode t k step w = .ok a v) : ∃ n u, w.part.nodeAt t k = some n ∧
      step ⟨w.monitor, n⟩ = .ok a u ∧ v = ⟨u.monitor, w.part.putNode u.part⟩ := by
  rw [atNode, Run.part_bind_apply] at h
  obtain ⟨n, v', hrun, hwithin⟩ := bind_eq_ok.1 h
  obtain ⟨hnode, rfl⟩ := ofExcept_eq_ok.1 hrun
  obtain ⟨u, hu, hv⟩ := Run.within_eq_ok.1 hwithin
  exact ⟨n, u, nodeAt_of_node hnode, hu, hv⟩

/-! ## Solving and simulating -/

section Numerals

variable [Numeral K] {engine : Engine K}

/-- A property of nodes that stays while they are set up and solved. -/
structure Steady (engine : Engine K) (J : ℕ → ℕ → Node K → Prop) : Prop where
  placed : IsPlaced J
  keeps_setIncoming : ∀ t k state,
    Keeps (fun w => J t k w.part) (Node.onModel (Subproblem.setIncoming state))
  keeps_solveAll : ∀ t k state price weight,
    Keeps (fun w => J t k w.part) (Node.solveAll engine state price weight)
  keeps_decide : ∀ t k price realization,
    Keeps (fun w => J t k w.part) (Simulated.decide engine price realization)

section Keeps

variable (hJ : Steady engine J)
include hJ

theorem keeps_solveStage (stage : ℕ) (nodes : List (ℕ × K)) (state : Option (List K))
    (price : Option K) :
    Keeps (fun w => Holds F J w.part) (solveStage engine stage nodes state price) :=
  (Keeps.mapM fun _ _ => keeps_atNode _ _ hJ.placed fun t k =>
    hJ.keeps_solveAll t k _ _ _).bind fun _ => keeps_pure _

theorem keeps_aggregateStage (stage : ℕ) (nodes : List (ℕ × K)) (state : Option (List K))
    (price : Option K) :
    Keeps (fun w => Holds F J w.part) (aggregateStage engine stage nodes state price) :=
  (keeps_solveStage hJ stage nodes state price).bind fun _ =>
    Run.keeps_part_bind fun _ _ => keeps_ofExcept _

theorem keeps_computeBound : Keeps (fun w => Holds F J w.part) (computeBound engine) :=
  Run.keeps_part_bind fun _ _ => (keeps_aggregateStage hJ _ _ _ _).bind fun _ => keeps_pure _

theorem keeps_generateCut (n : Node K) (state : List K) (rib : Option K) (iteration : Option ℤ) :
    Keeps (fun w => Holds F J w.part) (generateCut engine n state rib iteration) := by
  refine Run.keeps_part_bind fun _ _ => (keeps_aggregateStage hJ _ _ _ _).bind fun r => ?_
  obtain ⟨value, gradient⟩ := r
  dsimp only
  split_ifs
  · exact (keeps_throw _).bind fun _ => keeps_pure _
  · exact keeps_pure _

end Keeps

end Numerals

end PolicyGraph

namespace Simulated

open PolicyGraph

variable [Numeral K] {engine : Engine K} {F : PolicyGraph K × List ℕ}
  {J : ℕ → ℕ → Node K → Prop}

omit [Numeral K] in
theorem keeps_draw (step : Draw K A) : Keeps (fun w => Holds F J w.part.graph) (draw step) :=
  Run.keeps_ofStep fun _ _ => Step.keeps_within (by exact fun _ _ hs => hs) step

variable (hJ : Steady engine J)
include hJ

omit [Numeral K] hJ in
theorem keeps_onNode (hJ : IsPlaced J) (stage markov : ℕ) {step : Run K (Node K) A}
    (h : ∀ t k, Keeps (fun w => J t k w.part) step) :
    Keeps (fun w => Holds F J w.part.graph) (atNode stage markov step) :=
  Run.keeps_within fun _ hw => ⟨fun v => Holds F J v.part, hw, keeps_atNode _ _ hJ h,
    fun _ hv => hv⟩

section Visits

variable {R : Visit K → Prop}
  (hR : ∀ t k n query v, J t k n → report n query = .ok v → R v)
include hR

/-- What is true of reports on nodes is true of all visits. -/
theorem ensures_visit (query : List String) (stage : ℕ) (previous : Option (ℕ × List K))
    (price : Option K) : Ensures (fun w => Holds F J w.part.graph)
      (visit engine query stage previous price) (fun v w => R v ∧ Holds F J w.part.graph)
      fun w => Holds F J w.part.graph := by
  refine Run.ensures_part_bind fun w hw => ?_
  refine Ensures.weaken (P := fun w => Holds F J w.part.graph) ?_ (fun v hv => hv ▸ hw)
    (fun _ _ => id) fun _ => id
  refine Ensures.bind (keeps_draw _) fun k => Run.ensures_part_bind fun w hw => ?_
  refine Ensures.weaken (P := fun w => Holds F J w.part.graph) ?_ (fun v hv => hv ▸ hw)
    (fun _ _ => id) fun _ => id
  refine Ensures.bind (keeps_ofExcept _) fun n => ?_
  refine Ensures.bind (keeps_onNode hJ.placed _ _ fun t k => hJ.keeps_setIncoming t k _) fun _ => ?_
  refine Ensures.bind (keeps_draw _) fun x => Ensures.bind (keeps_draw _) fun realization => ?_
  refine Ensures.bind (keeps_onNode hJ.placed _ _ fun t k => hJ.keeps_decide t k _ _) fun _ => ?_
  refine Run.ensures_part_bind fun w hw => ?_
  have hstart : ∀ v, v = w → Holds F J v.part.graph := fun v hv => hv ▸ hw
  refine Ensures.bind (Q := fun n v => (∃ t k, J t k n) ∧ v = w)
    (ensures_ofExcept (fun n hn v hv => ⟨?_, hv⟩) hstart) fun n => ?_
  · obtain ⟨t, k, hplace, -⟩ := exists_of_node hn
    exact ⟨t, k, hw.nodes t k n hplace⟩
  · refine ensures_ofExcept (fun v hv u hu => ?_) fun u hu => hstart u hu.2
    obtain ⟨⟨t, k, hn⟩, hu⟩ := hu
    exact ⟨hR t k n query v hn hv, hstart u hu⟩

theorem ensures_visits (query : List String) (stages count : ℕ) (previous : Option (ℕ × List K))
    (price : Option K) : Ensures (fun w => Holds F J w.part.graph)
      (visits engine query stages count previous price)
      (fun p w => (∀ v ∈ p, R v) ∧ Holds F J w.part.graph) fun w => Holds F J w.part.graph := by
  induction count generalizing previous price with
  | zero => exact ensures_pure fun w hw => ⟨by simp, hw⟩
  | succ count ih =>
    refine (ensures_visit hJ hR _ _ _ _).bind fun v w hw => ?_
    refine ((ih (some (v.markov, v.state)) v.price).bind (R := fun (p : Pass K) w => (∀ v ∈ p, R v) ∧
      Holds F J w.part.graph) fun rest => ensures_pure fun u hu => ⟨?_, hu.2⟩) w hw.2
    exact List.forall_mem_cons.2 ⟨hw.1, hu.1⟩

theorem ensures_forward (query : List String) : Ensures (fun w => Holds F J w.part.graph)
    (forward engine query) (fun p w => (∀ v ∈ p, R v) ∧ Holds F J w.part.graph)
    fun w => Holds F J w.part.graph :=
  Run.ensures_part_bind fun _ hw => (ensures_visits hJ hR _ _ _ _ _).weaken
    (fun _ hv => hv ▸ hw) (fun _ _ => id) fun _ => id

end Visits

theorem keeps_forward (query : List String) :
    Keeps (fun w => Holds F J w.part.graph) (forward engine query) :=
  (ensures_forward hJ (R := fun _ => True) (fun _ _ _ _ _ _ _ => trivial) query).weaken
    (fun _ => id) (fun _ _ hw => hw.2) fun _ => id

theorem keeps_passes (query : List String) (count : ℕ) :
    Keeps (fun w => Holds F J w.part.graph) (passes engine query count) := by
  induction count with
  | zero => exact keeps_pure _
  | succ count ih => exact (keeps_forward hJ query).bind fun _ => ih.bind fun _ => keeps_pure _

omit [Numeral K] hJ in
theorem keeps_onGraph (stream : MersenneTwister) {step : Run K (Simulated K) A}
    (h : Keeps (fun w => Holds F J w.part.graph) step) :
    Keeps (fun w => Holds F J w.part) (onGraph stream step) :=
  Run.keeps_within fun _ hw => ⟨fun v => Holds F J v.part.graph, hw, h, fun _ hv => hv⟩

end Simulated

/-- What the passes of an evaluation keep, the evaluation keeps. -/
theorem Evaluation.keeps_run_of_passes [Numeral K] {engine : Engine K} {plan : EvaluationPlan K}
    {I : Watched (PolicyGraph K) → Prop} (h : ∀ stream, Keeps I (Simulated.onGraph stream
      (Simulated.passes engine plan.query plan.simulations.toNat))) : Keeps I (run engine plan) := by
  refine Keeps.ite ((keeps_throw _).bind fun _ => ?_) ?_
  all_goals
    refine (keeps_ofExcept _).bind fun stream => (h stream).bind fun passes => ?_
    refine Run.keeps_part_bind fun _ _ => Keeps.ite ((keeps_pure _).bind fun _ => ?_)
      (((keeps_ofExcept _).map _).bind fun _ => ?_)
    all_goals exact (keeps_ofExcept _).bind fun _ => keeps_pure _

theorem Evaluation.keeps_run [Numeral K] {engine : Engine K} {F : PolicyGraph K × List ℕ}
    {J : ℕ → ℕ → Node K → Prop} (hJ : PolicyGraph.Steady engine J) (plan : EvaluationPlan K) :
    Keeps (fun w => PolicyGraph.Holds F J w.part) (run engine plan) :=
  keeps_run_of_passes fun _ => Simulated.keeps_onGraph _ (Simulated.keeps_passes hJ _ _)

/-- What an evaluation comes to: passes that draw from the stream of its seed, and a gap. -/
theorem Evaluation.run_eq_ok [Numeral K] {engine : Engine K} {plan : EvaluationPlan K}
    {w v : Watched (PolicyGraph K)} {e : Evaluation K} (h : run engine plan w = .ok e v) :
    ∃ stream interval, Evaluation.stream plan.seed = .ok stream ∧
      Simulated.onGraph stream (Simulated.passes engine plan.query plan.simulations.toNat) w =
        .ok e.passes v ∧
      relativeGap v.part.sense v.part.measure v.part.bound interval
        (some (e.passes.map Pass.value)) = .ok e.gap := by
  unfold run at h
  by_cases hnone : plan.simulations < 1
  · rw [if_pos hnone] at h
    obtain ⟨⟨⟩, u, hthrow, -⟩ := bind_eq_ok.1 h
    cases hthrow
  rw [if_neg hnone] at h
  obtain ⟨stream, u, hstream, h⟩ := bind_eq_ok.1 h
  obtain ⟨hseed, rfl⟩ := ofExcept_eq_ok.1 hstream
  obtain ⟨passes, v₁, hpasses, h⟩ := bind_eq_ok.1 h
  rw [Run.part_bind_apply] at h
  obtain ⟨interval, v₂, hinterval, h⟩ : ∃ interval v₂, v₂ = v₁ ∧
      (Step.ofExcept (relativeGap v₁.part.sense v₁.part.measure v₁.part.bound interval
        (some (passes.map Pass.value))) >>= fun gap =>
          (pure ⟨v₁.part.bound, passes, interval, gap⟩ : Run K (PolicyGraph K) (Evaluation K))) v₂ =
            .ok e v := by
    dsimp only at h
    split_ifs at h
    · exact ⟨none, v₁, rfl, h⟩
    · obtain ⟨interval, v₂, hmap, h⟩ := bind_eq_ok.1 h
      obtain ⟨x, hx, rfl⟩ := map_eq_ok.1 hmap
      exact ⟨some x, v₂, (ofExcept_eq_ok.1 hx).2.symm, h⟩
  obtain ⟨gap, v₃, hratio, h⟩ := bind_eq_ok.1 h
  obtain ⟨hgap, hend⟩ := ofExcept_eq_ok.1 hratio
  cases h
  subst hinterval hend
  exact ⟨stream, interval, hseed, hpasses, hgap⟩

/-! ## What settings and solves do not disturb -/

namespace PolicyGraph

variable [Numeral K] {engine : Engine K} {J : ℕ → ℕ → Node K → Prop}

/-- A property of nodes that settings and solves do not disturb: it does not look at the cells that
they write to, in well-formed subproblems whose retries stay out of it. -/
structure Undisturbed (engine : Engine K) (J : ℕ → ℕ → Node K → Prop) : Prop where
  placed : IsPlaced J
  base : ∀ t k n, J t k n → ∃ n₀ : Node K, ∃ rows, n₀.model.WellFormed rows ∧
    engine.Spares n₀.model.retry ∧ IsBlind n₀.cells (J t k) ∧
    ∀ n', J t k n' → Programmed.outline n' = Programmed.outline n₀

theorem Undisturbed.steady (hJ : Undisturbed engine J) : Steady engine J where
  placed := hJ.placed
  keeps_setIncoming t k state := by
    intro w hw
    obtain ⟨n, rows, hwell, -, hblind, houtline⟩ := hJ.base t k _ hw
    exact Node.keeps_setIncoming hwell houtline (hblind.mono Set.subset_union_left) state w hw
  keeps_solveAll t k state price weight := by
    intro w hw
    obtain ⟨n, rows, hwell, hspares, hblind, houtline⟩ := hJ.base t k _ hw
    exact Node.keeps_solveAll hwell hspares houtline hblind state price weight w hw
  keeps_decide t k price realization := by
    intro w hw
    obtain ⟨n, rows, hwell, hspares, hblind, houtline⟩ := hJ.base t k _ hw
    exact Node.keeps_decide hwell hspares houtline hblind price realization w hw

/-- What settings and solves do not disturb, together with something that does not look at the cells
that settings write to. -/
theorem Undisturbed.and {J' : ℕ → ℕ → Node K → Prop} (hJ : Undisturbed engine J)
    (h : ∀ {t k n n'}, J t k n → J' t k n → Touches n.cells n n' → J' t k n') :
    Undisturbed engine fun t k n => J t k n ∧ J' t k n where
  placed t k n hn := hJ.placed t k n hn.1
  base t k n hn := by
    obtain ⟨n₀, rows, hwell, hspares, hblind, houtline⟩ := hJ.base t k n hn.1
    refine ⟨n₀, rows, hwell, hspares, fun m m' htouches hm =>
      ⟨hblind m m' htouches hm.1, h hm.1 hm.2 ?_⟩, fun n' hn' => houtline n' hn'.1⟩
    rwa [Node.cells_congr (houtline m hm.1)]

/-- A property of nodes, with well-formed subproblems, that looks at nothing that settings, solves and
retries write to. -/
structure Unreached (J : ℕ → ℕ → Node K → Prop) : Prop where
  placed : IsPlaced J
  wellFormed : ∀ {t k n}, J t k n → ∃ rows, n.model.WellFormed rows
  touches : ∀ {t k n n'}, J t k n → Touches (n.cells ∪ n.model.retryCells) n n' → J t k n'

theorem Unreached.isBlind (hJ : Unreached J) (t k : ℕ) (n : Node K) :
    IsBlind (n.cells ∪ n.model.retryCells) fun m => m.outline = n.outline ∧ J t k m := by
  rintro m m' htouches ⟨houtline, hm⟩
  refine ⟨(Programmed.outline_eq htouches.rest).trans houtline, hJ.touches hm ?_⟩
  rwa [Node.cells_congr houtline, Node.retryCells_congr houtline]

/-- So it stays whatever engine solves, and whatever a retry does. -/
theorem Unreached.steady (hJ : Unreached J) : Steady engine J := by
  have hkeeps : ∀ {A : Type} {t k : ℕ} {x : Run K (Node K) A}, (∀ (n : Node K) rows,
      n.model.WellFormed rows → ∀ I : Node K → Prop, IsBlind (n.cells ∪ n.model.retryCells) I →
        (∀ m, I m → m.outline = n.outline) → Keeps (fun w => I w.part) x) →
          Keeps (fun w => J t k w.part) x := by
    intro A t k x hx w hw
    obtain ⟨rows, hwell⟩ := hJ.wellFormed hw
    exact ((hx w.part rows hwell _ (hJ.isBlind t k w.part) fun _ h => h.1).weaken (fun _ => id)
      (fun _ _ h => h.2) fun _ h => h.2) w ⟨rfl, hw⟩
  have hsolve : ∀ {n : Node K} {rows : ℕ}, n.model.WellFormed rows → ∀ {I : Node K → Prop},
      IsBlind (n.cells ∪ n.model.retryCells) I → (∀ m, I m → m.outline = n.outline) →
        ∀ stage markov, Keeps (fun w => I w.part)
          (Node.onModel (Subproblem.solve engine stage markov)) :=
    fun hwell _ hI hn stage markov => Node.keeps_onModel (fun _ hJ hm =>
      Subproblem.keeps_solve_of_isBlind hwell hJ hm stage markov) (hI.mono Set.subset_union_right) hn
  constructor
  · exact hJ.placed
  · exact fun t k state => hkeeps fun n rows hwell I hI hn => Node.keeps_setIncoming hwell hn
      (hI.mono (Set.subset_union_left.trans Set.subset_union_left)) state
  · exact fun t k state price weight => hkeeps fun n rows hwell I hI hn =>
      Node.keeps_solveAll_of_solve hwell hn (hsolve hwell hI hn) (hI.mono Set.subset_union_left)
        state price weight
  · exact fun t k price realization => hkeeps fun n rows hwell I hI hn =>
      Node.keeps_decide_of_solve hwell hn (hsolve hwell hI hn) (hI.mono Set.subset_union_left)
        price realization

end PolicyGraph

end DualDynamic
