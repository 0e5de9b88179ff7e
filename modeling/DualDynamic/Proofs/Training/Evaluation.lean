import DualDynamic.Proofs.Training.Exchange
import DualDynamic.Proofs.Training.Twins

/-!
# Training with evaluations

A training that evaluates its policy goes on as it would without. The trainers of the two remain twins,
iteration by iteration, unless one of the trainings ends because a gap is small enough. In the end they have
the same history and the same cuts (`train_ignores_evaluation`).

What an evaluation does leave behind are the numbers that the nodes were set up with last. They may be
others in the end (`train_leaves_settings`), but nobody reads them before they are overwritten.
-/

namespace DualDynamic

open Step

variable {K A : Type} [Numeral K]

/-- Gaps make no difference to the rules, unless one of them ends a training. -/
theorem Limits.check_gap (l : Limits K) (p : Progress K) (gap : Option K) :
    (∃ x, l.check p = some (.gap x)) ∨ (∃ x, l.check { p with gap } = some (.gap x)) ∨
      l.check { p with gap } = l.check p := by
  simp only [check]
  split_ifs <;> simp

namespace Trainer

variable {F : PolicyGraph K × List ℕ} {engine : Engine K} {plan : TrainingPlan K} {t t' : Trainer K}

/-- Trainers of twin graphs that differ in nothing else but the last gap. -/
structure AreTwins (F : PolicyGraph K × List ℕ) (t t' : Trainer K) : Prop where
  graph : PolicyGraph.AreTwins F t.graph t'.graph
  rest : t' = { t with graph := t'.graph, gap := t'.gap }

/-- Whether the last training has ended because of a small gap. -/
def endedByGap (t : Trainer K) : Bool :=
  match t.stopReason with
  | some (.gap _) => true
  | _ => false

/-- Whether the last training has ended because of an interruption. -/
def wasInterrupted (t : Trainer K) : Bool :=
  match t.stopReason with
  | some .interrupted => true
  | _ => false

theorem AreTwins.iteration_eq (h : AreTwins F t t') : t'.iteration = t.iteration := by
  rw [h.rest]

/-- The same change of the history of both. -/
theorem AreTwins.map (h : AreTwins F t t') {f : Trainer K → Trainer K}
    (hgraph : ∀ t, (f t).graph = t.graph)
    (hf : ∀ t graph gap, f { t with graph, gap } = { f t with graph, gap }) :
    AreTwins F (f t) (f t') where
  graph := by
    rw [hgraph, hgraph]
    exact h.graph
  rest := by
    rw [h.rest, hf]

theorem respects_change {f : Trainer K → Trainer K} (hgraph : ∀ t, (f t).graph = t.graph)
    (hf : ∀ t graph gap, f { t with graph, gap } = { f t with graph, gap }) :
    Run.Respects (AreTwins F) (Run.change f : Run K (Trainer K) Unit) :=
  Run.respects_change fun _ _ h => h.map hgraph hf

/-- The same iteration more for both. -/
theorem AreTwins.addIteration (h : AreTwins F t t') (bound value time : K) :
    AreTwins F (addIteration bound value time t) (addIteration bound value time t') where
  graph := ⟨h.graph.left, h.graph.right, h.graph.nodes⟩
  rest := by
    rw [h.rest]
    rfl

theorem respects_onGraph {x : Run K (PolicyGraph K) A}
    (hx : Run.Respects (PolicyGraph.AreTwins F) x) : Run.Respects (AreTwins F) (onGraph x) :=
  Run.respects_within hx (fun _ _ h => h.graph) fun _ _ _ _ h hg => ⟨hg, by rw [h.rest]⟩

theorem respects_onRecorded {x : Run K (Recorded K) A} (hx : Run.Respects (Recorded.AreTwins F) x) :
    Run.Respects (AreTwins F) (onRecorded x) :=
  Run.respects_within hx (fun _ _ h => ⟨h.graph, by rw [h.rest]⟩)
    fun _ _ _ _ h hr => ⟨hr.graph, by rw [h.rest, hr.log]⟩

/-! ## Iterations -/

section Iterations

variable (hspares : engine.Spares F.1.retry)

section Functional

variable (hfunctional : engine.IsFunctional)
include hspares hfunctional

theorem respects_backward (path : List ℤ) (states : List (List K)) (iteration : ℤ) :
    Run.Respects (AreTwins F) (backward engine path states iteration) :=
  (respects_onRecorded (Recorded.respects_backward hspares hfunctional path states iteration)).bind
    fun _ => (respects_change (by exact fun _ => rfl) (by exact fun _ _ _ => rfl)).bind fun _ =>
      respects_pure _

/-- The passes of an iteration have the same value and come to the same cuts. -/
theorem respects_passes (stream : MersenneTwister) (iteration : ℤ) :
    Run.Respects (AreTwins F) (passes engine stream iteration) :=
  (respects_onGraph (Simulated.respects_forward hspares hfunctional stream)).bind fun _ =>
    (respects_backward hspares hfunctional _ _ iteration).bind fun _ => respects_pure _

end Functional

include hspares in
/-- An evaluation of the policy beside a training that is without them. -/
theorem couples_evaluateIfDue : Couples (fun w w' => AreTwins F w.part w'.part)
    (evaluateIfDue engine plan) (evaluateIfDue engine { plan with evaluationEvery := none })
    fun _ _ w w' => AreTwins F w.part w'.part := by
  have hnever : evaluateIfDue engine { plan with evaluationEvery := none } = pure () := rfl
  rw [hnever]
  refine Keeps.couples_pure fun w' => Run.keeps_part_bind fun _ _ => (keeps_ofExcept _).bind fun _ =>
    Keeps.ite (Keeps.bind ?_ fun e => ?_) (keeps_pure _)
  · exact Run.keeps_within fun w hw => ⟨fun v => PolicyGraph.AreTwins F v.part w'.part.graph, hw.graph,
      Evaluation.keeps_areTwins hspares _ hw.graph.right, fun v hv => ⟨hv, hw.rest⟩⟩
  · exact Run.keeps_change fun w hw => ⟨hw.graph, hw.rest⟩

theorem respects_cleanIfDue (every : Option ℤ) (iteration : ℕ) :
    Run.Respects (AreTwins F) (cleanIfDue every iteration : Run K (Trainer K) Unit) :=
  (respects_ofExcept _).bind fun _ => Respects.ite
    (respects_onGraph (Run.respects_ofStep PolicyGraph.respects_clean)) (respects_pure _)

variable (hfunctional : engine.IsFunctional)
include hspares hfunctional

/-- Both trainings go on as twins, or both are over, or a gap ends one of them. -/
theorem couples_finishIteration (value : K) : Couples (fun w w' => AreTwins F w.part w'.part)
    (finishIteration engine plan value)
    (finishIteration engine { plan with evaluationEvery := none } value)
    fun isOver isOver' w w' => (isOver = true ∧ w.part.endedByGap = true) ∨
      (isOver' = true ∧ w'.part.endedByGap = true) ∨ isOver = isOver' ∧ AreTwins F w.part w'.part := by
  refine (respects_onGraph (PolicyGraph.respects_computeBound hspares hfunctional)).couples_bind
    fun bound => ?_
  refine Run.couples_part_bind_of fun w w' hw => ?_
  rw [hw.iteration_eq]
  have hhistory : ∀ time, Run.Respects (AreTwins F)
      (Run.change (addIteration bound value time) : Run K (Trainer K) Unit) := fun time =>
    Run.respects_change fun _ _ h => h.addIteration bound value time
  refine (hhistory _).couples_bind fun _ => (couples_evaluateIfDue hspares).bind fun _ _ =>
    Run.couples_part_bind_of fun w w' hw => ?_
  have hprogress : w'.part.progress = { w.part.progress with gap := w'.part.gap } := by
    rw [hw.rest]
    rfl
  dsimp only
  rw [hprogress]
  -- Without an evaluation a gap counts as infinite, which ends a training if the tolerance is infinite.
  rcases plan.limits.check_gap w.part.progress w'.part.gap with ⟨x, hx⟩ | ⟨x, hx⟩ | hsame
  · rw [hx]
    intro v v' _ a u hu a' u' _
    cases hu
    exact Or.inl ⟨rfl, rfl⟩
  · rw [hx]
    intro v v' _ a u _ a' u' hu'
    cases hu'
    exact Or.inr (Or.inl ⟨rfl, rfl⟩)
  · rw [hsame]
    cases plan.limits.check w.part.progress with
    | none => exact couples_pure fun _ _ hv => Or.inr (Or.inr ⟨rfl, hv⟩)
    | some reason =>
      exact (respects_change (by exact fun _ => rfl) (by exact fun _ _ _ => rfl)).couples_bind
        fun _ => couples_pure fun _ _ hv => Or.inr (Or.inr ⟨rfl, hv⟩)

/-- The trainers remain twins for as long as no gap ends one of the trainings. -/
theorem couples_iterations (count : ℕ) : Couples (fun w w' => AreTwins F w.part w'.part)
    (iterations engine plan count)
    (iterations engine { plan with evaluationEvery := none } count)
    fun _ _ w w' => w.part.endedByGap = true ∨ w'.part.endedByGap = true ∨ AreTwins F w.part w'.part := by
  induction count with
  | zero => exact couples_pure fun _ _ hw => Or.inr (Or.inr hw)
  | succ count ih =>
    refine Run.couples_part_bind_of fun w w' hw => ?_
    rw [hw.iteration_eq]
    refine (respects_passes hspares hfunctional _ _).couples_bind fun pass => ?_
    refine (couples_finishIteration hspares hfunctional pass.1).bind fun isOver isOver' => ?_
    rintro v v' (⟨rfl, hgap⟩ | ⟨rfl, hgap⟩ | ⟨rfl, hv⟩)
    · intro a u hu a' u' _
      cases hu
      exact Or.inl hgap
    · intro a u _ a' u' hu'
      cases hu'
      exact Or.inr (Or.inl hgap)
    · refine (?_ : Couples (fun w w' => AreTwins F w.part w'.part) _ _ _) v v' hv
      cases isOver with
      | true => exact couples_pure fun _ _ hw => Or.inr (Or.inr hw)
      | false =>
        refine Run.couples_part_bind_of fun w w' hw => ?_
        rw [hw.iteration_eq]
        exact (respects_cleanIfDue _ _).couples_bind fun _ => ih

end Iterations

/-! ## Trainings -/

omit [Numeral K] in
/-- A training that comes to its end ends with the trainer that its step has come to. -/
theorem training_eq_ok {step : Run K (Trainer K) Unit} {w v : Watched (Trainer K)}
    (h : training plan step w = .ok () v) (hend : v.part.wasInterrupted = false) : ∃ u,
      step { w with part := opened plan.writes w.part } = .ok () u ∧ v = { u with part := closed u.part } := by
  change Run.andThen (Run.untilInterrupted step _) closed { w with part := opened plan.writes w.part } =
    .ok () v at h
  unfold Run.andThen Run.untilInterrupted at h
  cases hrun : step { w with part := opened plan.writes w.part } with
  | ok a u =>
    rw [hrun] at h
    cases h
    exact ⟨u, rfl, rfl⟩
  | error e u =>
    rw [hrun] at h
    cases e with
    | interrupted =>
      cases h
      cases hend
    | _ => cases h

theorem train_eq_ok {w v : Watched (Trainer K)} (h : train engine plan w = .ok () v)
    (hend : v.part.wasInterrupted = false) : ∃ u,
      iterations engine plan (mostIterations plan w.part)
        { w with part := opened plan.writes w.part } = .ok () u ∧
      v = { u with part := closed u.part } :=
  training_eq_ok h hend

/-- Trainings of one trainer end with twins, unless a gap or an interruption ends one of them. -/
theorem areTwins_train (hgraph : t.graph.IsSound) (hspares : engine.Spares t.graph.retry)
    (hfunctional : engine.IsFunctional) {u u' : Monitor} {w w' : Watched (Trainer K)}
    (h : train engine plan ⟨u, t⟩ = .ok () w)
    (h' : train engine { plan with evaluationEvery := none } ⟨u', t⟩ = .ok () w')
    (hends : ∀ v ∈ [w, w'], v.part.wasInterrupted = false ∧ v.part.endedByGap = false) :
    AreTwins t.graph.frame w.part w'.part := by
  obtain ⟨hinterrupt, hgap⟩ := hends w (by simp)
  obtain ⟨hinterrupt', hgap'⟩ := hends w' (by simp)
  obtain ⟨v, hv, rfl⟩ := train_eq_ok h hinterrupt
  obtain ⟨v', hv', rfl⟩ := train_eq_ok h' hinterrupt'
  have hspares : engine.Spares t.graph.frame.1.retry := hspares
  have hopened : AreTwins t.graph.frame (opened plan.writes t) (opened plan.writes t) :=
    ⟨.refl hgraph, rfl⟩
  rcases couples_iterations hspares hfunctional _ ⟨u, _⟩ ⟨u', _⟩ hopened _ _ hv _ _ hv' with
    hended | hended | hv
  · exact absurd (hgap.symm.trans hended) Bool.false_ne_true
  · exact absurd (hgap'.symm.trans hended) Bool.false_ne_true
  · exact hv.map (f := closed) (fun _ => rfl) fun _ _ _ => rfl

/-- Evaluations do not disturb a training. A trainer is trained with evaluations of any kind and without
them; both trainings come to an end, neither because of an interruption or a small gap. Then both have the
same bounds, values and records, have written the same cuts and end for the same reason. Their graphs
differ in nothing but nodes, and every node has the same cuts in the same order; its programs have the same
variables and constraints with the same numbers, but for those that setting a node up overwrites. -/
theorem train_ignores_evaluation (hgraph : t.graph.IsSound) (hspares : engine.Spares t.graph.retry)
    (hfunctional : engine.IsFunctional) {u u' : Monitor} {w w' : Watched (Trainer K)}
    (h : train engine plan ⟨u, t⟩ = .ok () w)
    (h' : train engine { plan with evaluationEvery := none } ⟨u', t⟩ = .ok () w')
    (hends : ∀ v ∈ [w, w'], v.part.wasInterrupted = false ∧ v.part.endedByGap = false) :
    (w'.part.bounds = w.part.bounds ∧ w'.part.values = w.part.values ∧
      w'.part.known = w.part.known ∧ w'.part.log = w.part.log ∧
      w'.part.iteration = w.part.iteration ∧ w'.part.stopReason = w.part.stopReason) ∧
    w'.part.graph.frame = w.part.graph.frame ∧
    ∀ s k n, w.part.graph.nodeAt s k = some n → ∃ n', w'.part.graph.nodeAt s k = some n' ∧
      n'.costToGo = n.costToGo ∧
      n'.model.program.constraints.size = n.model.program.constraints.size ∧
      LinearProgram.Extends n.cells n.model.program n'.model.program := by
  have htwins := areTwins_train hgraph hspares hfunctional h h' hends
  refine ⟨?_, htwins.graph.right.trans htwins.graph.left.symm, fun s k n hn => ?_⟩
  · rw [htwins.rest]
    exact ⟨rfl, rfl, rfl, rfl, rfl, rfl⟩
  · obtain ⟨n', hn', htwin⟩ := htwins.graph.nodes s k n hn
    obtain ⟨m, price, -, rfl⟩ := Node.exists_of_rest htwin.twins.rest
    exact ⟨_, hn', rfl, htwin.twins.rows, htwin.twins.program⟩

end Trainer

/-! ## A supply problem in coins -/

/-- Whole numbers for computations. Quotients are zero, like those of small numbers by large ones, so
that no random word is ever looked at; only division by one is exact. -/
def Coin : Type := ℤ

instance (n : ℕ) : OfNat Coin n := inferInstanceAs (OfNat ℤ n)

instance : Numeral Coin :=
  { (inferInstanceAs (Numeral ℤ) : Numeral ℤ) with
    div := fun x y : ℤ => if y = 1 then x else (0 : ℤ) }

namespace Larder

/-- The kinds and the right-hand sides of the constraints. -/
def demands (p : LinearProgram Coin) : List (Relation × Coin) :=
  p.constraints.toList.map fun c => (c.relation, c.rhs)

/-- An engine for the programs of the larder. Stock is bought if there is a cut that asks for it. -/
def planner : Engine Coin where
  solve _ _ p := match demands p with
    | [(.atLeast, demand), (_, stock)] =>
      let short : Coin := Scalar.max 0 (demand - stock)
      .optimal ⟨3 * short, #[0, stock, short], #[3, -3]⟩
    | [_] => .optimal ⟨0, #[0, 0, 0], #[0]⟩
    | _ => .optimal ⟨3, #[3, 0, 0], #[0]⟩
  elapsed _ := 0
  interval _ _ := .ok (0, 0)

def shopBuilder : Builder Coin := builder

def unbuiltShop : PolicyGraph Coin := unbuilt

/-- The larder in coins. -/
def shop : PolicyGraph Coin := final (PolicyGraph.build shopBuilder) unbuiltShop

/-- The demand and the stock for which the second stage was set up last. -/
def setUp (g : PolicyGraph Coin) : Option (List ℤ) :=
  (g.nodeAt 1 0).map fun n => (demands n.model.program).map Prod.snd

/-- A plan with some iterations, each of them with an evaluation of the policy by one pass. -/
def evaluating (iterations : ℤ) : TrainingPlan Coin :=
  { limits := { Limits.standard with iterations, tolerance := -1 }, evaluationEvery := some 1,
    evaluation := { EvaluationPlan.standard with simulations := 1 } }

theorem demands_eq {p q : LinearProgram Coin} (h : LinearProgram.Extends ∅ p q)
    (hrows : q.constraints.size = p.constraints.size) : demands q = demands p := by
  have hrelations : q.relations = p.relations := (h.relations.eq_of_length (by simp [hrows])).symm
  refine List.ext_getElem? fun i => ?_
  simp only [demands, List.getElem?_map, Array.getElem?_toList]
  cases hp : p.constraints[i]? with
  | none =>
    rw [Array.getElem?_eq_none_iff, ← hrows] at hp
    rw [Array.getElem?_eq_none hp]
  | some c =>
    obtain ⟨hi, -⟩ := Array.getElem?_eq_some_iff.1 hp
    have hrhs : q.constraints[i]?.map Constraint.rhs = p.constraints[i]?.map Constraint.rhs :=
      h.read (.rhs i) (Set.notMem_empty _) (Cell.isWithin_rhs.2 hi)
    have hrelation : q.constraints[i]?.map Constraint.relation =
        p.constraints[i]?.map Constraint.relation := by
      simpa [LinearProgram.relations] using congrArg (·[i]?) hrelations
    rw [hp, Option.map_some] at hrhs hrelation
    obtain ⟨c', hc', hrhs⟩ := Option.map_eq_some_iff.1 hrhs
    rw [hc', Option.map_some] at hrelation ⊢
    rw [Option.map_some, hrhs, Option.some.inj hrelation]

theorem isFunctional_planner : planner.IsFunctional := by
  intro call call' reductions reductions' p q s s' h hrows hs hs'
  have hsame : planner.solve call' reductions' q = planner.solve call reductions p := by
    simp only [planner, demands_eq h hrows]
  rw [hsame, hs] at hs'
  exact (Outcome.optimal.inj hs').symm

theorem build_shop : PolicyGraph.build shopBuilder unbuiltShop = .ok () shop := by
  have hsucceeds : succeeds (PolicyGraph.build shopBuilder) unbuiltShop = true := by decide +kernel
  exact eq_ok_final hsucceeds

theorem spares_planner : planner.Spares shop.retry := by
  refine Or.inr fun call reductions p => Or.inl ?_
  simp only [planner]
  split <;> exact ⟨_, rfl⟩

end Larder

/-- Two iterations, with an evaluation after each of them and without any. -/
theorem Trainer.train_ignores_evaluation_shop :
    let start : Watched (Trainer Coin) := ⟨{}, .start Larder.shop⟩
    let plan := Larder.evaluating 2
    let w := final (train Larder.planner plan) start
    let w' := final (train Larder.planner { plan with evaluationEvery := none }) start
    (Larder.shop.IsSound ∧ Larder.planner.Spares Larder.shop.retry ∧ Larder.planner.IsFunctional ∧
      train Larder.planner plan start = .ok () w ∧
      train Larder.planner { plan with evaluationEvery := none } start = .ok () w' ∧
      ∀ v ∈ [w, w'], v.part.wasInterrupted = false ∧ v.part.endedByGap = false) ∧
    (w'.part.bounds = w.part.bounds ∧ w'.part.values = w.part.values ∧
      w'.part.known = w.part.known ∧ w'.part.log = w.part.log ∧
      w'.part.iteration = w.part.iteration ∧ w'.part.stopReason = w.part.stopReason) ∧
    w'.part.graph.frame = w.part.graph.frame ∧
    ∀ s k n, w.part.graph.nodeAt s k = some n → ∃ n', w'.part.graph.nodeAt s k = some n' ∧
      n'.costToGo = n.costToGo ∧
      n'.model.program.constraints.size = n.model.program.constraints.size ∧
      LinearProgram.Extends n.cells n.model.program n'.model.program := by
  intro start plan w w'
  have hsound := PolicyGraph.isSound_build Larder.build_shop
  have h : train Larder.planner plan start = .ok () w := eq_ok_final (by decide +kernel)
  have h' : train Larder.planner { plan with evaluationEvery := none } start = .ok () w' :=
    eq_ok_final (by decide +kernel)
  have hends : ∀ v ∈ [w, w'], v.part.wasInterrupted = false ∧ v.part.endedByGap = false := by
    rw [List.forall_mem_cons, List.forall_mem_singleton]
    decide +kernel
  exact ⟨⟨hsound, Larder.spares_planner, Larder.isFunctional_planner, h, h', hends⟩,
    train_ignores_evaluation hsound Larder.spares_planner Larder.isFunctional_planner h h' hends⟩

/-- An evaluation leaves its last decisions behind. After one iteration of the larder the stock that comes
into its second stage is what the evaluation has bought, and it is zero without the evaluation. -/
theorem Trainer.train_leaves_settings :
    let start : Watched (Trainer Coin) := ⟨{}, .start Larder.shop⟩
    let plan := Larder.evaluating 1
    let w := final (train Larder.planner plan) start
    let w' := final (train Larder.planner { plan with evaluationEvery := none }) start
    (PolicyGraph.build Larder.shopBuilder Larder.unbuiltShop = .ok () Larder.shop ∧
      Larder.planner.IsFunctional ∧ train Larder.planner plan start = .ok () w ∧
      train Larder.planner { plan with evaluationEvery := none } start = .ok () w' ∧
      ∀ v ∈ [w, w'], v.part.wasInterrupted = false ∧ v.part.endedByGap = false) ∧
    ∃ n n', w.part.graph.nodeAt 1 0 = some n ∧ w'.part.graph.nodeAt 1 0 = some n' ∧
      n'.model.program.constraints ≠ n.model.program.constraints := by
  intro start plan w w'
  have h : train Larder.planner plan start = .ok () w := eq_ok_final (by decide +kernel)
  have h' : train Larder.planner { plan with evaluationEvery := none } start = .ok () w' :=
    eq_ok_final (by decide +kernel)
  have hends : ∀ v ∈ [w, w'], v.part.wasInterrupted = false ∧ v.part.endedByGap = false := by
    rw [List.forall_mem_cons, List.forall_mem_singleton]
    decide +kernel
  have hafter : Larder.setUp w.part.graph = some [3, 3] := by decide +kernel
  have hafter' : Larder.setUp w'.part.graph = some [3, 0] := by decide +kernel
  obtain ⟨n, hn, hdemands⟩ := Option.map_eq_some_iff.1 hafter
  obtain ⟨n', hn', hdemands'⟩ := Option.map_eq_some_iff.1 hafter'
  refine ⟨⟨Larder.build_shop, Larder.isFunctional_planner, h, h', hends⟩, n, n', hn, hn', fun hsame => ?_⟩
  rw [Larder.demands, hsame, ← Larder.demands, hdemands] at hdemands'
  exact absurd hdemands' (by decide)

end DualDynamic
