import DualDynamic.Proofs.PolicyGraph.Growth
import DualDynamic.Training.Team

/-!
# What a training keeps

Most steps of a training let the graph grow and do nothing else that matters. So a property of
trainers that looks at graph and bounds holds on through a whole training if it survives three
things: growth, the bound of an iteration, and the removal of retired cuts where that is due
(`Survives`).

The same goes for the coordinator of a team. It never removes anything, so nothing need be known
of what is posted to it, nor of the order in which workers have their turns (`Team.Moves`).
-/

namespace DualDynamic

open Step PolicyGraph

variable {K A : Type}

/-! ## Interruptions -/

namespace Run

variable {S : Type} {I : Watched S → Prop}

theorem keeps_untilInterrupted {step onInterrupt : Run K S Unit} (hstep : Keeps I step)
    (hinterrupt : Keeps I onInterrupt) : Keeps I (untilInterrupted step onInterrupt) := by
  intro w hw
  have h := hstep w hw
  unfold untilInterrupted
  cases hx : step w with
  | ok a v =>
    rw [hx] at h
    exact h
  | error e v =>
    rw [hx] at h
    cases e with
    | interrupted => exact hinterrupt v h
    | _ => exact h

theorem ensures_andThen {P J : Watched S → Prop} {step : Run K S A} {f : S → S}
    (hstep : Ensures P step (fun _ => I) I) (hf : ∀ w, I w → J { w with part := f w.part }) :
    Ensures P (andThen step f) (fun _ => J) J := by
  intro w hw
  have h := hstep w hw
  unfold andThen
  cases hx : step w with
  | ok a v =>
    rw [hx] at h
    exact hf v h
  | error e v =>
    rw [hx] at h
    exact hf v h

end Run

/-- The coordinator takes the result that waits longest, or a worker has its turn. -/
inductive Team.Moves [Numeral K] (engine : Engine K) (plan : TrainingPlan K) :
    Watched (Team K) → Watched (Team K) → Prop
  | collect {w post rest} : w.part.results = post :: rest → Moves engine plan w
      (final (collect engine plan post) { w with part := { w.part with results := rest } })
  | turn (w p) : Moves engine plan w { w with part := turnOf engine plan.cleanEvery p w.part }

/-- What the moves of a team keep, a run in lockstep keeps. -/
theorem Team.keeps_lockstep_of_moves [Numeral K] {engine : Engine K} {plan : TrainingPlan K}
    {J : Watched (Team K) → Prop} (hJ : ∀ w v, Moves engine plan w v → J w → J v)
    (schedule : List ℕ) (steps i : ℕ) : Keeps J (lockstep engine plan schedule steps i) := by
  induction steps generalizing i with
  | zero => exact keeps_pure _
  | succ steps ih =>
    refine Run.ensures_part_bind fun w hw => ?_
    split
    · rename_i post rest hresults
      -- That a result is taken out and that it is collected is one move.
      refine Ensures.bind (Q := fun _ v => v = { w with part := { w.part with results := rest } })
        (ensures_modify fun v hv => hv ▸ rfl) fun _ => ?_
      exact (ensures_of_final (hJ _ _ (.collect hresults) hw)).bind fun isOver =>
        Keeps.ite (keeps_pure _) (ih i)
    · split
      · exact ensures_throw fun v hv => hv ▸ hw
      · rename_i p _
        exact (ensures_modify fun v hv => hv ▸ hJ _ _ (.turn w p) hw).bind fun _ => ih (i + 1)

/-! ## Parts of a training -/

namespace Trainer

variable [Numeral K] {engine : Engine K} {plan : TrainingPlan K} {J : Watched (Trainer K) → Prop}

/-- What the bound, the history, the evaluation and the stopping rules of an iteration keep, its end
keeps. -/
theorem keeps_finishIteration_of_parts (hbound : Keeps J (onGraph (computeBound engine)))
    (hadd : ∀ bound value time w, J w → J { w with part := addIteration bound value time w.part })
    (hevaluate : Keeps J (evaluateIfDue engine plan))
    (hreason : ∀ reason w, J w → J { w with part := { w.part with stopReason := some reason } })
    (value : K) : Keeps J (finishIteration engine plan value) := by
  refine hbound.bind fun bound => Run.keeps_part_bind fun _ _ =>
    (Run.keeps_change (hadd _ _ _)).bind fun _ => hevaluate.bind fun _ =>
      Run.keeps_part_bind fun v _ => ?_
  cases plan.limits.check v.part.progress with
  | none => exact keeps_pure _
  | some reason => exact (Run.keeps_change (hreason reason)).bind fun _ => keeps_pure _

theorem keeps_evaluateIfDue_of_parts (hrun : Keeps J (onGraph (Evaluation.run engine plan.evaluation)))
    (hgap : ∀ gap w, J w → J { w with part := { w.part with gap := some gap } }) :
    Keeps J (evaluateIfDue engine plan) :=
  Run.keeps_part_bind fun _ _ => (keeps_ofExcept _).bind fun _ => Keeps.ite
    (hrun.bind fun _ => Run.keeps_change (hgap _)) (keeps_pure _)

/-- What the passes, the ends and the cleaning of iterations keep, the iterations keep. -/
theorem keeps_iterations_of_parts (hpasses : ∀ stream i, Keeps J (passes engine stream i))
    (hfinish : ∀ value, Keeps J (finishIteration engine plan value))
    (hclean : ∀ i, Keeps J (cleanIfDue plan.cleanEvery i)) (n : ℕ) :
    Keeps J (iterations engine plan n) := by
  induction n with
  | zero => exact keeps_pure _
  | succ n ih =>
    refine Run.keeps_part_bind fun _ _ => (hpasses _ _).bind fun pass => ?_
    refine (hfinish _).bind fun isOver => Keeps.ite (keeps_pure _) ?_
    exact Run.keeps_part_bind fun _ _ => (hclean _).bind fun _ => ih

end Trainer

/-! ## Trainers -/

variable [ExactNumeral K] {engine : Engine K} {plan : TrainingPlan K}

theorem PolicyGraph.Grows.of_eq {g g' : PolicyGraph K} (hframe : g'.frame = g.frame)
    (hnodes : g'.nodes = g.nodes) : Grows g g' where
  frame := hframe
  nodes t k n hn := by
    rw [nodeAt, hnodes] at hn
    exact ⟨n, hn, .refl _ n⟩

namespace Trainer

/-- A property of graph and bounds that the graph's growth and the bound of an iteration do not
end. -/
structure Survives (engine : Engine K) (I : Trainer K → Prop) : Prop where
  sound : ∀ {t}, I t → t.graph.IsSound
  spares : ∀ {t}, I t → engine.Spares t.graph.retry
  grows : ∀ {t t'}, I t → Grows t.graph t'.graph → t'.bounds = t.bounds → I t'
  bound : ∀ {t k x v}, I t → computeBound engine ⟨k, t.graph⟩ = .ok x v → ∀ value time,
    I (addIteration x value time { t with graph := v.part })

variable {I : Trainer K → Prop}

section Serial

variable (hI : Survives engine I)
include hI

theorem Survives.same {t t' : Trainer K} (h : I t) (hgraph : t'.graph = t.graph)
    (hbounds : t'.bounds = t.bounds) : I t' :=
  hI.grows h (hgraph ▸ .refl _) hbounds

theorem keeps_onGraph {x : Run K (PolicyGraph K) A} (hx : IsGrowing engine id x) :
    Keeps (fun w => I w.part) (onGraph x) :=
  Run.keeps_within fun w hw => ⟨fun v => Grows w.part.graph v.part, .refl _,
    hx _ (hI.sound hw) (hI.spares hw), fun _ hv => hI.grows hw hv rfl⟩

theorem keeps_onRecorded {x : Run K (Recorded K) A} (hx : IsGrowing engine Recorded.graph x) :
    Keeps (fun w => I w.part) (onRecorded x) :=
  Run.keeps_within fun w hw => ⟨fun v => Grows w.part.graph v.part.graph, .refl _,
    hx _ (hI.sound hw) (hI.spares hw), fun _ hv => hI.grows hw hv rfl⟩

theorem keeps_change {f : Trainer K → Trainer K}
    (hf : ∀ t, (f t).graph = t.graph ∧ (f t).bounds = t.bounds) :
    Keeps (fun w => I w.part) (Run.change f : Run K (Trainer K) Unit) :=
  Run.keeps_change fun _ hw => hI.same hw (hf _).1 (hf _).2

theorem keeps_passes (stream : MersenneTwister) (iteration : ℤ) :
    Keeps (fun w => I w.part) (passes engine stream iteration) := by
  refine (keeps_onGraph hI (isGrowing_simulation stream [])).bind fun pass => ?_
  refine Keeps.bind (Keeps.bind (keeps_onRecorded hI (isGrowing_backward _ _ _)) fun records => ?_)
    fun _ => keeps_pure _
  exact (keeps_change hI (by exact fun _ => ⟨rfl, rfl⟩)).bind fun _ => keeps_pure _

/-- The bound of an iteration is one of the graph as it is. -/
theorem ensures_bound : Ensures (fun w => I w.part) (onGraph (computeBound engine))
    (fun x w => ∀ value time, I (addIteration x value time w.part)) fun w => I w.part := by
  refine Ensures.within fun w hw => ?_
  refine ensures_iff.2 ?_
  rintro v rfl
  refine ⟨fun x u hu => hI.bound hw hu, fun e u hu => ?_⟩
  have hgrowing : IsGrowing engine id (computeBound engine) := isGrowing_computeBound
  have hgrows := (hgrowing _ (hI.sound hw) (hI.spares hw)).of_error
    (s := ⟨w.monitor, w.part.graph⟩) (.refl _) hu
  exact hI.grows hw hgrows rfl

theorem keeps_evaluateIfDue : Keeps (fun w => I w.part) (evaluateIfDue engine plan) :=
  keeps_evaluateIfDue_of_parts (keeps_onGraph hI (isGrowing_evaluation _)) fun _ _ hw =>
    hI.same hw rfl rfl

theorem keeps_finishIteration (value : K) :
    Keeps (fun w => I w.part) (finishIteration engine plan value) := by
  refine (ensures_bound hI).bind fun x => Run.ensures_part_bind fun w hw => ?_
  refine Ensures.bind (Q := fun _ w => I w.part) ?_ fun _ => ?_
  · rintro v rfl
    exact hw _ _
  · refine (keeps_evaluateIfDue hI).bind fun _ => Run.keeps_part_bind fun v hv => ?_
    cases plan.limits.check v.part.progress with
    | none => exact keeps_pure _
    | some reason =>
      exact (keeps_change hI (by exact fun _ => ⟨rfl, rfl⟩)).bind fun _ => keeps_pure _

end Serial

end Trainer

/-! ## Teams -/

namespace Team

variable {I : Trainer K → Prop}

section Serial

variable (hI : Trainer.Survives engine I)
include hI

omit hI [ExactNumeral K] in
theorem coordinator_turnOf [Numeral K] {engine : Engine K} (cleanEvery : Option ℤ) (p : ℕ) (team : Team K) :
    (turnOf engine cleanEvery p team).coordinator = team.coordinator := by
  unfold turnOf
  cases team.workers[p]? <;> rfl

end Serial

end Team

end DualDynamic
