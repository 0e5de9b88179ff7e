import DualDynamic.Proofs.PolicyGraph.Changes
import DualDynamic.Proofs.Training

/-!
# What a training makes of graphs

A training does to graphs what may happen to a graph, and nothing else: alone, with a team in lockstep or
with one whose turns and collections alternate in any way, up to its end or up to any fault. So a graph is
reached from the one that the training began with, those of the workers included.
-/

namespace DualDynamic

open Step PolicyGraph

variable {K A : Type} [Numeral K] {engine : Engine K} {plan : TrainingPlan K} {g₀ : PolicyGraph K}

/-- Whatever the graph was reached from, it still is after the step. -/
def PolicyGraph.IsChanging {S : Type} (graph : S → PolicyGraph K) (x : Run K S A) : Prop :=
  ∀ g₀, Keeps (fun w => Reaches g₀ (graph w.part)) x

namespace PolicyGraph

theorem IsSolving.isChanging {x : Run K (PolicyGraph K) A} (hx : IsSolving engine x) :
    IsChanging id x :=
  fun _ => keeps_iff_final.2 fun w hw => Reaches.tail hw (.solve w.monitor hx)

/-- A change that is not watched. -/
theorem isChanging_ofStep {x : Step K (PolicyGraph K) A} (hx : ∀ g, Changes g (final x g)) :
    IsChanging id (Run.ofStep x) :=
  fun _ => Run.keeps_ofStep fun _ _ => keeps_iff_final.2 fun g hg => Reaches.tail hg (hx g)

theorem isChanging_installCut (stage markov : ℤ) (rib : Option K) (cut : Cut K)
    (state : Option (Datum K)) :
    IsChanging id (Run.ofStep (installCut stage markov rib cut state)) :=
  isChanging_ofStep fun _ => .install stage markov rib cut state

end PolicyGraph

/-! ## Backward passes -/

namespace Recorded

theorem isChanging_onGraph {x : Run K (PolicyGraph K) A} (hx : IsChanging id x) :
    IsChanging Recorded.graph (onGraph x) := fun g₀ =>
  Run.keeps_within fun _ hw => ⟨fun v => Reaches g₀ v.part, hw, hx g₀, fun _ hv => hv⟩

theorem isChanging_write (r : CutRecord K) : IsChanging Recorded.graph (write r) :=
  fun _ => Run.keeps_change fun _ hw => hw

theorem isChanging_updateRib (n : Node K) (state : List K) (iteration : Option ℤ) (rib : Option K) :
    IsChanging Recorded.graph (updateRib engine n state iteration rib) := fun g₀ =>
  (isChanging_onGraph (isSolving_generateCut n state rib iteration).isChanging g₀).bind fun _ =>
    (isChanging_write _ g₀).bind fun _ =>
      (isChanging_onGraph (isChanging_installCut _ _ _ _ _) g₀).bind fun _ => keeps_pure _

theorem isChanging_backward (path : List ℤ) (states : List (List K)) (iteration : Option ℤ) :
    IsChanging Recorded.graph (backward engine path states iteration) := fun g₀ =>
  Run.keeps_part_bind fun _ _ => (Keeps.mapM fun _ _ => Run.keeps_part_bind fun _ _ =>
    (keeps_ofExcept _).bind fun _ => (keeps_ofExcept _).bind fun _ =>
      Keeps.mapM fun _ _ => isChanging_updateRib _ _ _ _ g₀).bind fun _ => keeps_pure _

end Recorded

/-! ## Trainers -/

namespace Trainer

theorem isChanging_onGraph {x : Run K (PolicyGraph K) A} (hx : IsChanging id x) :
    IsChanging Trainer.graph (onGraph x) := fun g₀ =>
  Run.keeps_within fun _ hw => ⟨fun v => Reaches g₀ v.part, hw, hx g₀, fun _ hv => hv⟩

theorem isChanging_onRecorded {x : Run K (Recorded K) A} (hx : IsChanging Recorded.graph x) :
    IsChanging Trainer.graph (onRecorded x) := fun g₀ =>
  Run.keeps_within fun _ hw => ⟨fun v => Reaches g₀ v.part.graph, hw, hx g₀, fun _ hv => hv⟩

theorem isChanging_change {f : Trainer K → Trainer K} (hf : ∀ t, (f t).graph = t.graph) :
    IsChanging Trainer.graph (Run.change f : Run K (Trainer K) Unit) :=
  fun g₀ => Run.keeps_change fun w (hw : Reaches g₀ w.part.graph) => (hf w.part).symm ▸ hw

theorem isChanging_installRecords (records : List (CutRecord K)) :
    IsChanging Trainer.graph (installRecords records) := fun g₀ =>
  Run.keeps_part_bind fun _ _ => (Keeps.each fun r _ =>
    (isChanging_onRecorded (Recorded.isChanging_write r) g₀).bind fun _ =>
      (isChanging_onGraph (isChanging_installCut _ _ _ _ _) g₀).bind fun _ =>
        isChanging_change (by exact fun _ => rfl) g₀).bind fun _ => keeps_pure _

theorem isChanging_passes (stream : MersenneTwister) (iteration : ℤ) :
    IsChanging Trainer.graph (passes engine stream iteration) := by
  intro g₀
  refine (isChanging_onGraph (isSolving_simulation stream []).isChanging g₀).bind fun pass => ?_
  refine Keeps.bind (Keeps.bind (isChanging_onRecorded (Recorded.isChanging_backward _ _ _) g₀)
    fun records => ?_) fun _ => keeps_pure _
  exact (isChanging_change (by exact fun _ => rfl) g₀).bind fun _ => keeps_pure _

theorem isChanging_cleanIfDue (every : Option ℤ) (i : ℕ) :
    IsChanging Trainer.graph (cleanIfDue every i : Run K (Trainer K) Unit) := fun g₀ =>
  (keeps_ofExcept _).bind fun _ => Keeps.ite
    (isChanging_onGraph (isChanging_ofStep fun _ => .clean) g₀) (keeps_pure _)

theorem isChanging_evaluateIfDue : IsChanging Trainer.graph (evaluateIfDue engine plan) := fun g₀ =>
  keeps_evaluateIfDue_of_parts (isChanging_onGraph (isSolving_evaluation _).isChanging g₀)
    fun _ _ hw => hw

theorem isChanging_addIteration (bound value time : K) :
    IsChanging Trainer.graph (Run.change (addIteration bound value time) : Run K (Trainer K) Unit) :=
  fun _ => Run.keeps_change fun _ hw => Reaches.tail hw (.bound (some bound))

theorem isChanging_finishIteration (value : K) :
    IsChanging Trainer.graph (finishIteration engine plan value) := fun g₀ =>
  keeps_finishIteration_of_parts (isChanging_onGraph isSolving_computeBound.isChanging g₀)
    (fun bound value time => isChanging_addIteration bound value time g₀) (isChanging_evaluateIfDue g₀)
    (fun _ _ hw => hw) value

theorem isChanging_iterations (count : ℕ) :
    IsChanging Trainer.graph (iterations engine plan count) := fun g₀ =>
  keeps_iterations_of_parts (fun _ _ => isChanging_passes _ _ g₀)
    (fun _ => isChanging_finishIteration _ g₀) (fun _ => isChanging_cleanIfDue _ _ g₀) count

theorem isChanging_training {step : Run K (Trainer K) Unit} (hstep : IsChanging Trainer.graph step) :
    IsChanging Trainer.graph (training plan step) := fun g₀ =>
  (isChanging_change (by exact fun _ => rfl) g₀).bind fun _ => Run.ensures_andThen
    (Run.keeps_untilInterrupted (hstep g₀) (isChanging_change (by exact fun _ => rfl) g₀))
    fun _ hw => hw

/-- The graph of a training alone is reached, whatever the training comes to. -/
theorem isChanging_train : IsChanging Trainer.graph (train engine plan) := fun g₀ =>
  Run.keeps_part_bind fun _ _ => isChanging_training (isChanging_iterations _) g₀

end Trainer

/-! ## Teams -/

/-- The graphs of all members are reached. -/
structure Team.IsReached (g₀ : PolicyGraph K) (team : Team K) : Prop where
  coordinator : Reaches g₀ team.coordinator.graph
  workers : ∀ w ∈ team.workers, Reaches g₀ w.trainer.part.graph

theorem Worker.reaches_turn {w : Worker K} (h : Reaches g₀ w.trainer.part.graph) (p : ℤ)
    (cleanEvery : Option ℤ) : Reaches g₀ (w.turn engine p cleanEvery).2.trainer.part.graph := by
  have hstep : Keeps (fun v : Watched (Trainer K) => Reaches g₀ v.part.graph)
      (mergeAll w.mailbox >>= fun _ => iterate engine p cleanEvery w.iterations) := by
    refine (Keeps.each fun _ _ => (Trainer.isChanging_installRecords _ g₀).bind fun _ =>
      keeps_pure _).bind fun _ => (keeps_ofExcept _).bind fun _ => Run.keeps_part_bind fun _ _ => ?_
    exact (Trainer.isChanging_passes _ _ g₀).bind fun _ =>
      (Trainer.isChanging_cleanIfDue _ _ g₀).bind fun _ => keeps_pure _
  have hend := hstep w.trainer h
  unfold turn
  dsimp only
  cases hrun : (mergeAll w.mailbox >>= fun _ => iterate engine p cleanEvery w.iterations) w.trainer with
  | ok result v =>
    rw [hrun] at hend
    exact hend
  | error f v =>
    rw [hrun] at hend
    exact hend

namespace Team

theorem keeps_isReached_share (p : ℤ) (records : List (CutRecord K)) :
    Keeps (fun w => IsReached g₀ w.part) (share p records) := by
  have hinstall : Keeps (fun w => IsReached g₀ w.part)
      (onCoordinator (Trainer.installRecords records)) := Run.keeps_within fun _ hw =>
    ⟨fun v => Reaches g₀ v.part.graph, hw.coordinator, Trainer.isChanging_installRecords _ g₀,
      fun _ hv => ⟨hv, hw.workers⟩⟩
  refine hinstall.bind fun fresh => Keeps.ite (Run.keeps_change fun w hw => ?_) (keeps_pure _)
  refine { hw with workers := fun worker hworker => ?_ }
  obtain ⟨q, hq, rfl⟩ := List.mem_mapIdx.1 hworker
  have hold := hw.workers _ (List.getElem_mem hq)
  split_ifs <;> exact hold

theorem keeps_isReached_collect (post : Posted K) :
    Keeps (fun w => IsReached g₀ w.part) (collect engine plan post) := by
  cases post with
  | failure p f => exact keeps_throw _
  | result p value records =>
    exact (keeps_isReached_share p records).bind fun _ => Run.keeps_within fun _ hw =>
      ⟨fun v => Reaches g₀ v.part.graph, hw.coordinator, Trainer.isChanging_finishIteration value g₀,
        fun _ hv => ⟨hv, hw.workers⟩⟩

theorem IsReached.turnOf {team : Team K} (h : team.IsReached g₀) (cleanEvery : Option ℤ) (p : ℕ) :
    (turnOf engine cleanEvery p team).IsReached g₀ := by
  unfold Team.turnOf
  cases hp : team.workers[p]? with
  | none => exact h
  | some w =>
    refine { h with workers := fun v hv => ?_ }
    rcases List.mem_or_eq_of_mem_set hv with hv | rfl
    · exact h.workers v hv
    · exact Worker.reaches_turn (h.workers w (List.mem_of_getElem? hp)) p cleanEvery

/-- The graphs of a team are reached, however turns and collections alternate. -/
theorem IsReached.of_moves {w v : Watched (Team K)} (h : w.part.IsReached g₀)
    (hruns : Relation.ReflTransGen (Moves engine plan) w v) : v.part.IsReached g₀ := by
  induction hruns with
  | refl => exact h
  | tail _ hmove ih =>
    cases hmove with
    | collect hresults => exact (keeps_isReached_collect _).final { ih with }
    | turn p => exact ih.turnOf _ p

theorem keeps_isReached_lockstep (schedule : List ℕ) (steps i : ℕ) :
    Keeps (fun w => IsReached g₀ w.part) (lockstep engine plan schedule steps i) :=
  keeps_lockstep_of_moves (fun _ _ hmove hw => hw.of_moves (.single hmove)) _ _ _

/-- The graph of a training with a team in lockstep is reached, whatever the training comes to. -/
theorem isChanging_train {workers : List (Watched (Trainer K))} (schedule : List ℕ)
    (hworkers : ∀ v ∈ workers, Reaches g₀ v.part.graph) :
    Keeps (fun w => Reaches g₀ w.part.graph) (train engine plan workers schedule) := by
  refine Ensures.bind (Q := fun _ (w : Watched (Trainer K)) => Reaches g₀ w.part.graph)
    (ensures_modify fun _ hw => hw) fun _ => Run.ensures_andThen (Run.keeps_untilInterrupted ?_
      (Trainer.isChanging_change (by exact fun _ => rfl) g₀)) fun _ hw => hw
  refine Run.keeps_within fun w hw => ⟨fun v => v.part.IsReached g₀, ⟨hw, fun worker hworker => ?_⟩,
    Run.keeps_part_bind fun _ _ => keeps_isReached_lockstep schedule _ _, fun _ hv => hv.coordinator⟩
  obtain ⟨v, hv, rfl⟩ := List.mem_map.1 hworker
  exact hworkers v hv

end Team

end DualDynamic
