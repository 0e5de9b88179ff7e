import DualDynamic.Proofs.PolicyGraph

/-!
# What steps on nodes leave alone

Simulating, evaluating, generating and installing cuts and rebuilding put nodes back into the graph, and
nothing else. So all of the graph but its nodes stays as it is (`setting`), the measure of risk and the last
bound among it, whether a step fails or not.
-/

namespace DualDynamic

open Step

variable {K A : Type}

namespace PolicyGraph

/-- All of a graph but its nodes. -/
def setting (g : PolicyGraph K) : PolicyGraph K := { g with nodes := [] }

@[simp] theorem setting_putNode (g : PolicyGraph K) (n : Node K) : (g.putNode n).setting = g.setting := rfl

/-- What the setting of a graph says of it. -/
theorem eq_of_setting {g g' : PolicyGraph K} (h : g'.setting = g.setting) :
    g'.sense = g.sense ∧ g'.measure = g.measure ∧ g'.bound = g.bound :=
  ⟨congrArg (fun s => s.sense) h, congrArg (fun s => s.measure) h, congrArg (fun s => s.bound) h⟩

variable {s : PolicyGraph K}

theorem keeps_setting_atNode (stage markov : ℤ) (x : Run K (Node K) A) :
    Keeps (fun w => w.part.setting = s) (atNode stage markov x) :=
  Run.keeps_part_bind fun _ _ => (keeps_ofExcept _).bind fun n => Step.keeps_within (by exact fun _ _ hw => hw) _

variable [Numeral K] {engine : Engine K}

/-! ## Solving and installing -/

theorem keeps_setting_solveStage (stage : ℕ) (nodes : List (ℕ × K)) (state : Option (List K))
    (price : Option K) :
    Keeps (fun w => w.part.setting = s) (solveStage engine stage nodes state price) :=
  (Keeps.mapM fun _ _ => keeps_setting_atNode _ _ _).bind fun _ => keeps_pure _

theorem keeps_setting_aggregateStage (stage : ℕ) (nodes : List (ℕ × K)) (state : Option (List K))
    (price : Option K) :
    Keeps (fun w => w.part.setting = s) (aggregateStage engine stage nodes state price) :=
  (keeps_setting_solveStage _ _ _ _).bind fun _ => Run.keeps_part_bind fun _ _ => keeps_ofExcept _

theorem keeps_setting_computeBound : Keeps (fun w => w.part.setting = s) (computeBound engine) :=
  Run.keeps_part_bind fun _ _ => (keeps_setting_aggregateStage _ _ _ _).bind fun _ => keeps_pure _

theorem keeps_setting_generateCut (n : Node K) (state : List K) (rib : Option K) (iteration : Option ℤ) :
    Keeps (fun w => w.part.setting = s) (generateCut engine n state rib iteration) :=
  Run.keeps_part_bind fun _ _ => (keeps_setting_aggregateStage _ _ _ _).bind fun _ =>
    Keeps.ite ((keeps_throw _).bind fun _ => keeps_pure _) (keeps_pure _)

theorem keeps_setting_installCut (stage markov : ℤ) (rib : Option K) (cut : Cut K)
    (state : Option (Datum K)) :
    Keeps (fun g => g.setting = s) (installCut stage markov rib cut state) :=
  keeps_get.bind fun _ => (keeps_ofExcept _).bind fun _ => (keeps_ofExcept _).bind fun _ =>
    Keeps.bind (ensures_modify fun _ hg => hg) fun _ => keeps_pure _

theorem keeps_setting_clean : Keeps (fun g : PolicyGraph K => g.setting = s) clean :=
  keeps_get.bind fun _ => Keeps.each fun _ _ => keeps_get.bind fun _ =>
    (keeps_ofExcept _).bind fun _ => ensures_modify fun _ hg => hg

end PolicyGraph

/-! ## Simulating -/

namespace Simulated

variable {s : PolicyGraph K}

theorem keeps_setting_draw (step : Draw K A) : Keeps (fun w => w.part.graph.setting = s) (draw step) :=
  Run.keeps_ofStep fun _ _ => Step.keeps_within (by exact fun _ _ hs => hs) step

theorem keeps_setting_atNode (stage markov : ℕ) (x : Run K (Node K) A) :
    Keeps (fun w => w.part.graph.setting = s) (atNode stage markov x) :=
  Run.keeps_within fun _ hw => ⟨fun v => v.part.setting = s, hw,
    PolicyGraph.keeps_setting_atNode _ _ x, fun _ hv => hv⟩

variable [Numeral K] {engine : Engine K}

theorem keeps_setting_visit (query : List String) (stage : ℕ) (previous : Option (ℕ × List K))
    (price : Option K) :
    Keeps (fun w => w.part.graph.setting = s) (visit engine query stage previous price) :=
  Run.keeps_part_bind fun _ _ => (keeps_setting_draw _).bind fun _ => Run.keeps_part_bind fun _ _ =>
    (keeps_ofExcept _).bind fun _ => (keeps_setting_atNode _ _ _).bind fun _ =>
      (keeps_setting_draw _).bind fun _ => (keeps_setting_draw _).bind fun _ =>
        (keeps_setting_atNode _ _ _).bind fun _ => Run.keeps_part_bind fun _ _ =>
          (keeps_ofExcept _).bind fun _ => keeps_ofExcept _

theorem keeps_setting_visits (query : List String) (stages count : ℕ)
    (previous : Option (ℕ × List K)) (price : Option K) :
    Keeps (fun w => w.part.graph.setting = s) (visits engine query stages count previous price) := by
  induction count generalizing previous price with
  | zero => exact keeps_pure _
  | succ count ih =>
    exact (keeps_setting_visit _ _ _ _).bind fun _ => (ih _ _).bind fun _ => keeps_pure _

theorem keeps_setting_forward (query : List String) :
    Keeps (fun w => w.part.graph.setting = s) (forward engine query) :=
  Run.keeps_part_bind fun _ _ => keeps_setting_visits _ _ _ _ _

theorem keeps_setting_passes (query : List String) (count : ℕ) :
    Keeps (fun w => w.part.graph.setting = s) (passes engine query count) := by
  induction count with
  | zero => exact keeps_pure _
  | succ count ih => exact (keeps_setting_forward _).bind fun _ => ih.bind fun _ => keeps_pure _

omit [Numeral K] in
theorem keeps_setting_onGraph (stream : MersenneTwister) {x : Run K (Simulated K) A}
    (hx : Keeps (fun w => w.part.graph.setting = s) x) :
    Keeps (fun w => w.part.setting = s) (onGraph stream x) :=
  Run.keeps_within fun _ hw => ⟨fun v => v.part.graph.setting = s, hw, hx, fun _ hv => hv⟩

end Simulated

theorem Evaluation.keeps_setting_run [Numeral K] {engine : Engine K} {s : PolicyGraph K}
    (plan : EvaluationPlan K) : Keeps (fun w => w.part.setting = s) (run engine plan) :=
  keeps_run_of_passes fun _ => Simulated.keeps_setting_onGraph _ (Simulated.keeps_setting_passes _ _)

/-! ## Backward passes -/

namespace Recorded

/-- All but nodes and records. -/
def setting (r : Recorded K) : Recorded K := ⟨r.graph.setting, { r.log with text := "" }⟩

variable {s : Recorded K}

theorem keeps_setting_onGraph {x : Run K (PolicyGraph K) A}
    (hx : ∀ g : PolicyGraph K, Keeps (fun w => w.part.setting = g) x) :
    Keeps (fun w => w.part.setting = s) (onGraph x) :=
  Run.keeps_within fun w hw => ⟨fun v => v.part.setting = w.part.graph.setting, rfl, hx _, fun v hv => by
    rw [← hw, setting, setting, hv]⟩

variable [Numeral K] {engine : Engine K}

theorem keeps_setting_write (r : CutRecord K) : Keeps (fun w => w.part.setting = s) (write r) := by
  refine Run.keeps_change fun w hw => ?_
  have hlog : ({ w.part.log.write r with text := "" } : CutFile.Log) = { w.part.log with text := "" } := by
    unfold CutFile.Log.write
    split <;> rfl
  rw [← hw, setting, setting, hlog]

theorem keeps_setting_updateRib (n : Node K) (state : List K) (iteration : Option ℤ) (rib : Option K) :
    Keeps (fun w => w.part.setting = s) (updateRib engine n state iteration rib) :=
  (keeps_setting_onGraph fun _ => PolicyGraph.keeps_setting_generateCut _ _ _ _).bind fun _ =>
    (keeps_setting_write _).bind fun _ => (keeps_setting_onGraph fun _ => Run.keeps_ofStep fun _ _ =>
      PolicyGraph.keeps_setting_installCut _ _ _ _ _).bind fun _ => keeps_pure _

theorem keeps_setting_updateStage (path : List ℤ) (states : List (List K)) (iteration : Option ℤ)
    (stage : ℕ) :
    Keeps (fun w => w.part.setting = s) (updateStage engine path states iteration stage) :=
  Run.keeps_part_bind fun _ _ => (keeps_ofExcept _).bind fun _ => (keeps_ofExcept _).bind fun _ =>
    Keeps.mapM fun _ _ => keeps_setting_updateRib _ _ _ _

theorem keeps_setting_backward (path : List ℤ) (states : List (List K)) (iteration : Option ℤ) :
    Keeps (fun w => w.part.setting = s) (backward engine path states iteration) :=
  Run.keeps_part_bind fun _ _ => (Keeps.mapM fun _ _ => keeps_setting_updateStage _ _ _ _).bind
    fun _ => keeps_pure _

end Recorded

end DualDynamic
