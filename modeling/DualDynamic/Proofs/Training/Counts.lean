import DualDynamic.Proofs.Repetition
import DualDynamic.Training

/-!
# Counts make no difference

The counts of a run tell when it is interrupted and how many programs were solved before. Where the outcome
of a solve is a function of the program (`Engine.IsPure`) they make no difference to a run that comes to its
end: steps that start from one part, whatever was counted before, have the same result and end with the same
part (`Run.IgnoresCounts`).
-/

namespace DualDynamic

open Step

variable {K A B S T : Type}

/-- The outcome of a solve does not depend on how many there were before. -/
def Engine.IsPure (engine : Engine K) : Prop :=
  ∀ call call' reductions p, engine.solve call' reductions p = engine.solve call reductions p

namespace Run

/-- The step comes to one result and one part, whatever was counted before. -/
abbrev IgnoresCounts (x : Run K S A) : Prop := Respects Eq x

theorem ignoresCounts_part_bind {f : S → Run K S A} (h : ∀ s, IgnoresCounts (f s)) :
    IgnoresCounts (part >>= f) := respects_part_bind (fun _ _ hs => by rw [hs]) h

theorem ignoresCounts_change (f : S → S) : IgnoresCounts (change f : Run K S Unit) :=
  respects_change fun _ _ => congrArg f

theorem ignoresCounts_ofStep (x : Step K S A) : IgnoresCounts (ofStep x) := by
  refine respects_ofStep fun s s' hs a t ht a' t' ht' => ?_
  rw [← hs, ht] at ht'
  cases ht'
  exact ⟨rfl, rfl⟩

theorem ignoresCounts_within {read : S → T} {put : T → S → S} {x : Run K T A} (hx : IgnoresCounts x) :
    IgnoresCounts (within read put x) :=
  respects_within hx (fun _ _ => congrArg read) fun _ _ _ _ hs ht => by rw [hs, ht]

theorem ignoresCounts_count (f : Monitor → Monitor) : IgnoresCounts (count f : Run K S Unit) :=
  couples_modify fun _ _ hw => ⟨rfl, hw⟩

end Run

open Run

/-! ## Subproblems -/

section Numerals

variable [Numeral K]

namespace Subproblem

theorem ignoresCounts_askRetry (status : ℕ) :
    IgnoresCounts (askRetry status : Run K (Subproblem K) Bool) := by
  refine ignoresCounts_part_bind fun m => ?_
  cases m.retry with
  | none => exact respects_pure _
  | some retry =>
    exact (ignoresCounts_count _).bind fun _ =>
      (Respects.each fun a _ => (Action.isHeedless_perform _ a).respects).bind fun _ => respects_pure _

end Subproblem

end Numerals

variable {engine : Engine K}

namespace Subproblem

variable (hpure : engine.IsPure)
include hpure

theorem ignoresCounts_optimize : IgnoresCounts (optimize engine) := by
  rintro ⟨monitor, m⟩ ⟨monitor', m'⟩ (rfl : m = m') outcome v hv outcome' v' hv'
  have houtcome := hpure monitor.calls monitor'.calls m.reductions m.program
  cases hv
  cases hv'
  dsimp only
  rw [houtcome]
  exact ⟨rfl, rfl⟩

theorem ignoresCounts_optimizeDecided : IgnoresCounts (optimizeDecided engine) := by
  refine (ignoresCounts_optimize hpure).bind fun outcome => ?_
  cases outcome with
  | infeasibleOrUnbounded =>
    exact (ignoresCounts_change _).bind fun _ => (ignoresCounts_optimize hpure).bind fun _ =>
      (ignoresCounts_change _).bind fun _ => respects_pure _
  | _ => exact respects_pure _

theorem ignoresCounts_solve [Numeral K] (stage markov : Option ℤ) :
    IgnoresCounts (solve engine stage markov) := by
  refine ignoresCounts_part_bind fun m => (ignoresCounts_optimizeDecided hpure).bind fun outcome => ?_
  cases outcome with
  | optimal s => exact respects_pure _
  | infeasible => exact respects_throw _
  | _ =>
    refine (ignoresCounts_askRetry _).bind fun _ => Respects.ite ?_ (respects_throw _)
    refine (ignoresCounts_optimize hpure).bind fun again => ?_
    cases again with
    | optimal s => exact respects_pure _
    | _ => exact respects_throw _

end Subproblem

/-! ## Nodes -/

variable [Numeral K]

namespace Node

omit [Numeral K] in
theorem ignoresCounts_onModel {x : Run K (Subproblem K) A} (hx : IgnoresCounts x) :
    IgnoresCounts (onModel x) := ignoresCounts_within hx

end Node

section Solves

variable (hpure : engine.IsPure)
include hpure

namespace Node

theorem ignoresCounts_solveRealization (price : Option K) (k : ℕ) :
    IgnoresCounts (solveRealization engine price k) :=
  (ignoresCounts_onModel (Subproblem.isHeedless_setRealization _).respects).bind fun _ =>
    (isHeedless_setPrice price).respects.bind fun _ => ignoresCounts_part_bind fun _ =>
      (ignoresCounts_onModel (Subproblem.ignoresCounts_solve hpure _ _)).bind fun _ =>
        ignoresCounts_part_bind fun _ => (respects_ofExcept _).bind fun _ => respects_pure _

theorem ignoresCounts_solveAll (state : Option (List K)) (price : Option K) (weight : K) :
    IgnoresCounts (solveAll engine state price weight) :=
  ignoresCounts_part_bind fun _ =>
    (ignoresCounts_onModel (Subproblem.isHeedless_setIncoming _).respects).bind fun _ =>
      (Respects.mapM fun _ _ => ignoresCounts_part_bind fun _ => (respects_ofExcept _).bind fun _ =>
        (respects_ofExcept _).bind fun _ => Respects.mapM fun _ _ =>
          (ignoresCounts_solveRealization hpure _ _).bind fun _ => respects_pure _).bind fun _ =>
            respects_pure _

theorem ignoresCounts_decide (price : Option K) (realization : ℕ) :
    IgnoresCounts (Simulated.decide engine price realization) :=
  (ignoresCounts_onModel (Subproblem.isHeedless_setRealization _).respects).bind fun _ =>
    (isHeedless_setPrice price).respects.bind fun _ => ignoresCounts_part_bind fun _ =>
      (ignoresCounts_onModel (Subproblem.ignoresCounts_solve hpure _ _)).bind fun _ => respects_pure _

end Node

/-! ## Graphs -/

namespace PolicyGraph

omit [Numeral K] hpure in
theorem ignoresCounts_atNode (stage markov : ℤ) {x : Run K (Node K) A} (hx : IgnoresCounts x) :
    IgnoresCounts (atNode stage markov x) :=
  ignoresCounts_part_bind fun _ => (respects_ofExcept _).bind fun _ => ignoresCounts_within hx

theorem ignoresCounts_aggregateStage (stage : ℕ) (nodes : List (ℕ × K)) (state : Option (List K))
    (price : Option K) : IgnoresCounts (aggregateStage engine stage nodes state price) :=
  ((Respects.mapM fun _ _ => ignoresCounts_atNode _ _
    (Node.ignoresCounts_solveAll hpure state price _)).bind fun _ => respects_pure _).bind fun _ =>
      ignoresCounts_part_bind fun _ => respects_ofExcept _

theorem ignoresCounts_computeBound : IgnoresCounts (computeBound engine) :=
  ignoresCounts_part_bind fun _ =>
    (ignoresCounts_aggregateStage hpure _ _ _ _).bind fun _ => respects_pure _

theorem ignoresCounts_generateCut (n : Node K) (state : List K) (rib : Option K)
    (iteration : Option ℤ) : IgnoresCounts (generateCut engine n state rib iteration) :=
  ignoresCounts_part_bind fun _ => (ignoresCounts_aggregateStage hpure _ _ _ _).bind fun _ =>
    Respects.ite ((respects_throw _).bind fun _ => respects_pure _) (respects_pure _)

end PolicyGraph

namespace Recorded

theorem ignoresCounts_updateRib (n : Node K) (state : List K) (iteration : Option ℤ) (rib : Option K) :
    IgnoresCounts (updateRib engine n state iteration rib) :=
  (ignoresCounts_within (PolicyGraph.ignoresCounts_generateCut hpure n state rib iteration)).bind fun _ =>
    (ignoresCounts_change _).bind fun _ =>
      (ignoresCounts_within (ignoresCounts_ofStep _)).bind fun _ => respects_pure _

theorem ignoresCounts_backward (path : List ℤ) (states : List (List K)) (iteration : Option ℤ) :
    IgnoresCounts (backward engine path states iteration) :=
  ignoresCounts_part_bind fun _ => (Respects.mapM fun _ _ => ignoresCounts_part_bind fun _ =>
    (respects_ofExcept _).bind fun _ => (respects_ofExcept _).bind fun _ =>
      Respects.mapM fun _ _ => ignoresCounts_updateRib hpure _ _ _ _).bind fun _ => respects_pure _

end Recorded

/-! ## Passes -/

namespace Simulated

theorem ignoresCounts_visit (query : List String) (stage : ℕ) (previous : Option (ℕ × List K))
    (price : Option K) : IgnoresCounts (visit engine query stage previous price) := by
  have hatNode : ∀ (k : ℕ) {A : Type} {x : Run K (Node K) A}, IgnoresCounts x →
      IgnoresCounts (atNode stage k x) := fun k _ _ hx =>
    ignoresCounts_within (PolicyGraph.ignoresCounts_atNode _ _ hx)
  refine ignoresCounts_part_bind fun _ => (ignoresCounts_ofStep _).bind fun k =>
    ignoresCounts_part_bind fun _ => (respects_ofExcept _).bind fun n => ?_
  refine (hatNode k (Node.ignoresCounts_onModel (Subproblem.isHeedless_setIncoming _).respects)).bind fun _ =>
    (ignoresCounts_ofStep _).bind fun price => (ignoresCounts_ofStep _).bind fun realization => ?_
  exact (hatNode k (Node.ignoresCounts_decide hpure price realization)).bind fun _ =>
    ignoresCounts_part_bind fun _ => (respects_ofExcept _).bind fun _ => respects_ofExcept _

theorem ignoresCounts_forward (query : List String) : IgnoresCounts (forward engine query) := by
  have hvisits : ∀ stages count previous price,
      IgnoresCounts (visits engine query.eraseDups stages count previous price) := by
    intro stages count
    induction count with
    | zero => exact fun _ _ => respects_pure _
    | succ count ih =>
      exact fun previous price => (ignoresCounts_visit hpure _ _ previous price).bind fun _ =>
        (ih _ _).bind fun _ => respects_pure _
  exact ignoresCounts_part_bind fun _ => hvisits _ _ _ _

theorem ignoresCounts_passes (query : List String) (count : ℕ) :
    IgnoresCounts (passes engine query count) := by
  induction count with
  | zero => exact respects_pure _
  | succ count ih =>
    exact (ignoresCounts_forward hpure query).bind fun _ => ih.bind fun _ => respects_pure _

end Simulated

theorem Evaluation.ignoresCounts_run (plan : EvaluationPlan K) : IgnoresCounts (run engine plan) := by
  refine Respects.ite ((respects_throw _).bind fun _ => ?_) ?_
  all_goals
    refine (respects_ofExcept _).bind fun stream =>
      (ignoresCounts_within (Simulated.ignoresCounts_passes hpure _ _)).bind fun passes => ?_
    refine ignoresCounts_part_bind fun _ => Respects.ite ((respects_pure _).bind fun _ => ?_)
      ((respects_ofExcept _).map _ |>.bind fun _ => ?_)
    all_goals exact (respects_ofExcept _).bind fun _ => respects_pure _

end Solves

end DualDynamic
