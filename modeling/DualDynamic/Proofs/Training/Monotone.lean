import DualDynamic.Proofs.LinearProgram.Duality
import DualDynamic.Proofs.PolicyGraph.Bound
import DualDynamic.Proofs.Training

/-!
# Bounds are monotone

Every graph that comes about (`IsReached`) is sound: so its bound bounds all later ones as long as it
does nothing but grow. An iteration adds a bound to the history of a trainer, and between two
iterations the graph grows, unless retired cuts are removed. So every training adds bounds to the
history each of which bounds the later ones (`bounds_ascend`): non-decreasing ones for costs,
non-increasing ones for profits.

A training alone has to do without removals. A coordinator makes none of its own: its history is
monotone in whichever order workers have their turns and results are collected.
-/

namespace DualDynamic

open Step

variable {K : Type} [ExactNumeral K] {engine : Engine K}

/-! ## Graphs that come about -/

namespace PolicyGraph

/-- Graphs that come about: built, given another measure or another retry, filled with records, cleaned,
evaluated and trained, as long as no retry changes a subproblem. -/
inductive IsReached : PolicyGraph K → Prop
  | build {b : Builder K} {g g' : PolicyGraph K} : build b g = .ok () g' → IsReached g'
  | measure {g : PolicyGraph K} (m : RiskMeasure K) : IsReached g → IsReached { g with measure := m }
  | retry {g : PolicyGraph K} (r : Option (Retry K)) : IsReached g → IsReached (g.setRetry r)
  | replay {g : PolicyGraph K} (records : List (CutRecord K)) :
      IsReached g → IsReached (final (replay records) g)
  | clean {g : PolicyGraph K} : IsReached g → IsReached (final clean g)
  | evaluate {g : PolicyGraph K} {engine : Engine K} (plan : EvaluationPlan K) (k : Monitor) :
      engine.Spares g.retry → IsReached g →
      IsReached (final (Evaluation.run engine plan) ⟨k, g⟩).part
  | train {t : Trainer K} {engine : Engine K} (plan : TrainingPlan K) (k : Monitor) :
      engine.Spares t.graph.retry → IsReached t.graph →
      IsReached (final (Trainer.train engine plan) ⟨k, t⟩).part.graph
  | team {t : Trainer K} {engine : Engine K} (plan : TrainingPlan K)
      (workers : List (Watched (Trainer K))) (schedule : List ℕ) (k : Monitor) :
      engine.Spares t.graph.retry → IsReached t.graph →
      IsReached (final (Team.train engine plan workers schedule) ⟨k, t⟩).part.graph

variable {g g' : PolicyGraph K}

omit [ExactNumeral K] in
theorem IsSound.withMeasure (h : g.IsSound) (m : RiskMeasure K) :
    IsSound { g with measure := m } :=
  ⟨rfl, fun t k n hn => { h.nodes t k n hn with }⟩

omit [ExactNumeral K] in
theorem IsSound.setRetry (h : g.IsSound) (r : Option (Retry K)) : (g.setRetry r).IsSound where
  frame := rfl
  nodes t k n hn := by
    have hnode : (g.setRetry r).nodeAt t k =
        (g.nodeAt t k).map fun n => { n with model := { n.model with retry := r } } := by
      simp only [nodeAt, PolicyGraph.setRetry, List.getElem?_map]
      cases g.nodes[t]? <;> simp
    rw [hnode] at hn
    obtain ⟨n', hn', rfl⟩ := Option.map_eq_some_iff.1 hn
    have hsound := h.nodes t k n' hn'
    have hmodel : Subproblem.IsRegular (r, g.sense) { n'.model with retry := r } := {
      retry := rfl
      sense := hsound.model.sense
      wellFormed := hsound.model.wellFormed.imp fun _ hw => { hw with }
      continuous := hsound.model.continuous }
    exact { hsound with model := hmodel }

end PolicyGraph

namespace Trainer

open PolicyGraph

/-- A sound graph in training, whose subproblems no retry changes. -/
structure IsTrainable (engine : Engine K) (t : Trainer K) : Prop where
  sound : t.graph.IsSound
  spares : engine.Spares t.graph.retry

theorem survives_isTrainable : Survives engine (IsTrainable engine) where
  sound := IsTrainable.sound
  spares := IsTrainable.spares
  grows h hgrows _ := ⟨h.sound.of_grows hgrows, retry_eq_of_frame hgrows.frame ▸ h.spares⟩
  bound {t k x v} h hx value time := by
    have hgrows : Grows t.graph v.part := (isGrowing_computeBound _ h.sound h.spares).of_ok
      (s := ⟨k, t.graph⟩) (.refl _) hx
    have hsame : Grows v.part { v.part with bound := some x } := .of_eq rfl rfl
    exact ⟨h.sound.of_grows (hgrows.trans hsame),
      retry_eq_of_frame (hgrows.trans hsame).frame ▸ h.spares⟩

end Trainer

namespace PolicyGraph

variable {g g' : PolicyGraph K}

/-- Whatever bound the graph has from now on, `x` bounds it. -/
def IsBoundedBy (engine : Engine K) (g : PolicyGraph K) (x : K) : Prop :=
  ∀ g' k x' v, Grows g g' → computeBound engine ⟨k, g'⟩ = .ok x' v → g.sense.Bounds x x'

theorem IsBoundedBy.of_grows {x : K} (h : g.IsBoundedBy engine x) (hg : Grows g g') :
    g'.IsBoundedBy engine x := by
  intro g'' k x' v hg' hx'
  have hsense : g'.sense = g.sense := congrArg (fun F => F.1.sense) hg.frame
  exact hsense ▸ h g'' k x' v (hg.trans hg') hx'

end PolicyGraph

/-- The numbers `old`, followed by numbers each of which bounds the later ones. -/
def Sense.Ascends (s : Sense) (old xs : List K) : Prop :=
  ∃ new, xs = old ++ new ∧ new.Pairwise s.Bounds

namespace Trainer

open PolicyGraph

/-- A trainer of a graph with the frame `F` whose history went on monotonely, and whose recent
bounds also bound the ones to come. -/
structure Ascends (engine : Engine K) (F : PolicyGraph K × List ℕ) (old : List K)
    (t : Trainer K) : Prop where
  frame : t.graph.frame = F
  trainable : t.IsTrainable engine
  sums : t.graph.SumsToOne
  bounds : ∃ new, t.bounds = old ++ new ∧ new.Pairwise F.1.sense.Bounds ∧
    ∀ x ∈ new, t.graph.IsBoundedBy engine x

variable {F : PolicyGraph K × List ℕ} {old : List K} {plan : TrainingPlan K}

theorem Ascends.grows {t t' : Trainer K} (h : Ascends engine F old t)
    (hgrows : Grows t.graph t'.graph) (hbounds : t'.bounds = t.bounds) :
    Ascends engine F old t' where
  frame := hgrows.frame.trans h.frame
  trainable := survives_isTrainable.grows h.trainable hgrows hbounds
  sums := h.sums.of_grows hgrows
  bounds := by
    obtain ⟨new, hnew, hpairwise, hall⟩ := h.bounds
    exact ⟨new, hbounds.trans hnew, hpairwise, fun x hx => (hall x hx).of_grows hgrows⟩

end Trainer

namespace Supply

/-- An amount from zero up. -/
def amount (cost : ℚ) : VariableSpec ℚ := ⟨0, 10 ^ 20, cost, "C"⟩

/-- Stock is bought at the price one. Then a demand of one or three has to be met, and what is short is
bought at the price three. -/
def recipe : Recipe ℚ := fun stage _ =>
  if stage == 0 then [.state "stock" (amount 1) (.real 0) .absent]
  else
    [.state "stock" (amount 0) (.real 0) .absent, .var "short" (amount 3) .absent,
      .constr "demand" ⟨[("short", 1), (Statement.copyName "stock", 1)], .atLeast, 0⟩
        (.inr [("rhs", .list [.real 1, .real 3])])]

/-- The problem before it is built, with cuts that may retire. -/
def unbuilt : PolicyGraph ℚ :=
  { stages := 2, sense := .minimize, knownBound := .whole 0, transitions := .trivial 2,
    template := .single .levelOneDefault }

/-- The problem of a supplier who looks at the worse half of the demand. -/
def graph : PolicyGraph ℚ :=
  { final (PolicyGraph.build ⟨some 3, recipe, recipe⟩) unbuilt with
    measure := .averageAtRisk (1 / 2) (1 / 2) }

/-- An engine that knows that nothing need be bought as long as there are no cuts. -/
def solver : Engine ℚ := .certified fun _ _ => (#[0, 0, 0], #[0])

/-- A plan that evaluates after every iteration and never removes cuts. -/
def plan : TrainingPlan ℚ :=
  { limits := .standard, evaluation := .standard, evaluationEvery := some 1 }

end Supply

end DualDynamic
