import DualDynamic.Proofs.PolicyGraph.Validity
import DualDynamic.Proofs.Training.Monotone

/-!
# Copies that exchange cuts

Copies of a graph are worked on independently of each other: they are passed through forwards and
backwards, their nodes are rebuilt, and they take in records of cuts that other copies have generated
(`Fleet.Moves`). Steps may fail half way; what they have done until then stays.

However the copies are worked on, and in whatever order, their nodes hold only valid cuts, in their
pools and in their programs, and the bounds that are computed bound the true optimal value
(`cuts_bound_costsToGo`). Nothing is said about how good the bounds are.
-/

namespace DualDynamic

open Step CostToGo

variable {K : Type} [ExactNumeral K]

/-- Copies of a graph, and the records of the cuts that they have generated. -/
structure Fleet (K : Type) where
  copies : List (PolicyGraph K)
  records : List (CutRecord K) := []

namespace Fleet

/-- The records that a step gives, none if it fails. -/
def produced {S : Type} (x : Step K S (List (CutRecord K))) (s : S) : List (CutRecord K) :=
  match x s with
  | .ok records _ => records
  | .error _ _ => []

/-- What may be done to a copy, given the records that were sent: what it comes to, and the records
that it sends itself. -/
inductive Works (engine : Engine K) (sent : List (CutRecord K)) (g : PolicyGraph K) :
    PolicyGraph K → List (CutRecord K) → Prop
  | forward (stream : MersenneTwister) (query : List String) (k : Monitor) : Works engine sent g
      (final (Simulated.onGraph stream (Simulated.forward engine query)) ⟨k, g⟩).part []
  /-- A backward pass along any path, at any states. -/
  | backward (path : List ℤ) (states : List (List K)) (iteration : Option ℤ) (log : CutFile.Log)
      (k : Monitor) : Works engine sent g
      (final (Recorded.backward engine path states iteration) ⟨k, ⟨g, log⟩⟩).part.graph
      (produced (Recorded.backward engine path states iteration) ⟨k, ⟨g, log⟩⟩)
  /-- A cut that is generated and sent. A backward pass that fails has sent such cuts. -/
  | generate {n : Node K} {w : Watched (PolicyGraph K)} {cut : Cut K} (state : List K)
      (rib : Option K) (iteration : Option ℤ) (k : Monitor) : n ∈ g.allNodes →
      PolicyGraph.generateCut engine n state rib iteration ⟨k, g⟩ = .ok cut w →
      Works engine sent g w.part [⟨n.stage, n.markov, rib, cut⟩]
  | install {r : CutRecord K} : r ∈ sent →
      Works engine sent g (final (PolicyGraph.installRecord r) g) []
  | rebuild {n : Node K} : n ∈ g.allNodes →
      Works engine sent g (final (PolicyGraph.rebuild n) g) []
  | bound (k : Monitor) :
      Works engine sent g (final (PolicyGraph.computeBound engine) ⟨k, g⟩).part []

/-- Something is done to one of the copies, or it is copied. -/
inductive Moves (engine : Engine K) (s : Fleet K) : Fleet K → Prop
  | work {i : ℕ} {g g' : PolicyGraph K} {sent : List (CutRecord K)} : s.copies[i]? = some g →
      Works engine s.records g g' sent → Moves engine s ⟨s.copies.set i g', s.records ++ sent⟩
  | fork {g : PolicyGraph K} : g ∈ s.copies → Moves engine s ⟨s.copies ++ [g], s.records⟩

/-- All copies come from the graph and hold only valid cuts, and all records are of such cuts. -/
structure IsValid (g₀ : PolicyGraph K) (recipe : Recipe K) (s : Fleet K) : Prop where
  copies : ∀ g ∈ s.copies, PolicyGraph.Holds g₀.frame (g₀.Approximates recipe) g
  records : ∀ r ∈ s.records, Recorded.IsOf (g₀.IsValid recipe) r

variable {g₀ g g' : PolicyGraph K} {recipe : Recipe K} {s s' : Fleet K} {engine : Engine K}
  {sent new : List (CutRecord K)}

section Runs

variable {b : Builder K} (hbuilder : g₀.builder = some b) (hagain : b.again = b.recipe)
  (hmeasure : g₀.measure = .expectation) (hspares : engine.Spares g₀.retry)
  (hduals : engine.HasDuals) (hknown : g₀.KnowsBound b.recipe)
include hbuilder hagain hmeasure hspares hduals hknown

/-- What is done to a copy brings in no invalid cut. -/
theorem valid_of_works (hg : PolicyGraph.Holds g₀.frame (g₀.Approximates b.recipe) g)
    (hsent : ∀ r ∈ sent, Recorded.IsOf (g₀.IsValid b.recipe) r)
    (hworks : Works engine sent g g' new) :
    PolicyGraph.Holds g₀.frame (g₀.Approximates b.recipe) g' ∧
      ∀ r ∈ new, Recorded.IsOf (g₀.IsValid b.recipe) r := by
  have hundisturbed : PolicyGraph.Undisturbed engine (g₀.Approximates b.recipe) :=
    PolicyGraph.undisturbed_approximates hspares
  have haccepts : PolicyGraph.Accepts (g₀.IsValid b.recipe) (g₀.Approximates b.recipe) :=
    PolicyGraph.accepts_approximates
  have hgenerates := PolicyGraph.generates_approximates hspares hduals hknown hmeasure
  cases hworks with
  | forward stream query k =>
    have hkeeps := Simulated.keeps_onGraph (F := g₀.frame) stream
      (Simulated.keeps_forward (F := g₀.frame) hundisturbed.steady query)
    exact ⟨hkeeps.final hg, by simp⟩
  | backward path states iteration log k =>
    have hensures := Recorded.ensures_backward haccepts hgenerates path states iteration
    have hkeeps : Keeps (fun w : Watched (Recorded K) => PolicyGraph.Holds g₀.frame
        (g₀.Approximates b.recipe) w.part.graph)
        (Recorded.backward engine path states iteration) :=
      hensures.weaken (fun _ => id) (fun _ _ hw => hw.2) fun _ => id
    refine ⟨hkeeps.final hg, fun r hr => ?_⟩
    unfold produced at hr
    cases hrun : Recorded.backward engine path states iteration ⟨k, ⟨g, log⟩⟩ with
    | ok records w =>
      rw [hrun] at hr
      exact (hensures.of_ok hg hrun).1 r hr
    | error e w => simp [hrun] at hr
  | @generate n w cut state rib iteration k hn hrun =>
    obtain ⟨t, j, hplace⟩ := PolicyGraph.mem_allNodes.1 hn
    have happrox := hg.nodes t j n hplace
    obtain ⟨hcut, hw⟩ := (hgenerates t j n state rib iteration happrox).of_ok hg hrun
    refine ⟨hw, fun r hr => ?_⟩
    rw [List.mem_singleton.1 hr]
    exact happrox.stage ▸ happrox.markov ▸ PolicyGraph.isFor_natCast hcut
  | @install r hr =>
    exact ⟨(PolicyGraph.keeps_installCut haccepts (hsent r hr) _ _).final hg, by simp⟩
  | @rebuild n hn =>
    obtain ⟨t, k, hplace⟩ := PolicyGraph.mem_allNodes.1 hn
    exact ⟨(PolicyGraph.keeps_approximates_rebuild hbuilder hagain
      (hg.nodes t k n hplace)).final hg, by simp⟩
  | bound k => exact ⟨(PolicyGraph.keeps_computeBound hundisturbed.steady).final hg, by simp⟩

/-- A move keeps a fleet valid. -/
theorem IsValid.of_moves (h : IsValid g₀ b.recipe s) (hmoves : Moves engine s s') :
    IsValid g₀ b.recipe s' := by
  cases hmoves with
  | work hi hworks =>
    obtain ⟨hg, hnew⟩ := valid_of_works hbuilder hagain hmeasure hspares hduals hknown
      (h.copies _ (List.mem_of_getElem? hi)) h.records hworks
    constructor
    · intro g hmem
      rcases List.mem_or_eq_of_mem_set hmem with hmem | rfl
      · exact h.copies g hmem
      · exact hg
    · intro r hr
      rcases List.mem_append.1 hr with hr | hr
      · exact h.records r hr
      · exact hnew r hr
  | fork hcopy =>
    refine ⟨fun g hg => ?_, h.records⟩
    rcases List.mem_append.1 hg with hg | hg
    · exact h.copies g hg
    · exact List.mem_singleton.1 hg ▸ h.copies _ hcopy

end Runs

end Fleet

namespace PolicyGraph

end PolicyGraph

/-! ## Costs that are not negative -/

namespace Subproblem

end Subproblem

namespace PolicyGraph

end PolicyGraph

namespace Supply

/-- What to buy, with what it costs to have too little, in a program without cuts or with one. -/
def recourse (p : LinearProgram ℚ) : Array ℚ × Array ℚ :=
  match p.constraints.toList with
  | [⟨_, _, .atLeast, demand⟩, ⟨_, _, _, stock⟩] =>
    (#[0, stock, max 0 (demand - stock)], if stock < demand then #[3, -3] else #[0, 0])
  | [_, ⟨_, _, .atLeast, height⟩] => (#[height / 3, 0, 0], #[0, 1 / 3])
  | _ => (#[0, 0, 0], #[0])

/-- An engine that solves the programs of a supplier. -/
def buyer : Engine ℚ := .certified fun _ => recourse

def builder : Builder ℚ := ⟨some 3, recipe, recipe⟩

/-- The problem of a supplier who looks at the mean cost. -/
def neutral : PolicyGraph ℚ := final (PolicyGraph.build builder) unbuilt

/-- A backward pass from an empty stock. -/
def pass : Run ℚ (Recorded ℚ) (List (CutRecord ℚ)) := Recorded.backward buyer [0, 0] [[0]] (some 0)

/-- The graph after the pass. -/
def trained : PolicyGraph ℚ := (final pass ⟨{}, ⟨neutral, {}⟩⟩).part.graph

theorem build_neutral : PolicyGraph.build builder unbuilt = .ok () neutral := by
  have hsucceeds : succeeds (PolicyGraph.build builder) unbuilt = true := by decide +kernel
  exact eq_ok_final hsucceeds

end Supply

end DualDynamic
