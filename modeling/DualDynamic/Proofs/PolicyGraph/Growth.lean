import DualDynamic.Proofs.CutGeneration
import DualDynamic.Proofs.PolicyGraph.Sound

/-!
# Growing graphs

A graph grows (`Grows`) if its nodes stay what they are, up to what they are set up for and up to
further constraints. Passes, evaluations and bounds, the generation of cuts and their installation
let a sound graph grow; only rebuilding a node does not.
-/

namespace DualDynamic

open Step

variable {K A : Type} [Numeral K]

namespace Node

variable {n n' n₀ : Node K}

/-- A cut that is installed adds a constraint or nothing. -/
theorem extends_installCut {D : Set Cell} {cut : Cut K} {rib : Option K} {state : Option (Datum K)}
    {new : Bool} (hn : Extends D n₀ n) (h : n.installCut cut rib state = .ok (new, n')) :
    Extends D n₀ n' := by
  obtain ⟨v, m, -, hinstall, rfl⟩ := installCut_eq_ok.1 h
  obtain ⟨-, i, pool, pool', -, -, -, hrow⟩ := CostToGo.installCut_eq_ok hinstall
  rcases CostToGo.installRow_cases { n.costToGo with pools := n.costToGo.pools.set i pool' } i cut
    n.model with ⟨heq, -⟩ | ⟨x, -, heq⟩
  · obtain ⟨rfl, rfl⟩ := Prod.mk.inj (hrow.trans heq)
    exact ⟨hn.outline, hn.program⟩
  · obtain ⟨rfl, rfl⟩ := Prod.mk.inj (hrow.trans heq)
    exact ⟨hn.outline, hn.program.addConstraint _⟩

end Node

namespace PolicyGraph

/-- The node of the graph at the place, perhaps set up for something else and with more
constraints. -/
def Grown (g : PolicyGraph K) (t k : ℕ) (n' : Node K) : Prop :=
  ∃ n, g.nodeAt t k = some n ∧ Extends n.cells n n'

/-- The graph `g'` comes from `g` by setting nodes up, solving them and adding constraints. -/
def Grows (g g' : PolicyGraph K) : Prop := Holds g.frame (Grown g) g'

variable {g g' g'' : PolicyGraph K} {engine : Engine K}

theorem Grows.refl (g : PolicyGraph K) : Grows g g := ⟨rfl, fun _ _ n hn => ⟨n, hn, .refl _ n⟩⟩

theorem Grows.trans (h : Grows g g') (h' : Grows g' g'') : Grows g g'' where
  frame := h'.frame.trans h.frame
  nodes t k n'' hn'' := by
    obtain ⟨n', hn', hext'⟩ := h'.nodes t k n'' hn''
    obtain ⟨n, hn, hext⟩ := h.nodes t k n' hn'
    rw [Node.cells_congr hext.outline] at hext'
    exact ⟨n, hn, hext.trans hext'⟩

theorem IsSound.of_grows (hg : g.IsSound) (h : Grows g g') : g'.IsSound where
  frame := rfl
  nodes t k n' hn' := by
    obtain ⟨n, hn, hext⟩ := h.nodes t k n' hn'
    exact h.frame ▸ (hg.nodes t k n hn).extends hext

omit [Numeral K] in
theorem retry_eq_of_frame (h : g'.frame = g.frame) : g'.retry = g.retry :=
  congrArg (fun F => F.1.retry) h

theorem isPlaced_grown (hg : g.IsSound) : IsPlaced (Grown g) := by
  rintro t k n' ⟨n, hn, hext⟩
  have hsound := (hg.nodes t k n hn).extends hext
  exact ⟨hsound.stage, hsound.markov⟩

theorem undisturbed_grown (hg : g.IsSound) (hspares : engine.Spares g.retry) :
    Undisturbed engine (Grown g) where
  placed := isPlaced_grown hg
  base := by
    rintro t k n' ⟨n, hn, -⟩
    have hsound := hg.nodes t k n hn
    obtain ⟨rows, hwell⟩ := hsound.model.wellFormed
    have hfrom : ∀ m, Grown g t k m → Extends n.cells n m := by
      rintro m ⟨n₁, hn₁, hext⟩
      rw [hn] at hn₁
      exact Option.some.inj hn₁ ▸ hext
    refine ⟨n, rows, hwell, hsound.model.retry ▸ hspares, fun m m' htouches hm => ?_,
      fun m hm => (hfrom m hm).outline⟩
    exact ⟨n, hn, isBlind_extends (subset_refl _) n m m' htouches (hfrom m hm)⟩

theorem accepts_grown (hg : g.IsSound) : Accepts (fun _ _ _ => True) (Grown g) where
  placed := isPlaced_grown hg
  installCut := fun ⟨n, hn, hext⟩ _ h => ⟨n, hn, Node.extends_installCut hext h⟩

theorem generates_grown (hg : g.IsSound) (hspares : engine.Spares g.retry) :
    Generates engine g.frame (Grown g) fun _ _ _ => True :=
  fun _ _ n state rib iteration _ =>
    (keeps_generateCut (undisturbed_grown hg hspares).steady n state rib iteration).weaken (fun _ => id)
      (fun _ _ hw => ⟨trivial, hw⟩) fun _ => id

/-! ## Steps that let a graph grow -/

/-- The step lets every sound graph grow, whether it fails or not. -/
def IsGrowing (engine : Engine K) {S : Type} (graph : S → PolicyGraph K) (x : Run K S A) : Prop :=
  ∀ g : PolicyGraph K, g.IsSound → engine.Spares g.retry → Keeps (fun w => Grows g (graph w.part)) x

theorem isGrowing_computeBound : IsGrowing engine id (computeBound engine) :=
  fun _ hg hspares => keeps_computeBound (undisturbed_grown hg hspares).steady

theorem isGrowing_simulation (stream : MersenneTwister) (query : List String) :
    IsGrowing engine id (Simulated.onGraph stream (Simulated.forward engine query)) :=
  fun _ hg hspares => Simulated.keeps_onGraph _
    (Simulated.keeps_forward (undisturbed_grown hg hspares).steady query)

theorem isGrowing_evaluation (plan : EvaluationPlan K) :
    IsGrowing engine id (Evaluation.run engine plan) :=
  fun _ hg hspares => Evaluation.keeps_run (undisturbed_grown hg hspares).steady plan

theorem isGrowing_backward (path : List ℤ) (states : List (List K)) (iteration : Option ℤ) :
    IsGrowing engine Recorded.graph (Recorded.backward engine path states iteration) :=
  fun _ hg hspares => (Recorded.ensures_backward (accepts_grown hg) (generates_grown hg hspares) path
    states iteration).weaken (fun _ => id) (fun _ _ hw => hw.2) fun _ => id

end PolicyGraph

end DualDynamic
