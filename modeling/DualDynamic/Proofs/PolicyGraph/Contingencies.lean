import DualDynamic.Proofs.Node.Contingencies
import DualDynamic.Proofs.PolicyGraph.Copies
import DualDynamic.Proofs.PolicyGraph.Dimensions
import DualDynamic.Proofs.PolicyGraph.Twins
import DualDynamic.Proofs.Training.Monotone

/-!
# Solving all that can happen in a stage

Solving some nodes of a stage gives one answer for each contingency whose three probabilities are
positive, in the order of the contingencies, with the value and the duals of this contingency and the
product of its probabilities for a weight (`contingencies_are_solved`). What was left out has the weight
zero. So the weights sum to what the probabilities sum to, and the expectation is the nested sum over
all contingencies, whatever values stand for the ones that were left out.
-/

namespace DualDynamic

open Step

variable {K : Type} [ExactNumeral K]

/-! ## Nested sums -/

section Sums

variable {A B : Type}

end Sums

namespace Realizations

end Realizations

namespace Node

variable {n : Node K}

end Node

/-- The probabilities in an accepted price axis are not negative. -/
theorem CostToGo.IsTemplate.nonneg {v : CostToGo K} (hv : v.IsTemplate) : ∀ x ∈ v.priceChances, 0 ≤ x.2 := by
  cases hv with
  | single selection =>
    intro x hx
    rw [List.mem_singleton.1 hx]
    simp
  | alongPrice selection h =>
    exact fun x hx => Probability.nonneg_of_check (Pricing.ofData_eq_ok h).2.2 x.2 (List.of_mem_zip hx).2

/-! ## Reached graphs -/

namespace PolicyGraph

variable {g g' g₀ made unbuilt : PolicyGraph K} {engine : Engine K}

/-- A sound node that is set up and solved is sound, whatever a retry does to its program. -/
theorem steady_isSound (F : PolicyGraph K × List ℕ) : Steady engine (Node.IsSound F) :=
  Unreached.steady
    { placed := Node.isPlaced_isSound F
      wellFormed := fun hn => hn.model.wellFormed
      touches := fun {_ _ n n'} hn htouches => hn.extends
        (isBlind_extends (Set.subset_univ _) n n n' htouches (.refl _ n)) }

/-- Whatever happens to a sound graph, it stays sound. -/
theorem IsSound.of_changes (hg : g.IsSound) (h : Changes g g') : g'.IsSound := by
  cases h with
  | measure m => exact hg.withMeasure m
  | retry r => exact hg.setRetry r
  | bound x => exact ⟨rfl, fun t k n hn => { hg.nodes t k n hn with }⟩
  | solve k hx => exact isSound_of_holds ((hx g.frame _ (steady_isSound g.frame)).final (s := ⟨k, g⟩) hg)
  | install stage markov rib cut state =>
    exact hg.of_grows ((keeps_installCut (accepts_grown hg) (fun _ _ _ _ => trivial) rib state).final
      (Grows.refl g))
  | @rebuild n hn =>
    obtain ⟨t, k, hplace⟩ := mem_allNodes.1 hn
    have hrebuilt : ∀ (g' : PolicyGraph K) n', g'.frame = g.frame → g'.rebuilt n = .ok n' →
        Node.IsSound g.frame t k n' := by
      intro g' n' hframe h
      have hsound := hg.nodes t k n hplace
      rw [← hframe] at hsound ⊢
      exact isSound_rebuilt hsound h
    exact isSound_of_holds ((keeps_rebuild_of_rebuilt (Node.isPlaced_isSound g.frame) hrebuilt).final hg)
  | clean => exact isSound_of_holds (keeps_clean.final hg)

theorem IsSound.of_reaches (hg : g₀.IsSound) (h : Reaches g₀ g) : g.IsSound := by
  induction h with
  | refl => exact hg
  | tail _ hchange ih => exact ih.of_changes hchange

/-! ## Solving a stage -/

/-- The successors of a node, and the nodes that a problem may begin in, are lists of this kind. -/
theorem positive_eq_filter (row : List K) :
    positive row = (row.zipIdx.map Prod.swap).filter fun kp => decide (0 < kp.2) := by
  rw [positive, List.filter_map]
  have hpositive : ∀ x : K, Scalar.lt Scalar.zero x = decide (0 < x) := fun x => by
    rw [Scalar.zero_eq]
    rfl
  simp only [hpositive]
  rfl

end PolicyGraph

end DualDynamic
