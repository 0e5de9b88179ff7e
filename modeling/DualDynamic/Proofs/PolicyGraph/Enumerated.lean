import DualDynamic.Proofs.Node.Data

/-!
# Enumerating a stage

Solving the nodes of a stage enumerates all that can happen there, each with its weight and with a
program. The programs have the data of the nodes of any graph that is akin (`IsKin`): of one that was
used for something else in between, got further cuts, or lent its nodes to a retry that writes to
their programs.
-/

namespace DualDynamic

open Step

variable {K : Type} [Numeral K]

namespace PolicyGraph

variable {A B : Type} {g g' : PolicyGraph K} {engine : Engine K}

omit [Numeral K] in
theorem map_atNode (f : A → B) (stage markov : ℤ) (step : Run K (Node K) A) :
    f <$> atNode stage markov step = atNode stage markov (f <$> step) := by
  simp only [atNode, Run.within, map_bind, map_within]

/-- The entries of the nodes of a stage, given their probabilities, the incoming state and the price
of the stage before. -/
def observeStage (engine : Engine K) (stage : ℕ) (nodes : List (ℕ × K)) (state : Option (List K))
    (price : Option K) : Run K (PolicyGraph K) (List (Entry K)) := do
  let parts ← nodes.mapM fun (k, p) => atNode stage k (Node.observeAll engine state price p)
  return parts.flatten

/-- The node of the graph at a place, with other numbers in its program and perhaps more
constraints. -/
def Kept (g : PolicyGraph K) (t k : ℕ) (n' : Node K) : Prop :=
  ∃ n, g.nodeAt t k = some n ∧ Extends Set.univ n n'

/-- The graph `g'` has the nodes of `g`, but for the numbers in their programs and for further
constraints. -/
def IsKin (g g' : PolicyGraph K) : Prop := Holds g.frame (Kept g) g'

theorem IsKin.refl (g : PolicyGraph K) : IsKin g g := ⟨rfl, fun _ _ n hn => ⟨n, hn, .refl _ n⟩⟩

theorem isPlaced_kept (hg : g.IsSound) : IsPlaced (Kept g) := by
  rintro t k n' ⟨n, hn, hext⟩
  have hsound := hg.nodes t k n hn
  obtain ⟨m, pools, installed, price, -, rfl⟩ := Node.exists_of_outline hext.outline
  exact ⟨hsound.stage, hsound.markov⟩

theorem IsSound.of_isKin {K : Type} [ExactNumeral K] {g g' : PolicyGraph K} (hg : g.IsSound)
    (h : g.IsKin g') : g'.IsSound where
  frame := rfl
  nodes t k n' hn' := by
    obtain ⟨n, hn, hext⟩ := h.nodes t k n' hn'
    exact h.frame ▸ (hg.nodes t k n hn).extends hext

end PolicyGraph

end DualDynamic
