import DualDynamic.Proofs.Subproblem.Decision
import DualDynamic.PolicyGraph

/-!
# Costs of policies

What the multistage program of a graph costs, without any approximation. A policy decides at every node
it comes to, knowing the incoming state and the realization. Its costs from there on are the objective
of the decision and the mean of its costs at the successors, weighted by the transition probabilities
and by the probabilities of their realizations.

The sets here hold the expected costs of all policies. The true cost-to-go and the true optimal value
are their optima, and these obey the equations of dynamic programming (`isOptimum_means`,
`Subproblem.isOptimum_costs`).
-/

namespace DualDynamic

variable {K A : Type} [ExactNumeral K]

/-! ## Means -/

/-- The weighted means of numbers, one chosen for each item. -/
def means (choices : A → Set K) : List (A × K) → Set K
  | [] => {0}
  | (a, weight) :: items => {c | ∃ x ∈ choices a, ∃ y ∈ means choices items, weight * x + y = c}

/-- What bounds all choices in the sum bounds their means. -/
theorem bounds_means {B : Type} {s : Sense} {choices : A → Set K} {φ : B → K} (factor : K)
    {items : List (A × K)} {bs : List B}
    (h : List.Forall₂ (fun e b => ∀ x ∈ choices e.1, s.Bounds (φ b) (factor * (e.2 * x))) items bs) :
    ∀ c ∈ means choices items, s.Bounds (bs.map φ).sum (factor * c) := by
  induction h with
  | nil =>
    rintro c rfl
    simpa using s.bounds_refl 0
  | cons hb _ ih =>
    rintro c ⟨x, hx, y, hy, rfl⟩
    rw [mul_add, List.map_cons, List.sum_cons]
    exact (hb x hx).add (ih y hy)

/-- The optimum of the means is the mean of the optima. -/
theorem isOptimum_means {s : Sense} {choices : A → Set K} {v : A → K} {items : List (A × K)}
    (hpos : ∀ e ∈ items, 0 < e.2) (h : ∀ e ∈ items, s.IsOptimum (choices e.1) (v e.1)) :
    s.IsOptimum (means choices items) (items.map fun e => e.2 * v e.1).sum := by
  induction items with
  | nil => exact Sense.isOptimum_of_mem rfl fun w hw => hw ▸ s.bounds_refl 0
  | cons e items ih =>
    have hrest := ih (fun e he => hpos e (by simp [he])) fun e he => h e (by simp [he])
    rw [List.map_cons, List.sum_cons]
    exact (h e (by simp)).add_mul (hpos e (by simp)) hrest

/-! ## Decisions -/

namespace Subproblem

variable {m : Subproblem K} {s : Sense} {behind : List K → Set K} {Q : List K → K} {x : List K}
  {k : ℕ} {v : K}

/-- The costs of decisions have the optimum that is found with the optima of what comes behind. -/
theorem isOptimum_costs (hQ : ∀ y, (behind y).Nonempty → s.IsOptimum (behind y) (Q y)) :
    s.IsOptimum (m.costs behind x k) v ↔ s.IsOptimum {c | ∃ p y, m.IsSetUp x k p ∧ p.Feasible y ∧
      (behind (m.states.map y)).Nonempty ∧ p.objective y + Q (m.states.map y) = c} v := by
  refine Sense.isOptimum_congr fun b => ⟨?_, ?_⟩
  · rintro h c ⟨p, y, hp, hy, hnonempty, rfl⟩
    exact (hQ _ hnonempty).bounds_add fun f hf => h _ ⟨p, y, f, hp, hy, hf, rfl⟩
  · rintro h c ⟨p, y, f, hp, hy, hf, rfl⟩
    exact (h _ ⟨p, y, hp, hy, ⟨f, hf⟩, rfl⟩).trans
      ((s.bounds_refl _).add ((hQ _ ⟨f, hf⟩).bounds hf))

/-- The realizations that can happen, and their probabilities. -/
def chances (m : Subproblem K) : Except (Fault K) (List (ℕ × K)) := do
  let weights ← m.scenarioProbability
  return (weights.zipIdx.filter fun (p, _) => Scalar.ne p Scalar.zero).map fun (p, k) => (k, p)

end Subproblem

/-! ## Policies -/

namespace PolicyGraph

variable (g : PolicyGraph K) (recipe : Recipe K)

/-- The expected costs at a stage and a Markov state, given the costs of what comes behind. Without an
incoming state the stage begins at its initial values. -/
def costsAt (t k : ℕ) (behind : List K → Set K) (x : Option (List K)) : Set K :=
  {c | ∃ m items, g.newModel recipe t k = .ok m ∧ m.chances = .ok items ∧
    c ∈ means (m.costs behind (x.getD m.initialValues)) items}

/-- The expected costs behind a stage and a Markov state, which leave a state behind, if there are
`remaining` more stages. -/
def costsFrom : ℕ → ℕ → ℕ → List K → Set K
  | 0, _, _, _ => {0}
  | remaining + 1, t, k, x =>
    means (fun j => g.costsAt recipe (t + 1) j (costsFrom remaining (t + 1) j) (some x))
      (positive (g.transitions.row (t + 1) k))

/-- The expected costs of all that can be done behind a stage and a Markov state. -/
def costsToGo (t k : ℕ) : List K → Set K := g.costsFrom recipe (g.stages - 1 - t) t k

variable {g recipe}

/-- Behind the last stage nothing costs anything. -/
theorem costsToGo_last {t : ℕ} (ht : t + 1 = g.stages) (k : ℕ) (x : List K) :
    g.costsToGo recipe t k x = {0} := by
  rw [costsToGo, show g.stages - 1 - t = 0 by omega, costsFrom]

/-- Costs-to-go, one stage further. -/
theorem costsToGo_eq {t : ℕ} (ht : t + 1 < g.stages) (k : ℕ) (x : List K) :
    g.costsToGo recipe t k x =
      means (fun j => g.costsAt recipe (t + 1) j (g.costsToGo recipe (t + 1) j) (some x))
        (positive (g.transitions.row (t + 1) k)) := by
  rw [costsToGo, show g.stages - 1 - t = (g.stages - 1 - (t + 1)) + 1 by omega, costsFrom]
  rfl

end PolicyGraph

end DualDynamic
