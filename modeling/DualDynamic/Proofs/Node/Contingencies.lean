import DualDynamic.Proofs.Node.Data
import DualDynamic.Proofs.Node.Twins
import DualDynamic.Proofs.PolicyGraph.Bare
import DualDynamic.Proofs.Probability

/-!
# What can happen behind a node

A contingency is a successor, a realization of its price noise and one of the noise of its program, each
with its probability. All contingencies are listed here, impossible ones included, by position and not
by value: equal successors, equal realizations and equal probabilities count as often as they occur.

Solving a node skips what is impossible, the price noise and the realizations by two different tests, and
gives an answer for each of the remaining contingencies in their order (`ensures_isAnswered`). The
answer is the one of a twin of the node that has the data for the state, the price and the realization
(`IsAnswer`).
-/

namespace DualDynamic

open Step

variable {K : Type}

/-! ## Contingencies -/

/-- Positions of a successor, of a realization of its price noise and of one of the noise of its
program, what is found there, and the three probabilities. -/
structure Contingency (K : Type) where
  successor : ℕ
  noise : ℕ
  realization : ℕ
  markov : ℕ
  drawn : Datum K
  ofSuccessor : K
  ofNoise : K
  ofRealization : K

namespace Contingency

def position (c : Contingency K) : ℕ × ℕ × ℕ := (c.successor, c.noise, c.realization)

variable [ExactNumeral K]

def weight (c : Contingency K) : K := c.ofSuccessor * c.ofNoise * c.ofRealization

end Contingency

section Lists

variable {A B C : Type} {R : B → C → Prop} {keep : B → Bool}

end Lists

/-- The realizations of the price noise and their probabilities; without a price axis there is nothing to
be drawn. -/
def CostToGo.priceChances [Numeral K] (v : CostToGo K) : List (Datum K × K) :=
  match v.pricing with
  | none => [(.absent, Scalar.one)]
  | some p => List.zip p.noise p.probability

namespace Node

variable [ExactNumeral K] {n n₀ : Node K} {engine : Engine K} {rows : ℕ}

section Run

variable (hwell : n₀.model.WellFormed rows) (state : List K)
include hwell

end Run

end Node

end DualDynamic
