import DualDynamic.Step

/-!
# Probabilities

Probability vectors of scenarios and transition matrices of Markov chains, as they are accepted
from a user: no entry is negative, and the sum, rounded to four decimals, is one.

A chain of matrices has one matrix per stage. The first one has a single row, the distribution of
the first stage; each further one has a row for every column of the one before.
-/

namespace DualDynamic

variable {K : Type} [Numeral K]

namespace Probability

/-- Whether numbers are a distribution. -/
def isDistribution (xs : List K) : Bool :=
  !(xs.any fun x => Scalar.lt x Scalar.zero) &&
    Scalar.eq (Scalar.roundFour (Scalar.sum xs)) Scalar.one

/-- Equal probabilities. -/
def uniform (n : Nat) : List K := List.replicate n (Scalar.one / Scalar.ofNat n)

/-- The probabilities of `n` scenarios; equal ones if none are given. -/
def check (p : Datum K) (n : Nat) : Except ProbabilityFault (List K) :=
  match p with
  | .absent => .ok (uniform n)
  | d => do
    let block ← d.block.mapError .unreadable
    match block.shape with
    | [] => throw (.unreadable .kind)
    | [m] =>
      if m != n then throw (.size m n)
      if isDistribution block.entries then return block.entries else throw .total
    | m :: _ => throw (.size m n)

end Probability

/-- A transition matrix: a row of probabilities for each state that is left. -/
abbrev Matrix (K : Type) : Type := List (List K)

/-- The transition matrices of a chain and the numbers of states that they lead to. -/
structure Transitions (K : Type) where
  matrices : List (Matrix K)
  sizes : List Nat
  deriving Repr

namespace Transitions

/-- A chain with a single state in each of `T` stages. -/
def trivial (T : Nat) : Transitions K :=
  ⟨List.replicate T [[Scalar.one]], List.replicate T 1⟩

/-- The matrix of a stage, and its width, if it has `rows` rows of probabilities. -/
def checkMatrix (stage rows : Nat) (d : Datum K) : Except (Fault K) (Matrix K × Nat) := do
  let block ← d.block.mapError Unreadable.fault
  let [m, width] := block.shape | throw (.transition (.shape stage))
  if m != rows then throw (.transition (.shape stage))
  if block.entries.any fun x => Scalar.lt x Scalar.zero then throw (.transition .negative)
  if block.rows.all Probability.isDistribution then return (block.rows, width)
  else throw (.transition .total)

/-- The matrices from a stage on, the first of which has `rows` rows. -/
def checkFrom : Nat → Nat → List (Datum K) → Except (Fault K) (Transitions K)
  | _, _, [] => .ok ⟨[], []⟩
  | stage, rows, d :: ds => do
    let (matrix, width) ← checkMatrix stage rows d
    let rest ← checkFrom (stage + 1) width ds
    return ⟨matrix :: rest.matrices, width :: rest.sizes⟩

/-- The transition matrices of `T` stages; a single state per stage if none are given. -/
def check (d : Datum K) (T : Int) : Except (Fault K) (Transitions K) :=
  match d with
  | .absent => .ok (trivial T.toNat)
  | d =>
    match d.items? with
    | none => .error .badType
    | some items =>
      if (items.length : Int) == T then checkFrom 0 1 items
      else .error (.transition (.count items.length T))

/-- The row of probabilities with which a state of stage `t` is left for stage `t + 1`, or with
which the first stage is entered. -/
def row (c : Transitions K) (stage state : Nat) : List K :=
  (c.matrices.getD stage []).getD state []

end Transitions

end DualDynamic
