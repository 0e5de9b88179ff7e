import DualDynamic.Cut

/-!
# Cut records

A record is a cut together with the place where it belongs: stage, Markov state and, if the
cost-to-go is interpolated along a price, the rib. Records are how cuts travel, between processes
and through files. A receiver keeps what it knows and takes only what is new to it, each record
once and in order of arrival.
-/

namespace DualDynamic

/-- A cut and its place. -/
structure CutRecord (K : Type) where
  stage : Int
  markov : Int
  rib : Option K
  cut : Cut K
  deriving Repr

namespace CutRecord

variable {K : Type} [Scalar K]

/-- Equality of ribs, either of which may be missing. -/
def sameRib : Option K → Option K → Bool
  | none, none => true
  | some a, some b => Scalar.eq a b
  | _, _ => false

/-- Whether two records put the same cut at the same place. -/
def same (a b : CutRecord K) : Bool :=
  a.stage == b.stage && a.markov == b.markov && sameRib a.rib b.rib && a.cut.same b.cut

/-- Whether the same record is in the list. -/
def isIn (r : CutRecord K) (known : List (CutRecord K)) : Bool := known.any r.same

/-- The known records with one more, unless it is among them. -/
def learn (known : List (CutRecord K)) (r : CutRecord K) : List (CutRecord K) :=
  if r.isIn known then known else known ++ [r]

/-- The known records with more of them, each distinct one once. -/
def learnAll (known records : List (CutRecord K)) : List (CutRecord K) :=
  records.foldl learn known

/-- The records that are neither known nor repeated, in order, after some that were seen. -/
def freshAfter (known : List (CutRecord K)) : List (CutRecord K) → List (CutRecord K) →
    List (CutRecord K)
  | _, [] => []
  | seen, r :: rs =>
    if r.isIn known || r.isIn seen then freshAfter known seen rs
    else r :: freshAfter known (r :: seen) rs

/-- The records that are not known, in order and without repetition. -/
def fresh (records known : List (CutRecord K)) : List (CutRecord K) := freshAfter known [] records

end CutRecord

end DualDynamic
