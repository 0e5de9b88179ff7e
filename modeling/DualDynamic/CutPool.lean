import DualDynamic.Cut

/-!
# Cut pools

A pool stores the cuts of one cost-to-go, each once and in order of arrival, and says which of
them are active. It keeps either every cut active, or only those that are best at a state where a
cut was generated.

Best means highest for lower bounds and lowest for upper bounds; a value within a relative
tolerance of the best one ties with it. The pool follows the best value at each tracked state and
the set of cuts that attain it: a new cut competes at the states tracked so far, a new state ranks
the cuts stored so far. As long as no state has been tracked, every cut is active.
-/

namespace DualDynamic

/-- Which cuts of a pool are active. -/
inductive Selection (K : Type) where
  /-- All of them. -/
  | keepAll
  /-- Those that are best at a tracked state, up to a relative tolerance. -/
  | levelOne (tolerance : K)
  deriving Repr

namespace Selection

variable {K : Type}

/-- Whether cuts may be retired. -/
def prunes : Selection K → Bool
  | keepAll => false
  | levelOne _ => true

/-- The selection by dominance with the usual tolerance. -/
def levelOneDefault [Scalar K] : Selection K :=
  levelOne (Scalar.one / Scalar.ofInt 1000000000)

end Selection

/-- A state at which a cut was generated, the best value of the cuts there and the positions of the
cuts that attain it, in increasing order. -/
structure Tracked (K : Type) where
  state : List K
  value : K
  best : List Nat
  deriving Repr

/-- The cuts of one cost-to-go. -/
structure CutPool (K : Type) where
  selection : Selection K
  /-- The number of state variables, fixed by the first cut if not given. -/
  dimension : Option Nat
  cuts : List (Cut K) := []
  /-- For each cut the number of tracked states at which it is best. -/
  counts : List Int := []
  tracked : List (Tracked K) := []
  deriving Repr

namespace CutPool

variable {K : Type}

/-- A pool without cuts. -/
def empty (selection : Selection K) (dimension : Option Nat) : CutPool K :=
  { selection, dimension }

/-- The number of stored cuts. -/
def size (p : CutPool K) : Nat := p.cuts.length

/-- The name of the selection in descriptions. -/
def selectionName : Selection K → String
  | .keepAll => "DefaultCutOracle"
  | .levelOne _ => "LevelOneCutOracle"

/-- The description of a pool. -/
def describe (p : CutPool K) : String :=
  "<" ++ selectionName p.selection ++ " with " ++ toString p.size ++ " cuts>"

section Scalars

variable [Scalar K]

/-- Whether the same cut is stored. -/
def contains (p : CutPool K) (c : Cut K) : Bool := p.cuts.any c.same

/-! ## Comparing values -/

/-- Whether two values tie: their distance is within the tolerance, relative to the largest of one
and the two sizes. -/
def ties (tolerance a b : K) : Bool :=
  Scalar.le (Scalar.abs (a - b))
    (tolerance * Scalar.max (Scalar.max Scalar.one (Scalar.abs a)) (Scalar.abs b))

/-- Whether the first value is better than the second one and does not tie with it. -/
def better (tolerance : K) (side : Side) (a b : K) : Bool :=
  !ties tolerance a b &&
    match side with
    | .atLeast => Scalar.lt b a
    | .atMost => Scalar.lt a b

/-- The best of the values, the first one among equals. -/
def bestOf (side : Side) : List K → Option K
  | [] => none
  | v :: vs =>
    some <| vs.foldl (fun a b => match side with
      | .atLeast => Scalar.max a b
      | .atMost => Scalar.min a b) v

/-! ## Competition -/

/-- Adds `step` to the counts at the given positions. -/
def adjust (step : Int) (positions : List Nat) (counts : List Int) : List Int :=
  counts.mapIdx fun i n => if positions.contains i then n + step else n

/-- The cut at position `i` competes at one tracked state. A better cut takes the place of all best
ones, a tying one joins them. -/
def challenge (tolerance : K) (i : Nat) (c : Cut K) (counts : List Int) (t : Tracked K) :
    List Int × Tracked K :=
  let value := c.evaluate t.state
  if better tolerance c.side value t.value then
    (adjust 1 [i] (adjust (-1) t.best counts), { t with value := value, best := [i] })
  else if ties tolerance value t.value then
    (adjust 1 [i] counts, { t with best := t.best ++ [i] })
  else (counts, t)

/-- The cut at position `i` competes at the tracked states, one after the other. -/
def competeAt (tolerance : K) (i : Nat) (c : Cut K) :
    List Int → List (Tracked K) → List Int × List (Tracked K)
  | counts, [] => (counts, [])
  | counts, t :: ts =>
    let (counts, t) := challenge tolerance i c counts t
    let (counts, ts) := competeAt tolerance i c counts ts
    (counts, t :: ts)

/-- A new cut at the end of the pool competes at every tracked state. -/
def addCompeting (tolerance : K) (c : Cut K) (p : CutPool K) : CutPool K :=
  let (counts, tracked) := competeAt tolerance p.size c (p.counts ++ [0]) p.tracked
  { p with cuts := p.cuts ++ [c], counts, tracked }

/-- The positions of the values that tie with the best one. -/
def tyingAt (tolerance best : K) (values : List K) : List Nat :=
  (List.range values.length).filter fun i =>
    match values[i]? with
    | some v => ties tolerance v best
    | none => false

/-- A newly tracked state ranks the cuts stored so far. -/
def track (tolerance : K) (state : List K) (p : CutPool K) : CutPool K :=
  let values := p.cuts.map fun c => c.evaluate state
  match p.cuts.head?.bind fun c => bestOf c.side values with
  | none => p
  | some value =>
    let best := tyingAt tolerance value values
    { p with
      tracked := p.tracked ++ [⟨state, value, best⟩]
      counts := adjust 1 best p.counts }

/-! ## Storing -/

/-- The dimension is fixed by the first cut; a cut of another dimension is refused. -/
def checkCut (p : CutPool K) (c : Cut K) : Except (Fault K) (CutPool K) :=
  let dimension := p.dimension.getD c.dimension
  if c.dimension == dimension then .ok { p with dimension := some dimension }
  else .error (.cutDimension c.dimension (some dimension))

/-- Stores a cut that may compete, at a state that may be tracked. The answer says whether the cut
is new. -/
def storeAt (p : CutPool K) (c : Cut K) (state : Option (List K)) :
    Except (Fault K) (Bool × CutPool K) := do
  let p ← p.checkCut c
  let new := !p.contains c
  match p.selection with
  | .keepAll => return (new, if new then { p with cuts := p.cuts ++ [c] } else p)
  | .levelOne tolerance =>
    let p := if new then p.addCompeting tolerance c else p
    return (new, match state with
      | none => p
      | some x => p.track tolerance x)

/-! ## Activity -/

/-- Whether the pool tells active cuts from retired ones now. -/
def isSelective (p : CutPool K) : Bool := p.selection.prunes && !p.tracked.isEmpty

/-- Whether the cut at a position is best at some tracked state. -/
def isBest (p : CutPool K) (i : Nat) : Bool :=
  match p.counts[i]? with
  | some n => 0 < n
  | none => false

/-- The positions of the active cuts. -/
def activePositions (p : CutPool K) : List Nat :=
  (List.range p.size).filter fun i => !p.isSelective || p.isBest i

/-- The active cuts, in order of arrival. -/
def active (p : CutPool K) : List (Cut K) := p.activePositions.filterMap fun i => p.cuts[i]?

end Scalars

/-- A state as it was handed in, for a pool that tracks states: it must be a vector with one entry
per state variable. A pool that keeps all cuts does not look at states. -/
def readState [Numeral K] (p : CutPool K) (c : Cut K) (state : Datum K) :
    Except (Fault K) (Option (List K)) :=
  if p.selection.prunes then do
    let block ← state.block.mapError Unreadable.fault
    let dimension := p.dimension.getD c.dimension
    if block.shape == [dimension] then return some block.entries
    else throw (.stateDimension block.entries.length dimension)
  else return none

/-- Stores a cut, given the state at which it was generated. -/
def store [Numeral K] (p : CutPool K) (c : Cut K) (state : Option (Datum K)) :
    Except (Fault K) (Bool × CutPool K) := do
  let state ← match state with
    | none => pure none
    | some d => p.readState c d
  p.storeAt c state

end CutPool

end DualDynamic
