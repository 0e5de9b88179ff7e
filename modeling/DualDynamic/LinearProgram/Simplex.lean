import DualDynamic.LinearProgram
import DualDynamic.LinearProgram.System

/-!
# The simplex method

A solver for linear programs over floats, by the primal simplex method with bounded variables on a
dense tableau. Every constraint gets a slack variable whose bounds express its relation, so that
all constraints are equations. Variables outside the basis stand at one of their bounds, or at zero
if they have none.

The first phase moves the basic variables between their bounds by lowering the sum of their
violations, the second one improves the objective. When the method has found an optimal basis,
values and duals are computed anew from the data of the program by elimination, so that rounding
in the tableau does not reach the answer.

The tableau never holds the values of basic variables: they are computed from it in each round, so
that a huge bound that a variable leaves behind leaves no trace.
-/

namespace DualDynamic.Simplex

open LinearSystem

/-! ## Programs in computational form -/

/-- A program with equations only: variables first, then one slack variable per constraint. -/
structure Form where
  rows : Nat
  columns : Nat
  /-- Coefficients of the variables, row by row. -/
  matrix : FloatArray
  rhs : FloatArray
  /-- Costs to be minimized, of variables and slacks. -/
  cost : FloatArray
  lower : FloatArray
  upper : FloatArray

/-- No bound above. -/
def infinity : Float := 1.0 / 0.0

/-- The bounds of the slack variable of a constraint. -/
def slackBounds : Relation → Float × Float
  | .equal => (0.0, 0.0)
  | .atMost => (0.0, infinity)
  | .atLeast => (-infinity, 0.0)

/-- A vector of floats from a list. -/
def vector (xs : List Float) : FloatArray := ⟨xs.toArray⟩

/-- The computational form of a program. -/
def Form.ofProgram (p : LinearProgram Float) : Form :=
  let n := p.vars.size
  let m := p.constraints.size
  let vars := p.vars.toList
  let constraints := p.constraints.toList
  let slacks := constraints.map fun c => slackBounds c.relation
  let sign := match p.sense with
    | .minimize => 1.0
    | .maximize => -1.0
  let matrix := (constraints.zipIdx).foldl (fun body (c, i) =>
    c.terms.foldl (fun body (j, a) => if j < n then body.set! (i * n + j) a else body) body)
    (zeros (m * n))
  { rows := m
    columns := n
    matrix := matrix
    rhs := vector (constraints.map Constraint.rhs)
    cost := vector (vars.map (fun v => sign * v.cost) ++ slacks.map fun _ => 0.0)
    lower := vector (vars.map (fun v => v.lower.getD (-infinity)) ++ slacks.map Prod.fst)
    upper := vector (vars.map (fun v => v.upper.getD infinity) ++ slacks.map Prod.snd) }

/-- Whether some variable has no value between its bounds. -/
def Form.crossed (f : Form) : Bool :=
  (List.range (f.columns + f.rows)).any fun j => f.upper.get! j < f.lower.get! j

/-! ## Tableaus -/

/-- Where a variable outside the basis stands. -/
inductive Place where
  | lower
  | upper
  | zero
  deriving Repr, DecidableEq, Inhabited

/-- The basic variables as affine functions of the others: the variable of row `i` is `rhs i` minus
the sum of `body i j` times the variable of column `j`. -/
structure Tableau where
  body : FloatArray
  rhs : FloatArray
  basic : Array Nat
  nonbasic : Array Nat
  place : Array Place

/-- The place of a variable at the start: its lower bound if it has one. -/
def startPlace (f : Form) (j : Nat) : Place :=
  if (f.lower.get! j).isFinite then .lower
  else if (f.upper.get! j).isFinite then .upper
  else .zero

/-- The tableau with the slack variables in the basis. -/
def Tableau.start (f : Form) : Tableau :=
  { body := f.matrix
    rhs := f.rhs
    basic := (Array.range f.rows).map (f.columns + ·)
    nonbasic := Array.range f.columns
    place := (Array.range f.columns).map (startPlace f) }

/-- The value of a variable outside the basis. -/
def standing (f : Form) (place : Place) (j : Nat) : Float :=
  match place with
  | .lower => f.lower.get! j
  | .upper => f.upper.get! j
  | .zero => 0.0

/-- The values of the variables of all columns. -/
def Tableau.columnValues (f : Form) (t : Tableau) : FloatArray :=
  (List.range f.columns).foldl (fun xs j =>
    xs.push (standing f (t.place.getD j .zero) (t.nonbasic.getD j 0))) FloatArray.empty

/-- The sum of a row's coefficients times values, and the sum of the sizes of its terms. -/
def rowSums (body values : FloatArray) (start : Nat) :
    Nat → Nat → Float → Float → Float × Float
  | 0, _, total, size => (total, size)
  | left + 1, j, total, size =>
    let term := body.get! (start + j) * values.get! j
    rowSums body values start left (j + 1) (total + term) (size + term.abs)

/-- The values of the basic variables, and how large the terms are that they are made of. -/
def Tableau.rowValues (f : Form) (t : Tableau) : FloatArray × FloatArray :=
  let values := t.columnValues f
  (List.range f.rows).foldl (fun (xs, sizes) i =>
    let b := t.rhs.get! i
    let (total, size) := rowSums t.body values (i * f.columns) f.columns 0 0.0 b.abs
    (xs.push (b - total), sizes.push size)) (FloatArray.empty, FloatArray.empty)

/-- Violations up to this size count as none. -/
def tolerance : Float := 1e-9

/-- The share of the size of terms that rounding may take. -/
def rounding : Float := 1e-14

/-- Pivots below this size are not used. -/
def leastPivot : Float := 1e-9

/-- The sides on which the basic variables violate their bounds: `-1` below, `1` above, else `0`. -/
def violations (f : Form) (t : Tableau) (values sizes : FloatArray) : FloatArray :=
  (List.range f.rows).foldl (fun xs i =>
    let x := values.get! i
    let slack := tolerance + rounding * sizes.get! i
    let k := t.basic.getD i 0
    xs.push (if x < f.lower.get! k - slack then -1.0
      else if f.upper.get! k + slack < x then 1.0 else 0.0)) FloatArray.empty

/-- The sum of a column's coefficients times weights, and the sum of the sizes of its terms. -/
def columnSums (body weights : FloatArray) (width j : Nat) :
    Nat → Nat → Float → Float → Float × Float
  | 0, _, total, size => (total, size)
  | left + 1, i, total, size =>
    let w := weights.get! i
    if w == 0.0 then columnSums body weights width j left (i + 1) total size
    else
      let term := body.get! (i * width + j) * w
      columnSums body weights width j left (i + 1) (total + term) (size + term.abs)

/-- The column that enters the basis, whether its variable grows, and how steep it is. -/
structure Entering where
  column : Nat
  grows : Bool
  steepness : Float

/-- The slope of a column: how the current goal changes with its variable, and how far rounding may
have moved it. In the first phase the goal is the sum of the violations. -/
def slope (f : Form) (t : Tableau) (first : Bool) (weights : FloatArray) (j : Nat) :
    Float × Float :=
  let (total, size) := columnSums t.body weights f.columns j f.rows 0 0.0 0.0
  if first then (-total, size)
  else
    let c := f.cost.get! (t.nonbasic.getD j 0)
    (c - total, size + c.abs)

/-- The column as a candidate to enter, if moving its variable improves the goal. -/
def candidate (f : Form) (t : Tableau) (first : Bool) (weights : FloatArray) (j : Nat) :
    Option Entering :=
  let k := t.nonbasic.getD j 0
  if f.lower.get! k == f.upper.get! k then none
  else
    let (d, size) := slope f t first weights j
    let slack := tolerance + rounding * size
    match t.place.getD j .zero with
    | .lower => if d < -slack then some ⟨j, true, -d⟩ else none
    | .upper => if slack < d then some ⟨j, false, d⟩ else none
    | .zero =>
      if d < -slack then some ⟨j, true, -d⟩
      else if slack < d then some ⟨j, false, d⟩ else none

/-- The column to enter: the steepest one, or the one whose variable comes first if `careful`. -/
def chooseEntering (f : Form) (t : Tableau) (first careful : Bool) (weights : FloatArray) :
    Option Entering :=
  (List.range f.columns).foldl (fun best j =>
    match candidate f t first weights j, best with
    | none, _ => best
    | some c, none => some c
    | some c, some b =>
      let ahead := if careful then t.nonbasic.getD j 0 < t.nonbasic.getD b.column 0
        else b.steepness < c.steepness
      if ahead then some c else best) none

/-- The row whose variable stops the move, at which of its bounds, after which distance, and the
size of the pivot. -/
structure Blocking where
  row : Nat
  place : Place
  distance : Float
  pivot : Float

/-- How row `i` limits the move of the entering variable. A violated variable stops at the bound
that it violates. -/
def limit (f : Form) (t : Tableau) (values sides : FloatArray) (e : Entering) (i : Nat) :
    Option Blocking :=
  let a := t.body.get! (i * f.columns + e.column)
  if a.abs < leastPivot then none
  else
    let rate := if e.grows then -a else a
    let x := values.get! i
    let k := t.basic.getD i 0
    let low := f.lower.get! k
    let high := f.upper.get! k
    let side := sides.get! i
    let stop := fun (place : Place) (distance : Float) =>
      some ⟨i, place, if distance < 0.0 then 0.0 else distance, a.abs⟩
    if side < 0.0 then if 0.0 < rate then stop .lower ((low - x) / rate) else none
    else if 0.0 < side then if rate < 0.0 then stop .upper ((high - x) / rate) else none
    else if rate < 0.0 then
      if low.isFinite then stop .lower ((low - x) / rate) else none
    else if high.isFinite then stop .upper ((high - x) / rate) else none

/-- The rows that limit the move. -/
def limits (f : Form) (t : Tableau) (values sides : FloatArray) (e : Entering) : List Blocking :=
  (List.range f.rows).filterMap (limit f t values sides e)

/-- The least distance among limits. -/
def leastDistance (bs : List Blocking) : Float :=
  bs.foldl (fun d b => if b.distance < d then b.distance else d) infinity

/-- The row to leave: among those that stop the move first, the one with the largest pivot and the
last of several such, or the one whose variable comes first if `careful`. -/
def chooseLeaving (t : Tableau) (careful : Bool) (bs : List Blocking) : Option Blocking :=
  let d := leastDistance bs
  let slack := 1e-11 * (1.0 + d.abs)
  (bs.filter fun b => b.distance ≤ d + slack).foldl (fun best b =>
    match best with
    | none => some b
    | some c =>
      let ahead := if careful then t.basic.getD b.row 0 < t.basic.getD c.row 0
        else c.pivot ≤ b.pivot
      if ahead then some b else best) none

/-! ## Moves -/

/-- The entries `j, j + 1, …` of the pivot row divided by the pivot. -/
def scaleRow (start : Nat) (pivot : Float) : Nat → Nat → FloatArray → FloatArray
  | 0, _, body => body
  | left + 1, j, body =>
    scaleRow start pivot left (j + 1) (body.set! (start + j) (body.get! (start + j) / pivot))

/-- The entries `j, j + 1, …` of a row less a multiple of the pivot row. -/
def reduceRow (start pivotStart : Nat) (factor : Float) : Nat → Nat → FloatArray → FloatArray
  | 0, _, body => body
  | left + 1, j, body =>
    let x := body.get! (start + j) - factor * body.get! (pivotStart + j)
    reduceRow start pivotStart factor left (j + 1) (body.set! (start + j) x)

/-- Rows `i, i + 1, …` but the pivot row less their multiple of it. -/
def reduceRows (width p q : Nat) (pivot : Float) : Nat → Nat → FloatArray → FloatArray →
    FloatArray × FloatArray
  | 0, _, body, rhs => (body, rhs)
  | left + 1, i, body, rhs =>
    let factor := body.get! (i * width + q)
    if i == p || factor == 0.0 then reduceRows width p q pivot left (i + 1) body rhs
    else
      let body := reduceRow (i * width) (p * width) factor width 0 body
      let body := body.set! (i * width + q) (-(factor / pivot))
      reduceRows width p q pivot left (i + 1) body (rhs.set! i (rhs.get! i - factor * rhs.get! p))

/-- Exchanges the variable of row `p`, which goes to a bound, with the variable of column `q`. -/
def Tableau.exchange (f : Form) (t : Tableau) (p q : Nat) (place : Place) : Tableau :=
  let width := f.columns
  let pivot := t.body.get! (p * width + q)
  let entering := t.nonbasic.getD q 0
  let leaving := t.basic.getD p 0
  match t with
  | ⟨body, rhs, basic, nonbasic, places⟩ =>
    let body := scaleRow (p * width) pivot width 0 body
    let rhs := rhs.set! p (rhs.get! p / pivot)
    let (body, rhs) := reduceRows width p q pivot f.rows 0 body rhs
    { body := body.set! (p * width + q) (1.0 / pivot)
      rhs := rhs
      basic := basic.set! p entering
      nonbasic := nonbasic.set! q leaving
      place := places.set! q place }

/-- The other bound. -/
def Place.opposite : Place → Place
  | .lower => .upper
  | .upper => .lower
  | .zero => .zero

/-- What a round of the method comes to. -/
inductive Round where
  | moved (t : Tableau)
  | optimal
  | infeasible
  | unbounded

/-- One move: a variable enters, and it or another one stops at a bound. -/
def Tableau.move (f : Form) (t : Tableau) (first careful : Bool) (values sides : FloatArray)
    (e : Entering) : Round :=
  let k := t.nonbasic.getD e.column 0
  let own := f.upper.get! k - f.lower.get! k
  let bs := limits f t values sides e
  if own.isFinite && own ≤ leastDistance bs then
    .moved { t with place := t.place.modify e.column Place.opposite }
  else
    match chooseLeaving t careful bs with
    | some b => .moved (t.exchange f b.row e.column b.place)
    | none => if first then .infeasible else .unbounded

/-- The costs of the basic variables. -/
def Tableau.basicCosts (f : Form) (t : Tableau) : FloatArray :=
  (List.range f.rows).foldl (fun cs i => cs.push (f.cost.get! (t.basic.getD i 0)))
    FloatArray.empty

/-- One round: the phase follows from whether a basic variable violates its bounds. -/
def Tableau.round (f : Form) (t : Tableau) (careful : Bool) : Round :=
  let (values, sizes) := t.rowValues f
  let sides := violations f t values sizes
  let first := (List.range f.rows).any fun i => sides.get! i != 0.0
  let weights := if first then sides else t.basicCosts f
  match chooseEntering f t first careful weights with
  | none => if first then .infeasible else .optimal
  | some e => t.move f first careful values sides e

/-- Rounds until the method ends; after a while it gets careful, which rules out cycles. -/
def run (f : Form) (patience : Nat) : Nat → Tableau → Round × Tableau
  | 0, t => (.moved t, t)
  | fuel + 1, t =>
    match t.round f (fuel < patience) with
    | .moved t => run f patience fuel t
    | r => (r, t)

/-! ## Solutions -/

/-- The variables in the basis, and the constraints whose slack is outside it. -/
structure Basis where
  inside : Array Nat
  tight : Array Nat

/-- The basis of a tableau. -/
def Tableau.basis (f : Form) (t : Tableau) : Basis :=
  { inside := t.basic.filter (· < f.columns)
    tight := (t.nonbasic.filter (f.columns ≤ ·)).map (· - f.columns) }

/-- The values of the variables, with those in the basis at zero. -/
def Tableau.resting (f : Form) (t : Tableau) : FloatArray :=
  (List.range f.columns).foldl (fun xs j =>
    let k := t.nonbasic.getD j 0
    if k < f.columns then xs.set! k (standing f (t.place.getD j .zero) k) else xs)
    (zeros f.columns)

/-- The equations for the variables in the basis. -/
def Basis.primalSystem (b : Basis) (f : Form) (rest : FloatArray) : System :=
  let n := b.inside.size
  let entries := b.tight.foldl (fun es i =>
    b.inside.foldl (fun es j => es.push (f.matrix.get! (i * f.columns + j))) es) FloatArray.empty
  let rhs := b.tight.foldl (fun bs i =>
    bs.push (f.rhs.get! i - (rowSums f.matrix rest (i * f.columns) f.columns 0 0.0 0.0).1))
    FloatArray.empty
  ⟨n, entries, rhs⟩

/-- The equations for the duals of the tight constraints. -/
def Basis.dualSystem (b : Basis) (f : Form) (costs : FloatArray) : System :=
  let n := b.inside.size
  let entries := b.inside.foldl (fun es j =>
    b.tight.foldl (fun es i => es.push (f.matrix.get! (i * f.columns + j))) es) FloatArray.empty
  let rhs := b.inside.foldl (fun cs j => cs.push (costs.get! j)) FloatArray.empty
  ⟨n, entries, rhs⟩

/-- Writes values at positions. -/
def scatter (positions : Array Nat) (values target : FloatArray) : FloatArray :=
  (positions.toList.zipIdx).foldl (fun xs (k, i) => xs.set! k (values.get! i)) target

/-- The solution that belongs to the basis of a tableau, computed from the data of the program. -/
def Tableau.solution (p : LinearProgram Float) (f : Form) (t : Tableau) :
    Option (Solution Float) := do
  let b := t.basis f
  let rest := t.resting f
  let costs := vector (p.vars.toList.map Variable.cost)
  let inside ← (b.primalSystem f rest).solve
  let duals ← (b.dualSystem f costs).solve
  let primal := scatter b.inside inside rest
  let value := (List.range f.columns).foldl
    (fun total j => total + costs.get! j * primal.get! j) 0.0
  return ⟨value, primal.data, (scatter b.tight duals (zeros f.rows)).data⟩

/-- How many rounds a program may take. -/
def fuelFor (f : Form) : Nat := 1000 + 40 * (f.rows + f.columns)

/-- The status of a run that was given up. -/
def gaveUp : Nat := 7

/-- The outcome of a program. A program that is both infeasible and unbounded is infeasible. -/
def solve (p : LinearProgram Float) : Outcome Float :=
  let f := Form.ofProgram p
  if f.crossed then .infeasible
  else
    let fuel := fuelFor f
    let (r, t) := run f (fuel / 2) fuel (Tableau.start f)
    match r with
    | .optimal =>
      match t.solution p f with
      | some s => .optimal s
      | none => .other gaveUp
    | .infeasible => .infeasible
    | .unbounded => .unbounded
    | .moved _ => .other gaveUp

end DualDynamic.Simplex
