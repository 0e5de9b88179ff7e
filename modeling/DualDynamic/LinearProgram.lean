import DualDynamic.Fault

/-!
# Linear programs

A linear program as it is built step by step: variables with bounds and costs, constraints that
compare a linear expression with a number. Variables and constraints are named by their
position, which never changes; data can be overwritten at any time.

A solver is any function from programs to outcomes. `Engine` bundles it with what else a
run takes from outside: the time that passes and the confidence intervals of simulated values.
-/

namespace DualDynamic

/-- How a constraint compares its expression with its right hand side. -/
inductive Relation where
  | equal
  | atMost
  | atLeast
  deriving Repr, DecidableEq

/-- The relation with this symbol. -/
def Relation.ofText? : String → Option Relation
  | "==" => some equal
  | "=" => some equal
  | "<=" => some atMost
  | ">=" => some atLeast
  | _ => none

/-- A decision variable. A missing bound means that there is none on that side. -/
structure Variable (K : Type) where
  name : String
  lower : Option K
  upper : Option K
  cost : K
  /-- Whether only some of the numbers between the bounds are allowed. -/
  integral : Bool := false
  deriving Repr

/-- A linear constraint: positions of variables with their coefficients, each position once. -/
structure Constraint (K : Type) where
  name : String
  terms : List (Nat × K)
  relation : Relation
  rhs : K
  deriving Repr

/-- A linear program. -/
structure LinearProgram (K : Type) where
  sense : Sense
  vars : Array (Variable K) := #[]
  constraints : Array (Constraint K) := #[]
  deriving Repr

namespace LinearProgram

variable {K : Type}

/-! ## Building -/

/-- The program with one more variable. -/
def addVariable (p : LinearProgram K) (v : Variable K) : LinearProgram K :=
  { p with vars := p.vars.push v }

/-- The program with one more constraint. -/
def addConstraint (p : LinearProgram K) (c : Constraint K) : LinearProgram K :=
  { p with constraints := p.constraints.push c }

/-- The program with a variable changed. -/
def changeVariable (i : Nat) (f : Variable K → Variable K) (p : LinearProgram K) :
    LinearProgram K :=
  { p with vars := p.vars.modify i f }

/-- The program with a constraint changed. -/
def changeConstraint (i : Nat) (f : Constraint K → Constraint K) (p : LinearProgram K) :
    LinearProgram K :=
  { p with constraints := p.constraints.modify i f }

/-- Overwrites the cost of a variable. -/
def setCost (i : Nat) (cost : K) : LinearProgram K → LinearProgram K :=
  changeVariable i fun v => { v with cost := cost }

/-- Overwrites the lower bound of a variable. -/
def setLower (i : Nat) (lower : Option K) : LinearProgram K → LinearProgram K :=
  changeVariable i fun v => { v with lower := lower }

/-- Overwrites the upper bound of a variable. -/
def setUpper (i : Nat) (upper : Option K) : LinearProgram K → LinearProgram K :=
  changeVariable i fun v => { v with upper := upper }

/-- Overwrites the right hand side of a constraint. -/
def setRhs (i : Nat) (rhs : K) : LinearProgram K → LinearProgram K :=
  changeConstraint i fun c => { c with rhs := rhs }

/-- A term overwritten, or added behind the others. -/
def putTerm (i : Nat) (a : K) : List (Nat × K) → List (Nat × K)
  | [] => [(i, a)]
  | (j, b) :: rest => if j == i then (i, a) :: rest else (j, b) :: putTerm i a rest

/-- Overwrites the coefficient of a variable in a constraint. -/
def setCoefficient (c i : Nat) (a : K) : LinearProgram K → LinearProgram K :=
  changeConstraint c fun row => { row with terms := putTerm i a row.terms }

section Scalars

variable [Scalar K]

/-- Adds a coefficient to the one that a variable has already. -/
def addTerm (terms : List (Nat × K)) (i : Nat) (a : K) : List (Nat × K) :=
  match terms.lookup i with
  | some b => putTerm i (b + a) terms
  | none => putTerm i a terms

/-- Terms with every variable once; coefficients of the same variable are added up. -/
def collect (terms : List (Nat × K)) : List (Nat × K) :=
  terms.foldl (fun done (i, a) => addTerm done i a) []

/-- The coefficient of a variable in a constraint; zero if it does not occur. -/
def coefficient (p : LinearProgram K) (c i : Nat) : K :=
  ((p.constraints[c]?.bind fun row => row.terms.lookup i)).getD Scalar.zero

/-- Bounds of this size mean that there is none. -/
def boundLimit : K := Scalar.ofNat (Nat.pow 10 20)

/-- A lower bound, unless it is as good as none. -/
def lowerBound (x : K) : Option K := if Scalar.le x (-boundLimit) then none else some x

/-- An upper bound, unless it is as good as none. -/
def upperBound (x : K) : Option K := if Scalar.le boundLimit x then none else some x

end Scalars

end LinearProgram

/-! ## Solving -/

/-- An optimal solution: its value, the value of every variable, and for every constraint how the
optimal value changes with the right hand side. -/
structure Solution (K : Type) where
  value : K
  primal : Array K
  dual : Array K
  deriving Repr

/-- What a solver finds out about a program. -/
inductive Outcome (K : Type) where
  | optimal (solution : Solution K)
  | infeasible
  | infeasibleOrUnbounded
  | unbounded
  | other (status : Nat)
  deriving Repr

namespace Outcome

variable {K : Type}

/-- The status code of an outcome. -/
def status : Outcome K → Nat
  | optimal _ => 2
  | infeasible => 3
  | infeasibleOrUnbounded => 4
  | unbounded => 5
  | other n => n

/-- The solution, if there is one. -/
def solution? : Outcome K → Option (Solution K)
  | optimal s => some s
  | _ => none

end Outcome

/-- What a run takes from outside. -/
structure Engine (K : Type) where
  /-- The outcome of the `call`-th program to be solved. Reductions may be switched off, after
  which a solver can tell infeasible from unbounded programs. -/
  solve (call : Nat) (reductions : Bool) (program : LinearProgram K) : Outcome K
  /-- The time spent on an iteration. -/
  elapsed (iteration : Nat) : K
  /-- The interval around the mean of several values at a confidence in percent. -/
  interval (values : List K) (percentile : K) : Except (Fault K) (K × K)

end DualDynamic
