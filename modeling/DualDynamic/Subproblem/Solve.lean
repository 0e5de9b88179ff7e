import DualDynamic.Subproblem.Setup

/-!
# Solving a subproblem

Only an optimal solution is an answer. If a solver cannot tell infeasible from unbounded, it is
asked again without reductions. An infeasible subproblem is a fault of its own kind; for any other
outcome the retry, if there is one, is asked once, and may have the subproblem solved once more.
-/

namespace DualDynamic.Subproblem

variable {K : Type}

/-- Has the program solved as it is, and keeps status and solution. -/
def optimize (engine : Engine K) : Run K (Subproblem K) (Outcome K) := do
  let w ← get
  let outcome := engine.solve w.monitor.calls w.part.reductions w.part.program
  set { w with
    monitor := { w.monitor with calls := w.monitor.calls + 1 }
    part := { w.part with status := outcome.status, solution := outcome.solution? } }
  return outcome

/-- Switches the reductions of the solver on or off. -/
def setReductions (on : Bool) : Run K (Subproblem K) Unit :=
  Run.change fun m => { m with reductions := on }

/-- Has the program solved so that infeasible and unbounded programs are told apart. -/
def optimizeDecided (engine : Engine K) : Run K (Subproblem K) (Outcome K) := do
  match ← optimize engine with
  | .infeasibleOrUnbounded =>
    setReductions false
    let outcome ← optimize engine
    setReductions true
    return outcome
  | outcome => return outcome

/-- Asks the retry about a status: performs its actions and returns its answer. -/
def askRetry [Scalar K] (status : Nat) : Run K (Subproblem K) Bool := do
  match (← Run.part).retry with
  | none => return false
  | some retry =>
    Run.count fun k => { k with asked := k.asked ++ [status] }
    Step.each retry.actions (Action.perform (.real Scalar.zero))
    return retry.answer

/-- The optimal value of the subproblem as it is set up. -/
def solve [Scalar K] (engine : Engine K) (stage markov : Option Int) :
    Run K (Subproblem K) K := do
  let title := (← Run.part).title
  match ← optimizeDecided engine with
  | .optimal s => return s.value
  | .infeasible => throw (.infeasible title stage markov)
  | outcome =>
    if ← askRetry outcome.status then
      match ← optimize engine with
      | .optimal s => return s.value
      | again => throw (.solver title again.status)
    else throw (.solver title outcome.status)

/-! ## The solution -/

/-- The solution of the last solve. There is none if the program has grown since. -/
def currentSolution (m : Subproblem K) : Except (Fault K) (Solution K) :=
  match m.solution with
  | some s => .ok s
  | none => .error .refusedAttribute

/-- The value of a variable in the last solution. -/
def valueOf (m : Subproblem K) (i : Nat) : Except (Fault K) K := do
  match (← m.currentSolution).primal[i]? with
  | some x => return x
  | none => throw .refusedAttribute

/-- The values of variables in the last solution. -/
def valuesOf (m : Subproblem K) (is : List Nat) : Except (Fault K) (List K) :=
  is.mapM m.valueOf

/-- The optimal value of the last solve. -/
def objective (m : Subproblem K) : Except (Fault K) K := m.currentSolution.map Solution.value

/-- The duals of the linking constraints: how the optimal value changes with the incoming
state. -/
def stateDuals (m : Subproblem K) : Except (Fault K) (List K) :=
  m.links.mapM fun row => do
    match (← m.currentSolution).dual[row]? with
    | some x => return x
    | none => throw .refusedAttribute

/-- A number moved between the bounds of a variable. -/
def clip [Scalar K] (v : Variable K) (x : K) : K :=
  let x := match v.lower with
    | some low => Scalar.max x low
    | none => x
  match v.upper with
  | some high => Scalar.min x high
  | none => x

/-- The outgoing state of the last solution, moved between the bounds of the state variables. -/
def outgoing [Scalar K] (m : Subproblem K) : Except (Fault K) (List K) :=
  m.states.mapM fun i => do
    let x ← m.valueOf i
    match m.program.vars[i]? with
    | some v => return clip v x
    | none => return x

end DualDynamic.Subproblem
