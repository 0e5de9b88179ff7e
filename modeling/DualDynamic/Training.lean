import DualDynamic.CutGeneration
import DualDynamic.Evaluation
import DualDynamic.Training.Stopping

/-!
# Training

A trainer improves the policy of a graph iteration by iteration. An iteration is a simulated pass
and a backward pass at the states that it left behind; then the bound on the optimal value is
computed, the policy is evaluated if that is due, and the stopping rules are looked at. The
stream of an iteration depends on its number alone, so that a training that was stopped goes on
as if it had not been.

A trainer knows the records of the cuts that it has put into its graph. Records from elsewhere are
put in only if they are not known.
-/

namespace DualDynamic

/-- How a graph is trained. -/
structure TrainingPlan (K : Type) where
  limits : Limits K
  /-- The policy is evaluated after every so many iterations, if at all. -/
  evaluationEvery : Option Int := none
  evaluation : EvaluationPlan K
  /-- Retired cuts are removed after every so many iterations, if at all. -/
  cleanEvery : Option Int := none
  /-- Whether new cuts are written to the cut file. -/
  writes : Bool := false

/-- A graph in training. -/
structure Trainer (K : Type) where
  graph : PolicyGraph K
  /-- The bound after every iteration. -/
  bounds : List K := []
  /-- The value of the simulated pass of every iteration. -/
  values : List K := []
  iteration : Nat := 0
  stopReason : Option (StopReason K) := none
  time : K
  /-- The records of the cuts that were put into the graph. -/
  known : List (CutRecord K) := []
  log : CutFile.Log := {}
  /-- The number of iterations in a row that left the bound as it was. -/
  stable : Nat := 0
  /-- The gap of the last evaluation. -/
  gap : Option K := none

/-- A step that an interruption ends early, without a fault. -/
def Run.untilInterrupted {K S : Type} (step onInterrupt : Run K S Unit) : Run K S Unit := fun w =>
  match step w with
  | .error .interrupted w => onInterrupt w
  | r => r

/-- A step after which, whether it fails or not, the part is changed. -/
def Run.andThen {K S A : Type} (step : Run K S A) (f : S → S) : Run K S A := fun w =>
  match step w with
  | .ok a w => .ok a { w with part := f w.part }
  | .error e w => .error e { w with part := f w.part }

namespace Trainer

variable {K A : Type} [Numeral K]

/-- A trainer that has not begun. -/
def start (graph : PolicyGraph K) : Trainer K := { graph, time := Scalar.zero }

/-- The description of a trainer. -/
def describe (t : Trainer K) : String :=
  "<SDDP solver instance, " ++ toString t.iteration ++ " iterations>"

/-! ## Steps on parts -/

/-- A step on the graph. -/
def onGraph (step : Run K (PolicyGraph K) A) : Run K (Trainer K) A :=
  Run.within Trainer.graph (fun g t => { t with graph := g }) step

/-- A step on the graph and the cut file. -/
def onRecorded (step : Run K (Recorded K) A) : Run K (Trainer K) A :=
  Run.within (fun t => ⟨t.graph, t.log⟩)
    (fun r t => { t with graph := r.graph, log := r.log }) step

/-! ## Records -/

/-- Writes a record, puts it into the graph and makes it known. -/
def installRecord (r : CutRecord K) : Run K (Trainer K) Unit := do
  onRecorded (Recorded.write r)
  let _ ← onGraph (Run.ofStep (PolicyGraph.installRecord r))
  Run.change fun t => { t with known := CutRecord.learn t.known r }

/-- Puts the records that are not known into the graph, and says which ones they are. -/
def installRecords (records : List (CutRecord K)) : Run K (Trainer K) (List (CutRecord K)) := do
  let fresh := CutRecord.fresh records (← Run.part).known
  Step.each fresh installRecord
  return fresh

/-- A step whose records go to a new cut file, and the text of that file. -/
def recording (step : Run K (Trainer K) A) : Run K (Trainer K) (A × String) := fun w =>
  let log := w.part.log
  let opened := { w with part := { w.part with log := { isOpen := true } } }
  match step opened with
  | .ok a w => .ok (a, w.part.log.text) { w with part := { w.part with log } }
  | .error f w => .error f { w with part := { w.part with log } }

/-! ## An iteration -/

/-- A backward pass. Its records become known when it is complete. -/
def backward (engine : Engine K) (path : List Int) (states : List (List K)) (iteration : Int) :
    Run K (Trainer K) (List (CutRecord K)) := do
  let records ← onRecorded (Recorded.backward engine path states (some iteration))
  Run.change fun t => { t with known := CutRecord.learnAll t.known records }
  return records

/-- A simulated pass and a backward pass at the states that it leaves behind. The value of the pass
and the records of the cuts are the result. -/
def passes (engine : Engine K) (stream : MersenneTwister) (iteration : Int) :
    Run K (Trainer K) (K × List (CutRecord K)) := do
  let pass ← onGraph (Simulated.onGraph stream (Simulated.forward engine []))
  let records ← backward engine pass.path pass.states iteration
  return (pass.value, records)

/-- Whether something that is done every so many iterations is due. -/
def isDue (every : Option Int) (iteration : Nat) : Except (Fault K) Bool :=
  match every with
  | none => .ok false
  | some n => if n == 0 then .error .zeroDivision else .ok ((iteration : Int) % n == 0)

/-- Removes retired cuts from the programs, if that is due. -/
def cleanIfDue (every : Option Int) (iteration : Nat) : Run K (Trainer K) Unit := do
  if ← Step.ofExcept (isDue every iteration) then onGraph (Run.ofStep PolicyGraph.clean)

/-- The history with one more iteration. -/
def addIteration (bound value time : K) (t : Trainer K) : Trainer K :=
  { t with
    bounds := t.bounds ++ [bound]
    values := t.values ++ [value]
    iteration := t.iteration + 1
    time := t.time + time
    stable := match t.bounds.getLast? with
      | some last => if Scalar.eq last bound then t.stable + 1 else 0
      | none => 0
    graph := { t.graph with bound := some bound } }

/-- Evaluates the policy, if that is due. -/
def evaluateIfDue (engine : Engine K) (plan : TrainingPlan K) : Run K (Trainer K) Unit := do
  if ← Step.ofExcept (isDue plan.evaluationEvery (← Run.part).iteration) then
    let e ← onGraph (Evaluation.run engine plan.evaluation)
    Run.change fun t => { t with gap := some e.gap }

/-- What the stopping rules look at. -/
def progress (t : Trainer K) : Progress K :=
  { iterations := t.iteration, stable := t.stable, time := t.time, gap := t.gap }

/-- Ends an iteration whose pass had a value, and says whether the training is over. -/
def finishIteration (engine : Engine K) (plan : TrainingPlan K) (value : K) :
    Run K (Trainer K) Bool := do
  let bound ← onGraph (PolicyGraph.computeBound engine)
  let time := engine.elapsed (← Run.part).iteration
  Run.change (addIteration bound value time)
  evaluateIfDue engine plan
  match plan.limits.check (← Run.part).progress with
  | none => return false
  | some reason =>
    Run.change fun t => { t with stopReason := some reason }
    return true

/-! ## A run -/

/-- Runs iterations until one of them ends the training, or some number of them. -/
def iterations (engine : Engine K) (plan : TrainingPlan K) : Nat → Run K (Trainer K) Unit
  | 0 => return
  | n + 1 => do
    let i := (← Run.part).iteration
    let (value, _) ← passes engine (Seed.iteration i) i
    if ← finishIteration engine plan value then return
    cleanIfDue plan.cleanEvery (← Run.part).iteration
    iterations engine plan n

/-- How many iterations a training can have before the limit on their number ends it. -/
def mostIterations (plan : TrainingPlan K) (t : Trainer K) : Nat :=
  max 1 (plan.limits.iterations - t.iteration).toNat

/-- The trainer at the beginning of a training. -/
def opened (writes : Bool) (t : Trainer K) : Trainer K :=
  { t with stable := 0, gap := none, log := { t.log with isOpen := writes } }

/-- The trainer at the end of a training. -/
def closed (t : Trainer K) : Trainer K := { t with log := { t.log with isOpen := false } }

/-- Runs a training: an interruption ends it without a fault, and the cut file is closed in any
case. -/
def training (plan : TrainingPlan K) (step : Run K (Trainer K) Unit) : Run K (Trainer K) Unit := do
  Run.change (opened plan.writes)
  Run.andThen
    (Run.untilInterrupted step
      (Run.change fun t => { t with stopReason := some .interrupted }))
    closed

/-- Trains the graph. -/
def train (engine : Engine K) (plan : TrainingPlan K) : Run K (Trainer K) Unit := do
  let most := mostIterations plan (← Run.part)
  training plan (iterations engine plan most)

/-! ## Results -/

/-- The states that the first node decided on last, by name. -/
def firstDecision (t : Trainer K) : Except (Fault K) (List (String × K)) := do
  match t.graph.first with
  | [] => throw .outOfRange
  | (k, _) :: _ =>
    let m := (← t.graph.node 0 k).model
    let named ← m.states.mapM fun i => return (m.variableName i, ← m.valueOf i)
    return (named.map Prod.fst).eraseDups.filterMap fun name =>
      (named.reverse.lookup name).map fun x => (name, x)

end Trainer

end DualDynamic
