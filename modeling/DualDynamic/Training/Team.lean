import DualDynamic.Training

/-!
# Training by a team

Workers train copies of a graph side by side and send the records of their cuts to a coordinator.
The coordinator puts the fresh ones into its own graph and passes them on to all other
workers, which merge them before their next iteration. Queues keep their order and lose nothing.

A worker's turn (`Worker.turn`) merges what is in its mailbox, runs an iteration and posts the
result; the coordinator takes one result at a time (`Team.collect`). Turns and collections may
alternate in any way; in a run in lockstep a schedule says whose turn it is whenever the
coordinator has to wait.

A worker that fails posts its failure and is gone; a worker that is interrupted is gone without a
word.
-/

namespace DualDynamic

/-- What a worker posts. -/
inductive Posted (K : Type) where
  | result (worker : Int) (value : K) (records : List (CutRecord K))
  | failure (worker : Int) (failure : Failure (Attribute K))

/-- A worker: its copy of the graph in training, the messages that wait for it, and the number of
its iterations. -/
structure Worker (K : Type) where
  trainer : Watched (Trainer K)
  mailbox : List (List (CutRecord K)) := []
  iterations : Nat := 0
  /-- The fault that ended it. -/
  fault : Option (Fault K) := none

namespace Worker

variable {K : Type} [Numeral K]

/-- Whether a worker has not come to an end. -/
def isAlive (w : Worker K) : Bool := w.fault.isNone

/-- Puts the records of messages into the graph, message by message. -/
def mergeAll (messages : List (List (CutRecord K))) : Run K (Trainer K) Unit :=
  Step.each messages fun records => do
    let _ ← Trainer.installRecords records

/-- The `i`-th iteration of worker `p`. Its cuts carry the number of the iteration at which the team
set out, plus `i`. -/
def iterate (engine : Engine K) (p : Int) (cleanEvery : Option Int) (i : Nat) :
    Run K (Trainer K) (K × List (CutRecord K)) := do
  let seed ← Step.ofExcept (Seed.ofList [p, i])
  let base := (← Run.part).iteration
  let result ← Trainer.passes engine seed.stream (base + i)
  Trainer.cleanIfDue cleanEvery (i + 1)
  return result

/-- What worker `p` posts when it comes to an end, if anything. -/
def lastPost (p : Int) : Fault K → Option (Posted K)
  | .interrupted => none
  | f => some (.failure p f.toFailure)

/-- A turn of worker `p`: it merges all messages, runs an iteration and posts the result. After a
fault it is gone. -/
def turn (engine : Engine K) (p : Int) (cleanEvery : Option Int) (w : Worker K) :
    Option (Posted K) × Worker K :=
  let step := do
    mergeAll w.mailbox
    iterate engine p cleanEvery w.iterations
  match step w.trainer with
  | .ok (value, records) trainer =>
    (some (.result p value records),
      { w with trainer, mailbox := [], iterations := w.iterations + 1 })
  | .error f trainer => (lastPost p f, { w with trainer, mailbox := [], fault := some f })

/-- The turns of a worker that is alone, `n` in number or until it is gone, and what it posts. -/
def turns (engine : Engine K) (p : Int) (cleanEvery : Option Int) :
    Nat → Worker K → List (Posted K) × Worker K
  | 0, w => ([], w)
  | n + 1, w =>
    let (post, w) := turn engine p cleanEvery w
    if w.isAlive then
      let (rest, w) := turns engine p cleanEvery n w
      (post.toList ++ rest, w)
    else (post.toList, w)

/-- Lets a trainer work as worker `p`, without anybody to send messages, for some number of turns.
An interruption comes through. -/
def alone (engine : Engine K) (p : Int) (cleanEvery : Option Int)
    (mailbox : List (List (CutRecord K))) (count : Nat) :
    Run K (Trainer K) (List (Posted K)) := fun trainer =>
  let (posts, w) := turns engine p cleanEvery count { trainer, mailbox }
  match w.fault with
  | some .interrupted => .error .interrupted w.trainer
  | _ => .ok posts w.trainer

end Worker

/-- A coordinator, its workers, and the results that wait for it. -/
structure Team (K : Type) where
  coordinator : Trainer K
  workers : List (Worker K)
  results : List (Posted K) := []

namespace Team

variable {K A : Type} [Numeral K]

/-- A step on the coordinator. -/
def onCoordinator (step : Run K (Trainer K) A) : Run K (Team K) A :=
  Run.within Team.coordinator (fun t team => { team with coordinator := t }) step

/-- Puts a message into the mailboxes of all workers but one. -/
def passOn (except : Int) (records : List (CutRecord K)) (workers : List (Worker K)) :
    List (Worker K) :=
  workers.mapIdx fun q w =>
    if (q : Int) == except then w else { w with mailbox := w.mailbox ++ [records] }

/-- The coordinator merges the records of a worker and passes the fresh ones on. -/
def share (p : Int) (records : List (CutRecord K)) : Run K (Team K) Unit := do
  let fresh ← onCoordinator (Trainer.installRecords records)
  if !fresh.isEmpty then
    Run.change fun team => { team with workers := passOn p fresh team.workers }

/-- The coordinator takes a result, and says whether the training is over. -/
def collect (engine : Engine K) (plan : TrainingPlan K) : Posted K → Run K (Team K) Bool
  | .failure p f => throw (.reported p f)
  | .result p value records => do
    share p records
    onCoordinator (Trainer.finishIteration engine plan value)

/-- The worker whose turn it is: the one that the schedule names or, if it is gone, the first
living one. -/
def next (team : Team K) (named : Nat) : Option Nat :=
  let isAlive := fun p => (team.workers[p]?.map Worker.isAlive).getD false
  if isAlive named then some named else (List.range team.workers.length).find? isAlive

/-- The turn of worker `p`. -/
def turnOf (engine : Engine K) (cleanEvery : Option Int) (p : Nat) (team : Team K) : Team K :=
  match team.workers[p]? with
  | none => team
  | some w =>
    let (post, w) := w.turn engine p cleanEvery
    { team with workers := team.workers.set p w, results := team.results ++ post.toList }

/-- The entry of a schedule that comes round again and again. -/
def entry (schedule : List Nat) (i : Nat) : Nat := schedule.getD (i % schedule.length) 0

/-- A run in lockstep, from the `i`-th entry of the schedule on, of at most so many steps. -/
def lockstep (engine : Engine K) (plan : TrainingPlan K) (schedule : List Nat) :
    Nat → Nat → Run K (Team K) Unit
  | 0, _ => return
  | steps + 1, i => do
    let team ← Run.part
    match team.results with
    | post :: rest =>
      Run.change fun team => { team with results := rest }
      if ← collect engine plan post then return
      lockstep engine plan schedule steps i
    | [] =>
      match team.next (entry schedule i) with
      | none => throw .workersGone
      | some p =>
        Run.change (turnOf engine plan.cleanEvery p)
        lockstep engine plan schedule steps (i + 1)

/-- How many steps a run in lockstep can have: a turn and a collection per iteration, and a turn in
vain per worker. -/
def mostSteps (plan : TrainingPlan K) (team : Team K) : Nat :=
  2 * Trainer.mostIterations plan team.coordinator + team.workers.length + 1

/-- Trains the graph of the coordinator with a team in lockstep. -/
def train (engine : Engine K) (plan : TrainingPlan K) (workers : List (Watched (Trainer K)))
    (schedule : List Nat) : Run K (Trainer K) Unit :=
  Trainer.training plan <|
    Run.within (fun t => { coordinator := t, workers := workers.map fun w => { trainer := w } })
      (fun team _ => team.coordinator)
      (do lockstep engine plan schedule (mostSteps plan (← Run.part)) 0)

end Team

end DualDynamic
