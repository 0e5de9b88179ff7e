import DualDynamic.Step
import DualDynamic.Decimal.Fixed

/-!
# Progress tables

A table of fixed column widths that is written row by row while a job runs: a title between rules,
the column titles, the rows and a footer with the time spent. Cells are set to the right; a cell
that is wider than its column pushes the others aside.

There is one table for training, with one row per iteration, and one for the evaluations made in
between.
-/

namespace DualDynamic.Report

/-- A text filled up with blanks on the left. -/
def padLeft (width : Nat) (s : String) : String :=
  String.ofList (List.replicate (width - s.length) ' ') ++ s

/-- A text with blanks on both sides, the odd one on the right. -/
def center (width : Nat) (s : String) : String :=
  let blanks := width - s.length
  String.ofList (List.replicate (blanks / 2) ' ') ++ s ++
    String.ofList (List.replicate (blanks - blanks / 2) ' ')

/-- A column: its title and its width. -/
structure Column where
  title : String
  width : Nat
  deriving Repr

/-- The content of a cell. -/
inductive Cell where
  | count (value : Int)
  | number (value : Float)
  | interval (low high : Float)
  /-- A share of one, shown in percent. -/
  | share (value : Float)
  deriving Repr

/-- The text of a cell. Numbers have six places, percentages four. -/
def Cell.text : Cell → String
  | count n => toString n
  | number x => Decimal.fixed 6 x
  | interval low high => Decimal.fixed 6 low ++ ", " ++ Decimal.fixed 6 high
  | share x => Decimal.percentage 4 x

/-- A table while it is being written. -/
structure Table where
  name : String
  title : String
  columns : List Column
  rows : List (List Cell) := []
  /-- The time spent on the logged jobs; absent before the first one. -/
  time : Option Float := none
  deriving Repr

namespace Table

/-- The width of all columns together. -/
def width (t : Table) : Nat := (t.columns.map Column.width).foldl (· + ·) 0

/-- A line of dashes. -/
def rule (t : Table) : String := String.ofList (List.replicate t.width '-')

/-- The lines above the rows. -/
def header (t : Table) : List String :=
  [t.rule, center t.width t.title, t.rule,
    String.join (t.columns.map fun c => padLeft c.width c.title), t.rule]

/-- The line of a row. -/
def rowLine (t : Table) (cells : List Cell) : String :=
  String.join (List.zipWith (fun c cell => padLeft c.width cell.text) t.columns cells)

/-- The text of the time spent. -/
def timeText (t : Table) : String :=
  match t.time with
  | none => "0"
  | some x => Decimal.shortest x

/-- The lines below the rows. -/
def footer (t : Table) : List String := [t.rule, "Time: " ++ t.timeText ++ " seconds"]

/-- All lines, with further ones at the end. -/
def lines (t : Table) (closing : List String) : List String :=
  t.header ++ t.rows.map t.rowLine ++ t.footer ++ closing

/-- The table with one more row for a job that took some time. -/
def addRow (t : Table) (cells : List Cell) (time : Float) : Table :=
  { t with rows := t.rows ++ [cells], time := some (t.time.getD 0.0 + time) }

/-- The time spent as a number. -/
def totalTime (t : Table) : Float := t.time.getD 0.0

end Table

/-! ## The table of a training -/

/-- The empty table of a training with some number of workers, which are named if there are
several. -/
def training (workers : Int) : Table :=
  { name := "SDDP"
    title := "SDDP Solver"
    columns := [⟨"Iteration", 12⟩] ++ (if 1 < workers then [⟨"Worker", 8⟩] else []) ++
      [⟨"Bound", 20⟩, ⟨"Value", 20⟩, ⟨"Cuts", 10⟩, ⟨"Time", 12⟩] }

/-- The report of one iteration. -/
structure Iteration where
  number : Int
  worker : Option Int
  bound : Option Float
  value : Option Float
  cuts : Int
  time : Float
  deriving Repr

/-- A value that a row cannot do without. -/
def required {A : Type} : Option A → Except (Fault Float) A
  | some a => .ok a
  | none => .error .badType

/-- The table with the row of one more iteration. -/
def addIteration (workers : Int) (t : Table) (r : Iteration) : Except (Fault Float) Table := do
  let worker ← if 1 < workers then (required r.worker).map fun w => [Cell.count w] else pure []
  let bound ← required r.bound
  let value ← required r.value
  return t.addRow
    ([.count r.number] ++ worker ++ [.number bound, .number value, .count r.cuts, .number r.time])
    r.time

/-- The last line of a training: why it came to an end. -/
def closing (reason : Option String) : String :=
  "Algorithm stops since " ++ reason.getD "None"

/-! ## The table of evaluations -/

/-- The empty table of evaluations with some number of simulations each; a single one has a value,
several have a confidence interval. -/
def evaluations (percentile : String) (simulations : Int) : Table :=
  { name := "Evaluation"
    title := "Evaluation of the policy"
    columns := [⟨"Iteration", 12⟩, ⟨"Bound", 20⟩,
      if simulations == 1 then ⟨"Value", 20⟩
      else ⟨"Value " ++ percentile ++ "% CI (" ++ toString simulations ++ ")", 40⟩,
      ⟨"Time", 12⟩, ⟨"Gap", 12⟩] }

/-- The report of one evaluation. -/
structure Evaluation where
  iteration : Int
  bound : Option Float
  value : Option Float
  interval : Option (Float × Float)
  gap : Option Float
  time : Float
  deriving Repr

/-- The table with the row of one more evaluation. -/
def addEvaluation (simulations : Int) (t : Table) (r : Evaluation) :
    Except (Fault Float) Table := do
  let value ←
    if simulations == 1 then (required r.value).map Cell.number
    else (required r.interval).map fun (low, high) => Cell.interval low high
  let bound ← required r.bound
  let gap ← required r.gap
  return t.addRow [.count r.iteration, .number bound, value, .number r.time, .share gap] r.time

end DualDynamic.Report
