import DualDynamic.CutRecord
import DualDynamic.Text.Separated

/-!
# Cut files

A cut file is a table with one record per row:

    stage, Markov state, rib, side, intercept, coefficients …

The field of a missing rib is empty. Numbers are written so that they are read back exactly. Rows
without fields are skipped; the first row that is no record ends the reading with a fault, and
the records in front of it count.
-/

namespace DualDynamic.CutFile

variable {K : Type}

/-! ## Writing -/

section Writing

variable [Numeral K]

/-- The fields of a row. -/
def fields (stage markov : String) (rib : Option K) (cut : Cut K) : List String :=
  [stage, markov, (rib.map Numeral.text).getD "", cut.side.text, Numeral.text cut.intercept] ++
    cut.coefficients.map Numeral.text

/-- The text of a row. -/
def rowText (fields : List String) : String :=
  String.ofList (Text.Separated.encodeRow (fields.map String.toList))

/-- The row of a record. -/
def line (r : CutRecord K) : String :=
  rowText (fields (toString r.stage) (toString r.markov) r.rib r.cut)

/-- The row of a cut whose place is given by labels of any kind; the rib must be a number. -/
def labelledLine (stage markov rib : Datum K) (cut : Cut K) : Except (Fault K) String := do
  let rib ← match rib with
    | .absent => pure none
    | d => (d.number.mapError Unreadable.fault).map some
  let label : Datum K → String
    | .absent => ""
    | d => d.shown
  return rowText (fields (label stage) (label markov) rib cut)

/-- Appends rows to a file, up to the first one that cannot be written. -/
def appendLabelled (rows : List (Datum K × Datum K × Datum K × Cut K)) : Step K String Unit :=
  Step.each rows fun (stage, markov, rib, cut) => do
    let row ← Step.ofExcept (labelledLine stage markov rib cut)
    modify (· ++ row)

/-- A cut file that a run may write to. -/
structure Log where
  text : String := ""
  isOpen : Bool := false
  deriving Repr

/-- The file with one more record at its end, if it is open. -/
def Log.write (l : Log) (r : CutRecord K) : Log :=
  if l.isOpen then { l with text := l.text ++ line r } else l

/-- The name of a file that is being written. -/
def writerText (path : String) : String := "<CutWriter " ++ path ++ ">"

end Writing

/-! ## Reading -/

section Reading

variable [Numeral K]

/-- A whole number in a field. -/
def wholeField (text : String) : Except RecordFault Int :=
  match Decimal.readWhole text with
  | some n => .ok n
  | none => .error (.notWhole text)

/-- A real number in a field. -/
def realField (text : String) : Except RecordFault K :=
  match Numeral.read text with
  | some x => .ok x
  | none => .error (.notReal text)

/-- The text of a field. -/
def fieldAt (row : List String) (i : Nat) : Except RecordFault String :=
  match row[i]? with
  | some text => .ok text
  | none => .error .fieldMissing

/-- The record of a row. The numbers are read before the side is looked at. -/
def readRow (row : List String) : Except RecordFault (CutRecord K) := do
  let stage ← wholeField (← fieldAt row 0)
  let markov ← wholeField (← fieldAt row 1)
  let ribText ← fieldAt row 2
  let rib ← if ribText == "" then pure none else (realField ribText).map some
  let intercept ← realField (← fieldAt row 4)
  let coefficients ← (row.drop 5).mapM realField
  let some side := Side.ofText? (← fieldAt row 3) | throw .side
  return {
    stage, markov, rib
    cut := { intercept, coefficients, side, stage := some stage, markov := some markov } }

/-- The records of rows numbered from `n` on, up to the first fault. -/
def readRows (path : String) : Nat → List (List String) →
    List (CutRecord K) × Option (Fault K)
  | _, [] => ([], none)
  | n, [] :: rows => readRows path (n + 1) rows
  | n, row :: rows =>
    match readRow row with
    | .error cause => ([], some (.record n path cause))
    | .ok r =>
      let (rest, fault) := readRows path (n + 1) rows
      (r :: rest, fault)

/-- The records of a file, and the fault that ended the reading, if any. -/
def read (path text : String) : List (CutRecord K) × Option (Fault K) :=
  let rows := (Text.Separated.decodeRows text.toList).map fun row => row.map String.ofList
  readRows path 1 rows

end Reading

end DualDynamic.CutFile
