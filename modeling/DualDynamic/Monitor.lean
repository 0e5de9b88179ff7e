import DualDynamic.Step

/-!
# Watched steps

Steps on a part of a run, together with what is counted across the whole run: the actions that may
interrupt it, the statuses that a retry was asked about, and the programs that were solved.
-/

namespace DualDynamic

/-- What is counted across a run. -/
structure Monitor where
  /-- The number of counting actions. -/
  ticks : Nat := 0
  /-- The statuses that a retry was asked about, in order. -/
  asked : List Nat := []
  /-- The number of programs that were solved. -/
  calls : Nat := 0
  deriving Repr

/-- A part of a run and the counts of the run. -/
structure Watched (S : Type) where
  monitor : Monitor
  part : S
  deriving Repr

/-- A step on a part of a run. -/
abbrev Run (K S A : Type) : Type := Step K (Watched S) A

namespace Run

variable {K S T A : Type}

/-- The part. -/
def part : Run K S S := return (← get).part

/-- Changes the part. -/
def change (f : S → S) : Run K S Unit := modify fun w => { w with part := f w.part }

/-- Changes the counts. -/
def count (f : Monitor → Monitor) : Run K S Unit :=
  modify fun w => { w with monitor := f w.monitor }

/-- A step that counts nothing. -/
def ofStep (step : Step K S A) : Run K S A :=
  Step.within Watched.part (fun s w => { w with part := s }) step

/-- A step on a part of the part. -/
def within (read : S → T) (put : T → S → S) (step : Run K T A) : Run K S A :=
  Step.within (fun w => ⟨w.monitor, read w.part⟩)
    (fun v w => ⟨v.monitor, put v.part w.part⟩) step

end Run

end DualDynamic
