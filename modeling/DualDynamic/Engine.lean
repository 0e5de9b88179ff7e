import DualDynamic.Interval
import DualDynamic.LinearProgram.Simplex

/-!
# The engine on floats

Programs are solved by the simplex method, intervals come from Student's distribution, and time
stands still, so that a run depends on its input alone.
-/

namespace DualDynamic

/-- The engine that is run on floats. -/
def Engine.standard : Engine Float :=
  { solve := fun _ _ program => Simplex.solve program
    elapsed := fun _ => 0.0
    interval := Interval.ofSample }

end DualDynamic
