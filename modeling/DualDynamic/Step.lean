import DualDynamic.Fault

/-!
# Steps

A computation on a state that may fail. A step that fails leaves the state as far as it had come:
what was changed before the fault stays changed, and a caller who catches the fault goes on from
there.
-/

namespace DualDynamic

/-- A step on a state of type `S` with a result of type `A`. -/
abbrev Step (K S A : Type) : Type := EStateM (Fault K) S A

namespace Step

variable {K S T A : Type}

/-- The result of a computation without state. -/
def ofExcept : Except (Fault K) A → Step K S A
  | .ok a => pure a
  | .error f => throw f

/-- A step on a part of the state. -/
def within (get : S → T) (put : T → S → S) (step : Step K T A) : Step K S A := fun s =>
  match step (get s) with
  | .ok a t => .ok a (put t s)
  | .error f t => .error f (put t s)

/-- The result or the fault, and the state that the step leaves behind. -/
def attempt (step : Step K S A) (s : S) : Except (Fault K) A × S :=
  match step s with
  | .ok a t => (.ok a, t)
  | .error f t => (.error f, t)

/-- The same step for every item, from left to right. -/
def each (items : List A) (step : A → Step K S Unit) : Step K S Unit := items.forM step

/-- The item at an index; negative indices count from the end. -/
def itemAt {A : Type} (xs : List A) (k : Int) : Except (Fault K) A :=
  let i := if k < 0 then k + xs.length else k
  if i < 0 then .error .outOfRange
  else match xs[i.toNat]? with
    | some a => .ok a
    | none => .error .outOfRange

end Step

end DualDynamic
