/-!
# Directions

The two directions of optimization and the side on which a cut bounds the cost-to-go.
-/

namespace DualDynamic

/-- What a program does with its objective. -/
inductive Sense where
  | minimize
  | maximize
  deriving Repr, DecidableEq, Inhabited

namespace Sense

/-- The sense with this sign: `1` to minimize and `-1` to maximize. -/
def ofInt? : Int → Option Sense
  | 1 => some minimize
  | -1 => some maximize
  | _ => none

/-- The sign of a sense. -/
def sign : Sense → Int
  | minimize => 1
  | maximize => -1

end Sense

/-- The side of a bound: a cut is a lower bound (`atLeast`) or an upper bound (`atMost`). -/
inductive Side where
  | atLeast
  | atMost
  deriving Repr, DecidableEq, Inhabited

namespace Side

/-- The relation symbol of a side. -/
def text : Side → String
  | atLeast => ">="
  | atMost => "<="

/-- The side with this relation symbol. -/
def ofText? : String → Option Side
  | ">=" => some atLeast
  | "<=" => some atMost
  | _ => none

/-- Reading a symbol gives back the side that wrote it. -/
theorem ofText?_text (s : Side) : ofText? s.text = some s := by cases s <;> rfl

/-- Only the symbol of a side is read as that side. -/
theorem eq_text_of_ofText? {t : String} {s : Side} (h : ofText? t = some s) : t = s.text := by
  unfold ofText? at h
  split at h <;> simp_all [text] <;> subst h <;> rfl

end Side

/-- Costs to be minimized are bounded from below, profits to be maximized from above. -/
def Sense.cutSide : Sense → Side
  | .minimize => .atLeast
  | .maximize => .atMost

end DualDynamic
