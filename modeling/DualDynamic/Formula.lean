import DualDynamic.Step

/-!
# Formulas

The rules by which a user lets data depend on a price or on a realization of noise: arithmetic on
numbers and names. Division by zero is a fault, arithmetic on anything but numbers is a fault of
type, and a list can be indexed, from its end by negative numbers.
-/

namespace DualDynamic

/-- A binary operation. -/
inductive Operation where
  | add
  | sub
  | mul
  | div
  /-- The second argument if it is less than the first one, else the first. -/
  | min
  /-- The second argument if it is greater than the first one, else the first. -/
  | max
  /-- The entry of a list at a position. -/
  | item
  deriving Repr, DecidableEq

/-- The operation with this symbol. -/
def Operation.ofText? : String → Option Operation
  | "+" => some add
  | "-" => some sub
  | "*" => some mul
  | "/" => some div
  | "min" => some min
  | "max" => some max
  | "at" => some item
  | _ => none

/-- A formula over named values. -/
inductive Formula (K : Type) where
  | constant (value : Datum K)
  | name (text : String)
  | apply (operation : Operation) (first second : Formula K)
  deriving Repr, Inhabited

namespace Formula

variable {K : Type} [Scalar K]

/-- How many of the numbers `1, 2, …, n` are at most `x`. -/
def wholePart (n : Nat) (x : K) : Nat :=
  ((List.range n).filter fun i => Scalar.le (Scalar.ofNat (i + 1)) x).length

/-- The position that an index of a list of `n` items stands for; fractions are dropped. -/
def position (n : Nat) (x : K) : Option Nat :=
  if Scalar.isNaN x then none
  else
    let size := wholePart (n + 1) (Scalar.abs x)
    if Scalar.lt x Scalar.zero && 0 < size then if size ≤ n then some (n - size) else none
    else if size < n then some size
    else none

/-- An operation on two numbers. -/
def numeric : Operation → K → K → Except (Fault K) K
  | .add, a, b => .ok (a + b)
  | .sub, a, b => .ok (a - b)
  | .mul, a, b => .ok (a * b)
  | .div, a, b => if Scalar.eq b Scalar.zero then .error .zeroDivision else .ok (a / b)
  | .min, a, b => .ok (Scalar.min a b)
  | .max, a, b => .ok (Scalar.max a b)
  | .item, _, _ => .error .badType

/-- An operation on two values. -/
def operate : Operation → Datum K → Datum K → Except (Fault K) (Datum K)
  | .item, .list xs, .real i =>
    match (position xs.length i).bind fun k => xs[k]? with
    | some d => .ok d
    | none => .error .outOfRange
  | .add, .list xs, .list ys => .ok (.list (xs ++ ys))
  | op, .real a, .real b => (numeric op a b).map .real
  | _, _, _ => .error .badType

/-- The value of a formula, from left to right; a name without a value is a fault. -/
def evaluate (env : String → Option (Datum K)) : Formula K → Except (Fault K) (Datum K)
  | constant d => .ok d
  | name text =>
    match env text with
    | some d => .ok d
    | none => .error .unknownName
  | apply op a b => do
    let x ← a.evaluate env
    let y ← b.evaluate env
    operate op x y

/-- Names of which one has a value. -/
def only (key : String) (value : Datum K) (text : String) : Option (Datum K) :=
  if text == key then some value else none

/-- A price as a value. -/
def priceDatum : Option K → Datum K
  | some x => .real x
  | none => .absent

end Formula

end DualDynamic
