/-!
# Scalars

The numbers that programs, cuts and probabilities are made of. The library is written over any
type with this interface and run on `Float`; a statement in exact arithmetic instantiates it at an
ordered field.

Comparisons are Boolean and follow the arithmetic of the type: on `Float` a NaN is unequal to
everything, itself included, and the two zeros are equal.
-/

namespace DualDynamic

/-- Arithmetic, comparison and rounding, as far as the library uses them. -/
class Scalar (K : Type) extends Add K, Sub K, Mul K, Div K, Neg K where
  /-- The scalar of an integer. -/
  ofInt : Int → K
  /-- At most. -/
  le : K → K → Bool
  /-- Less than. -/
  lt : K → K → Bool
  /-- Equality of values. -/
  eq : K → K → Bool
  /-- Neither infinite nor NaN. -/
  isFinite : K → Bool
  /-- Unequal to itself. -/
  isNaN : K → Bool
  /-- The nearest whole number, a half going to the even neighbour. -/
  nearest : K → K

namespace Scalar

variable {K : Type} [Scalar K]

/-- The neutral element of addition. -/
def zero : K := ofInt 0

/-- The neutral element of multiplication. -/
def one : K := ofInt 1

/-- The scalar of a natural number. -/
def ofNat (n : Nat) : K := ofInt n

/-- Unequal values. -/
def ne (a b : K) : Bool := !eq a b

/-- The absolute value; a NaN stays one. -/
def abs (a : K) : K := if lt a zero then -a else if eq a zero then zero else a

/-- The larger argument; the first one wins ties, and a NaN in second place never wins. -/
def max (a b : K) : K := if lt a b then b else a

/-- The smaller argument; the first one wins ties, and a NaN in second place never wins. -/
def min (a b : K) : K := if lt b a then b else a

/-- The value rounded to four decimals. -/
def roundFour (a : K) : K := nearest (a * ofInt 10000) / ofInt 10000

/-- The sum from left to right, starting at zero. -/
def sum (xs : List K) : K := xs.foldl (· + ·) zero

/-- The inner product, summed from left to right; the longer vector's surplus is ignored. -/
def dot (xs ys : List K) : K := sum (List.zipWith (· * ·) xs ys)

/-- Entrywise equality of vectors, of equal lengths only. -/
def eqAll (xs ys : List K) : Bool :=
  xs.length == ys.length && (List.zipWith eq xs ys).all id

/-- Every entry multiplied by `a`. -/
def scale (a : K) (xs : List K) : List K := xs.map (a * ·)

/-- The entrywise sum. -/
def addAll (xs ys : List K) : List K := List.zipWith (· + ·) xs ys

end Scalar

/-- Half of the floats above this size are whole, so adding and subtracting it rounds to the
nearest whole number, ties to even. -/
private def wholeFrom : Float := 4503599627370496.0

/-- The nearest whole float, ties to even; values from `2 ^ 52` on are whole already. -/
def nearestWhole (x : Float) : Float :=
  if x.abs < wholeFrom then
    if x < 0 then (x - wholeFrom) + wholeFrom else (x + wholeFrom) - wholeFrom
  else x

instance : Scalar Float where
  ofInt := Float.ofInt
  le a b := a ≤ b
  lt a b := a < b
  eq a b := a == b
  isFinite := Float.isFinite
  isNaN := Float.isNaN
  nearest := nearestWhole

end DualDynamic
