/-!
# The exact value of a float

A finite float is a sign, a natural significand and a power of two; all decimal texts are
computed from these three by exact arithmetic on natural numbers.
-/

namespace DualDynamic.Decimal

/-- A float taken apart. -/
inductive Binary where
  | nan
  | infinite (negative : Bool)
  /-- The value is `significand * 2 ^ exponent`, with a sign. -/
  | finite (negative : Bool) (significand : Nat) (exponent : Int)
  deriving Repr, DecidableEq

namespace Binary

/-- The parts of the float with these 64 bits: sign, eleven bits of exponent, 52 of significand. -/
def ofBits (bits : Nat) : Binary :=
  let negative := bits / Nat.pow 2 63 % 2 == 1
  let field := bits / Nat.pow 2 52 % Nat.pow 2 11
  let low := bits % Nat.pow 2 52
  if field == 2047 then
    if low == 0 then infinite negative else nan
  else if field == 0 then finite negative low (-1074)
  else finite negative (Nat.pow 2 52 + low) (Int.ofNat field - 1075)

/-- The parts of a float. -/
def ofFloat (x : Float) : Binary := ofBits x.toBits.toNat

end Binary

/-- A positive rational number. -/
structure Quotient where
  numerator : Nat
  denominator : Nat
  deriving Repr, DecidableEq

namespace Quotient

/-- The number `m * 2 ^ e`. -/
def scaleTwo (m : Nat) (e : Int) : Quotient := ⟨m * Nat.pow 2 e.toNat, Nat.pow 2 (-e).toNat⟩

/-- The number `x * 10 ^ e`. -/
def scaleTen (x : Quotient) (e : Int) : Quotient :=
  ⟨x.numerator * Nat.pow 10 e.toNat, x.denominator * Nat.pow 10 (-e).toNat⟩

/-- Whether the number is at least one. -/
def atLeastOne (x : Quotient) : Bool := x.denominator ≤ x.numerator

/-- The nearest natural number, a half going to the even neighbour. -/
def round (x : Quotient) : Nat :=
  let q := x.numerator / x.denominator
  let r := 2 * (x.numerator % x.denominator)
  if r < x.denominator then q
  else if x.denominator < r then q + 1
  else if q % 2 == 0 then q else q + 1

/-- The exponent `e` with `10 ^ e ≤ x < 10 ^ (e + 1)`. The difference of the binary lengths gives
it up to one step, so that only its neighbours are tried. -/
def leadingExponent (x : Quotient) : Int :=
  let guess := (Int.ofNat x.numerator.log2 - Int.ofNat x.denominator.log2) * 30103 / 100000
  let tries := [guess + 2, guess + 1, guess, guess - 1]
  (tries.find? fun e => (x.scaleTen (-e)).atLeastOne).getD (guess - 2)

end Quotient

end DualDynamic.Decimal
