import DualDynamic.Decimal.Binary

/-!
# Decimals with a given number of places

The exact value of a float rounded to a number of places, either after the point or after the
first digit. A value halfway between two decimals goes to the even one.
-/

namespace DualDynamic.Decimal

/-- A number without digits: NaN or an infinity. -/
def wordOf : Binary → Option String
  | .nan => some "nan"
  | .infinite negative => some (if negative then "-inf" else "inf")
  | .finite .. => none

/-- `n` in decimal, with zeros in front up to `width` digits. -/
def padded (width n : Nat) : String :=
  let digits := toString n
  String.ofList (List.replicate (width - digits.length) '0') ++ digits

/-- `n` units of the last of `places` decimal places. -/
def pointed (places n : Nat) : String :=
  if places == 0 then toString n
  else toString (n / Nat.pow 10 places) ++ "." ++ padded places (n % Nat.pow 10 places)

/-- The float with `places` digits after the point. -/
def fixed (places : Nat) (x : Float) : String :=
  match Binary.ofFloat x with
  | .finite negative m q =>
    let units := ((Quotient.scaleTwo m q).scaleTen places).round
    (if negative then "-" else "") ++ pointed places units
  | special => (wordOf special).getD ""

/-- A decimal in scientific notation: `units * 10 ^ (exponent - places)`, with `places + 1`
digits. -/
structure Scientific where
  negative : Bool
  units : Nat
  exponent : Int

/-- The float rounded to `places` digits after the first; rounding up to a power of ten moves the
exponent. -/
def scientificParts (places : Nat) (negative : Bool) (m : Nat) (q : Int) : Scientific :=
  if m == 0 then ⟨negative, 0, 0⟩
  else
    let x := Quotient.scaleTwo m q
    let lead := x.leadingExponent
    let units := (x.scaleTen (places - lead)).round
    if units == Nat.pow 10 (places + 1) then ⟨negative, Nat.pow 10 places, lead + 1⟩
    else ⟨negative, units, lead⟩

/-- The text of a decimal in scientific notation, with a signed exponent of two digits or more. -/
def Scientific.text (places : Nat) (s : Scientific) : String :=
  (if s.negative then "-" else "") ++ pointed places s.units ++
    (if s.exponent < 0 then "e-" else "e+") ++ padded 2 s.exponent.natAbs

/-- The float in scientific notation with `places` digits after the point. -/
def scientific (places : Nat) (x : Float) : String :=
  match Binary.ofFloat x with
  | .finite negative m q => (scientificParts places negative m q).text places
  | special => (wordOf special).getD ""

/-- A share as a percentage with `places` digits after the point. -/
def percentage (places : Nat) (x : Float) : String := fixed places (x * 100) ++ "%"

end DualDynamic.Decimal
