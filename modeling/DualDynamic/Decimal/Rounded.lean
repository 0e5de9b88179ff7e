import DualDynamic.Decimal.Fixed
import DualDynamic.Decimal.Nearest

/-!
# Results rounded for a report

A computed result is first rounded to ten significant digits. Results below one thousand in size
are then written with six places, larger ones in scientific notation. Zero has no sign.
-/

namespace DualDynamic.Decimal

/-- Results from this size on are written in scientific notation. -/
def reportLimit : Float := 1000.0

/-- The float with ten significant digits nearest to `x`. -/
def tenDigits (x : Float) : Float :=
  match Binary.ofFloat x with
  | .finite negative m q =>
    let s := scientificParts 9 negative m q
    let size := nearestFloat s.units (s.exponent - 9)
    if negative then -size else size
  | _ => x

/-- The text of a result in a report. -/
def rounded (x : Float) : String :=
  let y := tenDigits x
  if y.isNaN || y.isInf then fixed 6 y
  else if y.abs < reportLimit then
    let text := fixed 6 y
    if text == "-0.000000" then "0.000000" else text
  else scientific 9 y

end DualDynamic.Decimal
