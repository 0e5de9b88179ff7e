/-!
# The float nearest to a decimal
-/

namespace DualDynamic.Decimal

/-- Beyond this decimal exponent of the leading digit a number overflows, and below its negative
it vanishes. -/
def exponentLimit : Int := 400

/-- The float nearest to `significand * 10 ^ exponent`. Exponents far outside the range of floats
are decided by the position of the leading digit alone, so that no huge power is computed. -/
def nearestFloat (significand : Nat) (exponent : Int) : Float :=
  if significand == 0 then 0.0
  else
    let lead := exponent + (toString significand).length
    if exponentLimit < lead then 1.0 / 0.0
    else if lead < -exponentLimit then 0.0
    else Float.ofScientific significand (exponent < 0) exponent.natAbs

end DualDynamic.Decimal
