import DualDynamic.Decimal.Binary

/-!
# The shortest decimal of a float

The decimal with the fewest digits that a reader rounds back to the same float; of several with
that many digits, the nearest one. It is written positionally from `10 ^ (-4)` up to `10 ^ 16`,
with at least one digit after the point, and with an exponent of two digits or more elsewhere.
-/

namespace DualDynamic.Decimal

/-- The decimal `significand * 10 ^ exponent`. -/
structure Shortest where
  significand : Nat
  exponent : Int
  deriving Repr, DecidableEq

namespace Shortest

/-- Zeros at the end of the significand move into the exponent. -/
def trim : Nat → Shortest → Shortest
  | 0, d => d
  | fuel + 1, d =>
    if d.significand % 10 == 0 && d.significand != 0 then
      trim fuel ⟨d.significand / 10, d.exponent + 1⟩
    else d

/-- The reals that round to `m * 2 ^ q`, in quarters of the last binary place: the ends belong to
them exactly if the significand is even, and below a power of two the lower neighbour is nearer. -/
structure Basin where
  low : Quotient
  value : Quotient
  high : Quotient
  closed : Bool

/-- The basin of the float `m * 2 ^ q`. -/
def basin (m : Nat) (q : Int) : Basin :=
  let lower := if m == Nat.pow 2 52 && q != -1074 then 1 else 2
  { low := .scaleTwo (4 * m - lower) (q - 2)
    value := .scaleTwo (4 * m) (q - 2)
    high := .scaleTwo (4 * m + 2) (q - 2)
    closed := m % 2 == 0 }

/-- Whether `c * 10 ^ i` rounds to the float. -/
def Basin.holds (b : Basin) (c : Nat) (i : Int) : Bool :=
  let x := Quotient.scaleTen ⟨c, 1⟩ i
  let above := compare (b.low.numerator * x.denominator) (x.numerator * b.low.denominator)
  let below := compare (x.numerator * b.high.denominator) (b.high.numerator * x.denominator)
  if b.closed then above != .gt && below != .gt else above == .lt && below == .lt

/-- The point of the grid of multiples of `10 ^ i` that rounds to the float, the nearer one if both
neighbours of the float do, the even one if they are equally near. -/
def onGrid (b : Basin) (i : Int) : Option Nat :=
  let scaled := b.value.scaleTen (-i)
  let c := scaled.numerator / scaled.denominator
  match b.holds c i, b.holds (c + 1) i with
  | true, true => some scaled.round
  | true, false => some c
  | false, true => some (c + 1)
  | false, false => none

/-- The grids of one digit, two digits, up to seventeen, of which the first hit counts. -/
def scan (b : Basin) (lead : Int) : Shortest :=
  let hits := (List.range 17).findSome? fun n =>
    let i := lead - Int.ofNat n
    (onGrid b i).map fun c => (⟨c, i⟩ : Shortest)
  trim 20 (hits.getD ⟨0, 0⟩)

/-- The shortest decimal of the positive float `m * 2 ^ q`. -/
def ofBinary (m : Nat) (q : Int) : Shortest :=
  let b := basin m q
  scan b b.value.leadingExponent

/-- Exponents from `least` up to, but without, `bound` are written positionally. -/
structure Layout where
  least : Int
  bound : Int

/-- The layout of all numbers in files and messages. -/
def layout : Layout := ⟨-4, 16⟩

/-- `n` zeros. -/
def zeros (n : Nat) : String := String.ofList (List.replicate n '0')

/-- The text of an exponent: a sign and at least two digits. -/
def exponentText (e : Int) : String :=
  let digits := toString e.natAbs
  (if e < 0 then "e-" else "e+") ++ (if digits.length < 2 then "0" ++ digits else digits)

/-- The text of a positive decimal. -/
def text (d : Shortest) : String :=
  let digits := toString d.significand
  let n : Int := digits.length
  let lead := d.exponent + n - 1
  let chars := digits.toList
  if layout.least ≤ lead && lead < layout.bound then
    if 0 ≤ d.exponent then digits ++ zeros d.exponent.toNat ++ ".0"
    else if 0 ≤ lead then
      String.ofList (chars.take (lead + 1).toNat) ++ "." ++
        String.ofList (chars.drop (lead + 1).toNat)
    else "0." ++ zeros (-lead - 1).toNat ++ digits
  else
    let rest := chars.drop 1
    String.ofList (chars.take 1) ++ (if rest.isEmpty then "" else "." ++ String.ofList rest) ++
      exponentText lead

end Shortest

/-- The shortest text that reads back as the float. -/
def shortest (x : Float) : String :=
  match Binary.ofFloat x with
  | .nan => "nan"
  | .infinite negative => if negative then "-inf" else "inf"
  | .finite negative m q =>
    let body := if m == 0 then "0.0" else (Shortest.ofBinary m q).text
    if negative then "-" ++ body else body

/-- The bracketed list of the shortest texts. -/
def shortestList (xs : List Float) : String :=
  "[" ++ ", ".intercalate (xs.map shortest) ++ "]"

end DualDynamic.Decimal
