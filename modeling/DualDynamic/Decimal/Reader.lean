import DualDynamic.Decimal.Nearest
import DualDynamic.Text.Digit

/-!
# Reading numbers

The texts that count as a number. Blanks around it are skipped, digits of all scripts are read,
and a single underscore may stand between two digits. A whole number is a sign and digits; a
real number has an optional point and exponent, or is one of the words for infinity and NaN in
any case of letters.
-/

namespace DualDynamic.Decimal

/-- The text with the digits of all scripts replaced by `0` to `9` and without blanks around it.
ASCII characters stand for themselves. -/
def normalize (text : String) : List Char :=
  let digits := text.toList.map fun c =>
    if c.toNat < 127 then c
    else match Text.digitValue? c with
      | some d => Char.ofNat (48 + d)
      | none => if Text.isBlank c then ' ' else c
  Text.strip digits

/-- Removes the underscores that stand between two digits; any other one stays and makes the text
unreadable. -/
def dropUnderscores : List Char → List Char
  | a :: '_' :: b :: rest =>
    if a.isDigit && b.isDigit then a :: dropUnderscores (b :: rest)
    else a :: '_' :: dropUnderscores (b :: rest)
  | a :: rest => a :: dropUnderscores rest
  | [] => []

/-- The sign in front, as "is negative", and the rest. -/
def takeSign : List Char → Bool × List Char
  | '-' :: rest => (true, rest)
  | '+' :: rest => (false, rest)
  | rest => (false, rest)

/-- The value of a string of digits. -/
def digitsValue (cs : List Char) : Nat := cs.foldl (fun n c => 10 * n + (c.toNat - 48)) 0

/-- The digits in front, and the rest. -/
def takeDigits (cs : List Char) : List Char × List Char :=
  (cs.takeWhile Char.isDigit, cs.dropWhile Char.isDigit)

/-- A whole number. -/
def readWhole (text : String) : Option Int :=
  let (negative, body) := takeSign (dropUnderscores (normalize text))
  if !body.isEmpty && body.all Char.isDigit then
    some (if negative then -Int.ofNat (digitsValue body) else Int.ofNat (digitsValue body))
  else none

/-- The exponent part of a real number: absent, or a letter, a sign and digits. -/
def readExponent : List Char → Option Int
  | [] => some 0
  | c :: rest =>
    if c == 'e' || c == 'E' then
      let (negative, digits) := takeSign rest
      if !digits.isEmpty && digits.all Char.isDigit then
        some (if negative then -Int.ofNat (digitsValue digits) else Int.ofNat (digitsValue digits))
      else none
    else none

/-- The size of a real number without sign: digits with at most one point and an exponent. -/
def readMagnitude (cs : List Char) : Option Float :=
  let (whole, rest) := takeDigits cs
  let (fraction, rest) := match rest with
    | '.' :: more => takeDigits more
    | _ => ([], rest)
  if whole.isEmpty && fraction.isEmpty then none
  else (readExponent rest).map fun e =>
    nearestFloat (digitsValue (whole ++ fraction)) (e - fraction.length)

/-- The words for infinity and NaN. -/
def readWord (cs : List Char) : Option Float :=
  match String.ofList (cs.map Char.toLower) with
  | "inf" => some (1.0 / 0.0)
  | "infinity" => some (1.0 / 0.0)
  | "nan" => some (0.0 / 0.0)
  | _ => none

/-- A real number. -/
def readReal (text : String) : Option Float :=
  let (negative, body) := takeSign (dropUnderscores (normalize text))
  let size := match readWord body with
    | some x => some x
    | none => readMagnitude body
  size.map fun x => if negative then -x else x

end DualDynamic.Decimal
