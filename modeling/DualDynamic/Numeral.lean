import DualDynamic.Scalar
import DualDynamic.Decimal.Shortest
import DualDynamic.Decimal.Reader

/-!
# Numerals

The written form of scalars, in files and in messages. A file is read back exactly when reading
undoes writing.
-/

namespace DualDynamic

/-- Scalars that can be written and read. -/
class Numeral (K : Type) extends Scalar K where
  /-- The text of a scalar. -/
  text : K → String
  /-- The scalar that a text spells. -/
  read : String → Option K
  /-- The scalar that stands for an entry left out. -/
  missing : K

instance : Numeral Float where
  text := Decimal.shortest
  read := Decimal.readReal
  missing := 0.0 / 0.0

/-- The bracketed list of the texts. -/
def Numeral.listText {K : Type} [Numeral K] (xs : List K) : String :=
  "[" ++ ", ".intercalate (xs.map Numeral.text) ++ "]"

end DualDynamic
