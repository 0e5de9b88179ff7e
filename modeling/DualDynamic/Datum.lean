import DualDynamic.Numeral
import DualDynamic.Text.Quoted

/-!
# Data handed in by a user

Noise realizations, scenarios, probabilities and labels arrive as nested data. This module turns
them into numbers and rectangular blocks of numbers, or says why they are none.
-/

namespace DualDynamic

/-- A value as it was handed in. -/
inductive Datum (K : Type) where
  | absent
  | flag (value : Bool)
  | whole (value : Int)
  | real (value : K)
  | text (value : String)
  | list (items : List (Datum K))
  /-- A table from keys to values. -/
  | mapping
  /-- Something to be called. -/
  | function
  deriving Repr, Inhabited

/-- Why a value is no number or no block of numbers. -/
inductive Unreadable where
  /-- A text that spells no number. -/
  | word (text : String)
  /-- Lists of unequal shape; the shape of what they have in common. -/
  | ragged (shape : List Nat)
  /-- Not a kind of value that a number is made of. -/
  | kind
  deriving Repr, DecidableEq

/-- A rectangular block of numbers of any dimension, entries in row-major order. -/
structure Block (K : Type) where
  shape : List Nat
  entries : List K
  deriving Repr

namespace Block

variable {K : Type}

/-- The rows of a block of dimension two; a block of rows without entries has that many empty
rows. -/
def rowsOf (width : Nat) : Nat → List K → List (List K)
  | 0, _ => []
  | n + 1, xs => xs.take width :: rowsOf width n (xs.drop width)

/-- The rows of a block of dimension two. -/
def rows (b : Block K) : List (List K) :=
  match b.shape with
  | [n, width] => rowsOf width n b.entries
  | _ => []

end Block

/-- The text of a shape: lengths in parentheses, a single one with a comma behind it. -/
def shapeText (shape : List Nat) : String :=
  match shape with
  | [n] => "(" ++ toString n ++ ",)"
  | _ => "(" ++ ", ".intercalate (shape.map fun n => toString n) ++ ")"

/-- The lengths that two shapes share from the outside in. -/
def commonShape : List Nat → List Nat → List Nat
  | a :: as, b :: bs => if a == b then a :: commonShape as bs else []
  | _, _ => []

/-- What is known of the shape of nested lists: the lengths from the outside in, and whether all
parts agree. -/
structure Extent where
  lengths : List Nat
  regular : Bool

/-- The extent of parts side by side, of which `first` is one. -/
def Extent.join (first other : Extent) : Extent :=
  ⟨commonShape first.lengths other.lengths,
    first.regular && other.regular && first.lengths == other.lengths⟩

namespace Datum

variable {K : Type}

section Reading

variable [Numeral K]

/-- The number that a value stands for. -/
def number : Datum K → Except Unreadable K
  | real x => .ok x
  | whole n => .ok (Scalar.ofInt n)
  | flag b => .ok (if b then Scalar.one else Scalar.zero)
  | text s => match Numeral.read s with
    | some x => .ok x
    | none => .error (.word s)
  | absent | list _ | mapping | function => .error .kind

/-- An entry of a block, where an absent value is a missing number. -/
def entry : Datum K → Except Unreadable K
  | absent => .ok Numeral.missing
  | d => d.number

/-- Whether a value is a single number, and no text of one. -/
def isNumber : Datum K → Bool
  | flag _ | whole _ | real _ => true
  | _ => false

mutual

/-- The extent of a value. -/
def extent : Datum K → Extent
  | list items =>
    let inner := extents items
    ⟨items.length :: inner.lengths, inner.regular⟩
  | _ => ⟨[], true⟩

/-- The joint extent of values side by side. -/
def extents : List (Datum K) → Extent
  | [] => ⟨[], true⟩
  | [d] => extent d
  | d :: ds => (extent d).join (extents ds)

end

mutual

/-- The entries of a value from left to right; the first one that is no number fails. -/
def entries : Datum K → Except Unreadable (List K)
  | list items => entriesAll items
  | absent => .ok [Numeral.missing]
  | d => (number d).map ([·])

/-- The entries of values side by side. -/
def entriesAll : List (Datum K) → Except Unreadable (List K)
  | [] => .ok []
  | d :: ds => do
    let front ← entries d
    let back ← entriesAll ds
    return front ++ back

end

/-- The block of numbers that nested lists form. Their shape is looked at before their entries. -/
def block (d : Datum K) : Except Unreadable (Block K) :=
  let e := d.extent
  if e.regular then (d.entries).map fun xs => ⟨e.lengths, xs⟩
  else .error (.ragged e.lengths)

/-- The items of a list, of a text its characters; nothing else has items. -/
def items? : Datum K → Option (List (Datum K))
  | list xs => some xs
  | text s => some (s.toList.map fun c => text (String.singleton c))
  | _ => none

/-- The numbers in a list. -/
def numbers (d : Datum K) : Except Unreadable (List K) :=
  match d.items? with
  | some xs => xs.mapM number
  | none => .error .kind

end Reading

section Printing

variable [Numeral K]

mutual

/-- A value as it stands inside a list: texts are quoted. -/
def inner : Datum K → String
  | absent => "None"
  | flag b => if b then "True" else "False"
  | whole n => toString n
  | real x => Numeral.text x
  | text s => Text.quoted s
  | list items => "[" ++ innerAll items ++ "]"
  | mapping => "\x7b\x7d"
  | function => "<function>"

/-- Values separated by commas. -/
def innerAll : List (Datum K) → String
  | [] => ""
  | [d] => inner d
  | d :: ds => inner d ++ ", " ++ innerAll ds

end

/-- A value by itself: a text is shown as it is. -/
def shown : Datum K → String
  | text s => s
  | d => d.inner

end Printing

end Datum

end DualDynamic
