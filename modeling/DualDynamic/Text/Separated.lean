/-!
# Comma separated rows

The text of a table: fields are separated by commas and rows end with a line break. A field that
holds a comma, a quote or a line break stands in quotes, and a quote inside it is written twice.

Writing ends every row with a carriage return and a line feed. Reading takes either of them alone
as well, reads a quote inside an unquoted field as itself, goes on after a closing quote as if the
field were unquoted, and closes what is still open at the end of the text.
-/

namespace DualDynamic.Text.Separated

/-! ## Writing -/

/-- Whether a field has to stand in quotes. -/
def needsQuotes (field : List Char) : Bool :=
  field.any fun c => c == ',' || c == '"' || c == '\r' || c == '\n'

/-- Every quote written twice. -/
def doubleQuotes (field : List Char) : List Char :=
  field.flatMap fun c => if c == '"' then ['"', '"'] else [c]

/-- The text of one field. -/
def encodeField (field : List Char) : List Char :=
  if needsQuotes field then '"' :: doubleQuotes field ++ ['"'] else field

/-- The text of one row with its line break; a row of one empty field is told from an empty row
by its quotes. -/
def encodeRow (fields : List (List Char)) : List Char :=
  match fields with
  | [[]] => ['"', '"', '\r', '\n']
  | _ => [','].intercalate (fields.map encodeField) ++ ['\r', '\n']

/-! ## Reading -/

/-- Where the reader stands. -/
inductive Mode where
  /-- At the start of a row. -/
  | rowStart
  /-- Behind a carriage return that ended a row; a line feed here belongs to it. -/
  | afterReturn
  /-- At the start of a field. -/
  | fieldStart
  /-- In a field without quotes, or behind its quoted part. -/
  | plain
  /-- Between the quotes of a field. -/
  | quotedPart
  /-- Behind a quote that closes the quoted part unless another one follows. -/
  | quoteSeen
  deriving Repr, DecidableEq

/-- The reader: the rows read, the fields of the current row and the characters of the current
field, all in reverse order. -/
structure Reader where
  mode : Mode
  rows : List (List (List Char))
  fields : List (List Char)
  field : List Char
  deriving Repr

namespace Reader

/-- The reader before the first character. -/
def start : Reader := ⟨.rowStart, [], [], []⟩

/-- The current field is complete. -/
def endField (r : Reader) : Reader :=
  { r with fields := r.field.reverse :: r.fields, field := [], mode := .fieldStart }

/-- The current row is complete; `c` is the line break that ends it. -/
def endRow (r : Reader) (c : Char) : Reader :=
  { r with
    rows := r.fields.reverse :: r.rows
    fields := []
    mode := if c == '\r' then .afterReturn else .rowStart }

/-- A character that belongs to the current field. -/
def push (r : Reader) (mode : Mode) (c : Char) : Reader :=
  { r with field := c :: r.field, mode := mode }

/-- Whether a character ends a row. -/
def isBreak (c : Char) : Bool := c == '\n' || c == '\r'

/-- A character outside quotes. -/
def stepPlain (r : Reader) (c : Char) : Reader :=
  if isBreak c then r.endField.endRow c
  else if c == ',' then r.endField
  else r.push .plain c

/-- A character at the start of a field, where a quote opens the quoted part. -/
def stepFieldStart (r : Reader) (c : Char) : Reader :=
  if c == '"' then { r with mode := .quotedPart } else r.stepPlain c

/-- A character at the start of a row, where a line break makes an empty row. -/
def stepRowStart (r : Reader) (c : Char) : Reader :=
  if isBreak c then r.endRow c else r.stepFieldStart c

/-- The next character. -/
def step (r : Reader) (c : Char) : Reader :=
  match r.mode with
  | .rowStart => r.stepRowStart c
  | .afterReturn => if c == '\n' then { r with mode := .rowStart } else r.stepRowStart c
  | .fieldStart => r.stepFieldStart c
  | .plain => r.stepPlain c
  | .quotedPart => if c == '"' then { r with mode := .quoteSeen } else r.push .quotedPart c
  | .quoteSeen => if c == '"' then r.push .quotedPart c else r.stepPlain c

/-- The rows once the text has ended. -/
def finish (r : Reader) : List (List (List Char)) :=
  match r.mode with
  | .rowStart | .afterReturn => r.rows.reverse
  | _ => (r.endField.endRow '\n').rows.reverse

end Reader

/-- The rows of a text. -/
def decodeRows (cs : List Char) : List (List (List Char)) :=
  (cs.foldl Reader.step Reader.start).finish

end DualDynamic.Text.Separated
