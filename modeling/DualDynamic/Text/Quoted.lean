import DualDynamic.Text.Printable

/-!
# Quoted text

A text as it appears inside a message. It stands in single quotes, or in double quotes if it holds
a single quote and no double one. The quote in use and the backslash get a backslash in front,
line breaks and tabs have letters, and a character that has no glyph is written by its code.
-/

namespace DualDynamic.Text

/-- The digits of `n` in base sixteen. -/
def hexDigits (n : Nat) : List Char := Nat.toDigits 16 n

/-- The code of a character in `width` hexadecimal digits. -/
def hexPadded (width n : Nat) : List Char :=
  List.replicate (width - (hexDigits n).length) '0' ++ hexDigits n

/-- A character without a glyph: two, four or eight digits, as many as its code needs. -/
def escapeCode (c : Char) : List Char :=
  let n := c.toNat
  if n < 0x100 then ['\\', 'x'] ++ hexPadded 2 n
  else if n < 0x10000 then ['\\', 'u'] ++ hexPadded 4 n
  else ['\\', 'U'] ++ hexPadded 8 n

/-- One character inside the quotes. -/
def escape (quote c : Char) : List Char :=
  if c == quote || c == '\\' then ['\\', c]
  else if c == '\n' then ['\\', 'n']
  else if c == '\r' then ['\\', 'r']
  else if c == '\t' then ['\\', 't']
  else if isPrintable c then [c]
  else escapeCode c

/-- The quote that needs the fewer escapes: the single one, unless only that one occurs. -/
def quoteFor (cs : List Char) : Char :=
  if cs.contains '\'' && !cs.contains '"' then '"' else '\''

/-- The quoted form of a text. -/
def quoted (s : String) : String :=
  let cs := s.toList
  let quote := quoteFor cs
  String.ofList ([quote] ++ cs.flatMap (escape quote) ++ [quote])

end DualDynamic.Text
