import TwoLevel.Text.Unprintable

/-!
# Quoted characters and texts

This file defines how a character or a whole text is shown inside a message: between quotation
marks, with the mark itself, the backslash and everything that would not be visible escaped.

## Main definitions

- `Quoted.escape` — one character as it stands between two given marks
- `Quoted.ofChar` — a character between apostrophes
- `Quoted.ofText` — a text between double quotes
-/

namespace TwoLevel

namespace Quoted

/-- The escape by number: the code point in lower-case hexadecimal digits without leading zeros,
between braces. -/
def byNumber (c : Char) : List Char :=
  ['\\', 'u', '\x7b'] ++ Nat.toDigits 16 c.toNat ++ ['\x7d']

/-- One character between two marks `mark`. Four controls have an escape by name, the mark and the
backslash are escaped as themselves, an unprintable character is escaped by number, and any other
character stands for itself. -/
def escape (mark c : Char) : List Char :=
  if c = '\x00' then ['\\', '0']
  else if c = '\t' then ['\\', 't']
  else if c = '\n' then ['\\', 'n']
  else if c = '\r' then ['\\', 'r']
  else if c = mark || c = '\\' then ['\\', c]
  else if isUnprintable c then byNumber c
  else [c]

/-- A character between apostrophes. -/
def ofChar (c : Char) : String :=
  String.ofList ('\'' :: escape '\'' c ++ ['\''])

/-- A text between double quotes. -/
def ofText (text : List Char) : String :=
  String.ofList ('"' :: text.flatMap (escape '"') ++ ['"'])

end Quoted

end TwoLevel
