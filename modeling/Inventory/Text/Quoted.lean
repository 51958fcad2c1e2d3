import Inventory.Text.Printable

namespace Inventory.Text

/-- Hexadecimal digits, filled up with zeros to a width. -/
def hex (width n : Nat) : Text :=
  let digits := Nat.toDigits 16 n
  List.replicate (width - digits.length) '0' ++ digits

/-- A character between the given quotes. -/
def escapedChar (quote c : Char) : Text :=
  if c = quote || c = '\\' then ['\\', c]
  else if c = '\n' then ['\\', 'n']
  else if c = '\r' then ['\\', 'r']
  else if c = '\t' then ['\\', 't']
  else if isPrintable c then [c]
  else if rank c < 0x100 then '\\' :: 'x' :: hex 2 (rank c)
  else if rank c < 0x10000 then '\\' :: 'u' :: hex 4 (rank c)
  else '\\' :: 'U' :: hex 8 (rank c)

/-- The text between quotes. -/
def quoted (t : Text) : Text :=
  let quote := if t.contains '\'' && !t.contains '"' then '"' else '\''
  quote :: t.flatMap (escapedChar quote) ++ [quote]

end Inventory.Text
