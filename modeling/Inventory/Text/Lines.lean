import Inventory.Text

namespace Inventory.Text

/-- `\r\n` and `\r` are read as one line feed. -/
def unifiedBreaks : Text → Text
  | [] => []
  | '\r' :: '\n' :: t => '\n' :: unifiedBreaks t
  | c :: t => (if c = '\r' then '\n' else c) :: unifiedBreaks t

/-- A character that ends a line. -/
def isLineBreak (c : Char) : Bool :=
  c = '\n' || c = '\r' || c = '\x0b' || c = '\x0c' || c = '\x1c' || c = '\x1d' || c = '\x1e' ||
    c = '\u0085' || c = '\u2028' || c = '\u2029'

/-- The lines of a text in which `\r\n` does not occur, without their ends. -/
def lines : Text → List Text
  | [] => []
  | c :: t =>
    if isLineBreak c then [] :: lines t
    else match lines t with
      | [] => [[c]]
      | line :: rest => (c :: line) :: rest

/-- White space as it is dropped at the end of a rule. -/
def isBlank (c : Char) : Bool :=
  ('\t' ≤ c && c ≤ '\r') || ('\x1c' ≤ c && c ≤ ' ') || c = '\u0085' || c = '\u00a0' || c = '\u1680' ||
    ('\u2000' ≤ c && c ≤ '\u200a') || c = '\u2028' || c = '\u2029' || c = '\u202f' || c = '\u205f' ||
    c = '\u3000'

/-- The text without the white space at its end. -/
def trimmedEnd (t : Text) : Text := (t.reverse.dropWhile isBlank).reverse

end Inventory.Text
