import Inventory.Entry

namespace Inventory

structure Record where
  path : Path
  /-- 1 for a node, or a link that leads to one; 2 for a link that leads nowhere. -/
  existence : Nat
  /-- Where a link leads, or where a node physically lies that was reached
      through an entered link; otherwise empty. -/
  target : Text
  size : Int
  kind : EntryKind
  stamps : Timestamps
deriving DecidableEq

structure Row where
  path : Path
  existence : Int
  target : Text
  size : Int
  kind : Text
  stamps : Timestamps
deriving DecidableEq

def Record.row (r : Record) : Row := ⟨r.path, r.existence, r.target, r.size, r.kind.label, r.stamps⟩

/-- A time with a separator between its parts. -/
def TimePair.text (separator : Text) (t : TimePair) : Text :=
  Text.ofInt t.seconds ++ separator ++ Text.ofInt t.nanos

namespace Row

def fieldSeparator : Char := ';'

def shortFields (r : Row) : List Text :=
  [r.path.text, Text.ofInt r.existence, r.target, Text.ofInt r.size, r.kind]

def longFields (separator : Text) (r : Row) : List Text :=
  r.shortFields ++ [r.stamps.changed, r.stamps.accessed, r.stamps.modified].map (TimePair.text separator)

def shortLine (r : Row) : Text := Text.joined fieldSeparator r.shortFields

def longLine (separator : Text) (r : Row) : Text := Text.joined fieldSeparator (r.longFields separator)

end Row

/-- The two lines that stand before short lines: the time and the root. -/
def headerLines (separator : Text) (now : Int) (root : Path) : List Text :=
  [(TimePair.ofNanos now).text separator, root.text]

end Inventory
