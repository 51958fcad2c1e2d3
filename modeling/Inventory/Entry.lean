import Inventory.FileSystem.Calls

namespace Inventory

inductive EntryKind where
  | directory
  | regularFile
  | symbolicLink
deriving DecidableEq, Repr

namespace EntryKind

def label : EntryKind → Text
  | directory => "directory".toList
  | regularFile => "regular file".toList
  | symbolicLink => "symbolic link".toList

/-- The kind that the four type bits of a mode say; none for other types. -/
def ofMode (mode : Nat) : Option EntryKind :=
  match mode / 0x1000 % 16 with
  | 0xA => some symbolicLink
  | 0x4 => some directory
  | 0x8 => some regularFile
  | _ => none

/-- A mode has 32 bits. -/
def isMode (mode : Int) : Bool := 0 ≤ mode && mode < 0x100000000

end EntryKind

/-- The kind of a node, if it is reported at all. -/
def Node.kind? (n : Node) : Option EntryKind := EntryKind.ofMode n.content.typeBits

/-- The kind of what a node holds. -/
def Content.kind? : Content → Option EntryKind
  | directory => some .directory
  | regular _ => some .regularFile
  | link _ => some .symbolicLink
  | _ => none

theorem Node.kind?_eq (n : Node) : n.kind? = n.content.kind? := by
  unfold kind?
  cases n.content <;> simp [Content.typeBits, EntryKind.ofMode, Content.kind?]

theorem Node.kind?_eq_directory (n : Node) : n.kind? = some .directory ↔ n.isDirectory = true := by
  unfold kind? isDirectory
  cases n.content <;> simp [Content.typeBits, EntryKind.ofMode]

structure TimePair where
  seconds : Int
  nanos : Int
deriving DecidableEq, Repr

namespace TimePair

/-- Seconds are rounded down. -/
def ofNanos (t : Int) : TimePair := ⟨t.fdiv 1000000000, t.fmod 1000000000⟩

def toNanos (t : TimePair) : Int := t.seconds * 1000000000 + t.nanos

theorem toNanos_ofNanos (t : Int) : (ofNanos t).toNanos = t := by
  simp only [toNanos, ofNanos]
  have := Int.mul_fdiv_add_fmod t 1000000000
  omega

end TimePair

structure Timestamps where
  changed : TimePair
  accessed : TimePair
  modified : TimePair
deriving DecidableEq, Repr

def Times.stamps (t : Times) : Timestamps := ⟨.ofNanos t.changed, .ofNanos t.accessed, .ofNanos t.modified⟩

/-- A visited node. The root of the walk has depth zero. -/
structure Entry where
  path : Path
  kind : EntryKind
  size : Int
  stamps : Timestamps
  depth : Nat
deriving DecidableEq

namespace Entry

def name (e : Entry) : Text := e.path.lastName

def ofNode (path : Path) (kind : EntryKind) (n : Node) (depth : Nat) : Entry :=
  ⟨path, kind, n.size, n.times.stamps, depth⟩

end Entry
end Inventory
