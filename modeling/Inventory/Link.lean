import Inventory.Canonical
import Inventory.Failure
import Inventory.Notice

namespace Inventory

structure LinkResolution where
  target : Option Path
  present : Bool
deriving DecidableEq

namespace LinkResolution

def absent : LinkResolution := ⟨none, false⟩

/-- 1 for a link that leads to a node, 2 for one that does not. -/
def existenceCode (r : LinkResolution) : Nat := if r.present then 1 else 2

def targetText (r : LinkResolution) : Text := (r.target.map Path.text).getD []

end LinkResolution

/-- The existence code of an entry. Only a link needs a resolution for it. -/
def existenceCode (kind : EntryKind) (resolution : Option LinkResolution) : Except Failure Nat :=
  if kind = .symbolicLink then
    match resolution with
    | some r => .ok r.existenceCode
    | none => .error .noResolution
  else .ok 1

namespace FileSystem

def resolveLink (fs : FileSystem) (p : Path) : LinkResolution :=
  match fs.strictForm p with
  | .error _ => .absent
  | .ok target => if fs.canAccess target then ⟨some target, true⟩ else .absent

def resolveNotices (fs : FileSystem) (p : Path) : List Notice :=
  match fs.strictForm p with
  | .error (failing, why) => [.unresolved p failing why]
  | .ok _ => []

end FileSystem
end Inventory
