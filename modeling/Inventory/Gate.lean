import Inventory.Link
import Inventory.Redirection
import Inventory.Walk

/-!
Whether a link that was just reported is entered: its target must be present, lie inside
the local root and not inside the search root, not enclose the link (`Gate.Encloses`),
and be a directory. What is reached through entered links physically lies where the
innermost redirection says (`Gate.location?`); if that is inside the search root, it is
visited by the walk itself and skipped here.
-/
namespace Inventory

/-- The canonical roots between which links are entered. -/
structure Gate where
  system : FileSystem
  localRoot : Path
  searchRoot : Path

inductive Verdict where
  | absent
  | outside (target : Path)
  | alreadyScanned (target : Path)
  | encloses (target : Path)
  | unreadable (target : Path) (why : Errno)
  | notDirectory (target : Path)
  | enter (target : Path)
deriving DecidableEq

def Verdict.notices (link : Path) : Verdict → List Notice
  | outside target => [.outside link target]
  | alreadyScanned target => [.alreadyScanned link target]
  | encloses target => [.encloses link target]
  | _ => []

structure Passage where
  notices : List Notice
  cursor : Cursor
  stack : RedirectionStack
  entered : Except Failure Bool

namespace Gate

def ofRoots (fs : FileSystem) (localRoot searchRoot : Path) : Gate :=
  ⟨fs, fs.canonical localRoot, fs.canonical searchRoot⟩

/-- Where an entry physically lies if it was reached through an entered link. A
    link is never said to lie elsewhere. The stack is up to date for the entry. -/
def location? (stack : RedirectionStack) (e : Entry) : Option Path :=
  if e.kind = .symbolicLink then none else stack.current?.bind fun r => r.relocate? e.path

/-- The entry was reached through an entered link and physically lies inside
    the search root. -/
def revisits (g : Gate) (stack : RedirectionStack) (e : Entry) : Except Failure Bool :=
  match stack.current? with
  | none => .ok false
  | some r => (r.relocate e.path).map fun p => p.Under g.searchRoot

/-- The target is above the directory of a link outside the search root, or
    above a directory that was entered. A link inside the search root leads
    back to itself only through the search root, which is not entered. -/
def Encloses (g : Gate) (stack : RedirectionStack) (e : Entry) (target : Path) : Prop :=
  let directory := g.system.canonical e.path.parent
  (¬ directory.Under g.searchRoot ∧ directory.Under target) ∨
    ∃ r ∈ stack.items, r.destination.Under target

instance (g : Gate) (stack : RedirectionStack) (e : Entry) (target : Path) :
    Decidable (g.Encloses stack e target) := inferInstanceAs (Decidable (_ ∨ _))

def judge (g : Gate) (stack : RedirectionStack) (e : Entry) (r : LinkResolution) : Verdict :=
  match r.present, r.target with
  | true, some target =>
    if ¬ target.Under g.localRoot then .outside target
    else if target.Under g.searchRoot then .alreadyScanned target
    else if g.Encloses stack e target then .encloses target
    else match g.system.stat target with
      | .error why => .unreadable target why
      | .ok n => if n.isDirectory then .enter target else .notDirectory target
  | _, _ => .absent

def pass (g : Gate) (c : Cursor) (stack : RedirectionStack) (e : Entry) (r : LinkResolution) : Passage :=
  let verdict := g.judge stack e r
  match verdict with
  | .unreadable target why => ⟨[], c, stack, .error (.reported (.targetNotRead target why))⟩
  | .enter target =>
    match c.follow e with
    | .error f => ⟨[], c, stack, .error f⟩
    | .ok c =>
      let redirection := ⟨e.path, target⟩
      ⟨[stack.pushNotice redirection], c, stack.push redirection, .ok true⟩
  | _ => ⟨verdict.notices e.path, c, stack, .ok false⟩

end Gate
end Inventory
