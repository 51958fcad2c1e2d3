import Inventory.Failure
import Inventory.Notice

namespace Inventory

/-- The directory that stands in place of a path. -/
structure Redirection where
  source : Path
  destination : Path
deriving DecidableEq

namespace Redirection

/-- The redirection is about the paths under its source. -/
def AppliesTo (r : Redirection) (p : Path) : Prop := p.Under r.source

instance (r : Redirection) (p : Path) : Decidable (r.AppliesTo p) := inferInstanceAs (Decidable (p.Under _))

/-- The path with the destination in place of the source. -/
def relocate? (r : Redirection) (p : Path) : Option Path := (p.relativeTo? r.source).map r.destination.join

/-- The same where the redirection is meant to apply. -/
def relocate (r : Redirection) (p : Path) : Except Failure Path :=
  match r.relocate? p with
  | some q => .ok q
  | none => .error (.notBelow p r.source)

theorem relocate?_isSome (r : Redirection) (p : Path) : (r.relocate? p).isSome ↔ r.AppliesTo p := by
  simp [relocate?, AppliesTo, Path.relativeTo?_isSome]

theorem relocate_eq_ok_iff {r : Redirection} {p q : Path} : r.relocate p = .ok q ↔ r.relocate? p = some q := by
  unfold relocate; split <;> simp [*]

end Redirection

/-- The redirections in force, innermost first. -/
structure RedirectionStack where
  items : List Redirection
deriving DecidableEq

namespace RedirectionStack

def empty : RedirectionStack := ⟨[]⟩

def toList (s : RedirectionStack) : List Redirection := s.items.reverse

def size (s : RedirectionStack) : Nat := s.items.length

def current? (s : RedirectionStack) : Option Redirection := s.items.head?

def push (s : RedirectionStack) (r : Redirection) : RedirectionStack := ⟨r :: s.items⟩

/-- What is left of the stack for a path. -/
def reconcile (s : RedirectionStack) (p : Path) : RedirectionStack :=
  ⟨s.items.dropWhile fun r => ¬ r.AppliesTo p⟩

/-- The redirections that are left behind for a path, innermost first. -/
def leftFor (s : RedirectionStack) (p : Path) : List Redirection := s.items.takeWhile fun r => ¬ r.AppliesTo p

def pushNotice (s : RedirectionStack) (r : Redirection) : Notice := .entered r.source r.destination (s.size + 1)

def reconcileNotices (s : RedirectionStack) (p : Path) : List Notice :=
  (s.leftFor p).map fun r => .left r.source r.destination

@[simp] theorem toList_empty : empty.toList = [] := rfl

@[simp] theorem toList_push (s : RedirectionStack) (r : Redirection) : (s.push r).toList = s.toList ++ [r] := by
  simp [toList, push]

@[simp] theorem length_toList (s : RedirectionStack) : s.toList.length = s.size := by simp [toList, size]

end RedirectionStack
end Inventory
