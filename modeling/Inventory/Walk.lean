import Inventory.Entry
import Inventory.Failure
import Inventory.Notice

/-!
A walk visits a tree in preorder and never goes through a link by itself. Its caller may
ask to go through the link that was just visited, not to go below the directory that was
just visited, or to give up the open directories. A request holds one path and is looked
at when the walk goes on from an entry (`Walk.resume`): from the root only a request to
follow; from any other entry a request to prune, and then a request to follow unless the
entry is a directory that is gone into.
-/
namespace Inventory

/-- What a walk is about: the tree, the order of siblings and what is cut. -/
structure Walk where
  system : FileSystem
  root : Path
  /-- Siblings come by name and not in read order. -/
  sorted : Bool
  /-- Cuts an entry by its path below the root and whether it is a directory. -/
  excludes : Path → Bool → Bool

/-- An open directory with the names that were not handed out yet. Its children
    have the given depth. -/
structure Stream where
  path : Path
  depth : Nat
  pending : List Name
deriving DecidableEq

/-- Where a cursor stands. -/
inductive Position where
  | idle
  /-- Started, with the root still to be visited. -/
  | ready
  | onRoot (e : Entry)
  | onEntry (e : Entry)
  | ended
deriving DecidableEq

structure Cursor where
  streams : List Stream
  toFollow : Option Path
  toPrune : Option Path
  position : Position
deriving DecidableEq

namespace Cursor

def fresh : Cursor := ⟨[], none, none, .idle⟩

def start (c : Cursor) : Except Failure Cursor :=
  if c.position = .idle then .ok { c with position := .ready } else .error .walkedTwice

def follow (c : Cursor) (e : Entry) : Except Failure Cursor :=
  if e.kind = .symbolicLink then .ok { c with toFollow := some e.path } else .error (.notALink e.path)

def prune (c : Cursor) (e : Entry) : Cursor := { c with toPrune := some e.path }

/-- Gives up all open directories; the walk stays where it stands. -/
def close (c : Cursor) : Cursor := { c with streams := [] }

/-- Ends the walk and gives up all open directories. -/
def stop (c : Cursor) : Cursor := { c with streams := [], position := .ended }

end Cursor

inductive Visit where
  | entry (e : Entry)
  | passedOver (why : Notice)
  | failed (f : Failure)

/-- What one step of a walk gives: the next entry, none at the end. -/
structure Pull where
  notices : List Notice
  cursor : Cursor
  outcome : Except Failure (Option Entry)

namespace Walk

def ordered (w : Walk) (names : List Name) : List Name :=
  if w.sorted then names.mergeSort fun a b => Text.le a.text b.text else names

def openStream (w : Walk) (p : Path) (depth : Nat) : Except Errno Stream := do
  let names ← w.system.list p
  .ok ⟨p, depth, w.ordered names⟩

def visit (w : Walk) (directory : Path) (depth : Nat) (n : Name) : Visit :=
  let p := directory.child n
  match w.system.lstat p with
  | .error _ => .passedOver (.unreadable p)
  | .ok node =>
    match node.kind? with
    | none => .passedOver (.unsupported p)
    | some kind =>
      match p.relativeTo? w.root with
      | none => .failed (.notBelow p w.root)
      | some below =>
        if w.excludes below (kind = .directory) then .passedOver (.excluded p)
        else .entry (.ofNode p kind node depth)

def pullFrom (w : Walk) (directory : Path) (depth : Nat) :
    List Name → List Notice × Except Failure (Option (Entry × List Name))
  | [] => ([], .ok none)
  | n :: rest =>
    match w.visit directory depth n with
    | .entry e => ([], .ok (some (e, rest)))
    | .failed f => ([], .error f)
    | .passedOver why =>
      let later := pullFrom w directory depth rest
      (why :: later.1, later.2)

/-- The first entry of the innermost stream that has one; the streams that are
    used up are gone. -/
def pull (w : Walk) : List Stream → List Notice × Except Failure (Option (Entry × List Stream))
  | [] => ([], .ok none)
  | s :: outer =>
    match w.pullFrom s.path s.depth s.pending with
    | (notices, .ok (some (e, rest))) => (notices, .ok (some (e, { s with pending := rest } :: outer)))
    | (notices, .error f) => (notices, .error f)
    | (notices, .ok none) =>
      let later := pull w outer
      (notices ++ later.1, later.2)

/-- The root as an entry, with its directory open if it is one. -/
def enterRoot (w : Walk) : Except Failure (Entry × List Stream) :=
  match w.system.lstat w.root with
  | .error why => .error (.reported (.rootNotOpened w.root (some why)))
  | .ok node =>
    match node.kind? with
    | none => .error (.reported (.rootNotOpened w.root none))
    | some kind =>
      let e := Entry.ofNode w.root kind node 0
      if kind = .directory then
        match w.openStream w.root 1 with
        | .error why => .error (.reported (.rootNotOpened w.root (some why)))
        | .ok s => .ok (e, [s])
      else .ok (e, [])

/-- Goes below an entry. An entry that cannot be opened is left with a notice. -/
def descend (w : Walk) (c : Cursor) (e : Entry) : List Notice × Cursor :=
  match w.openStream e.path (e.depth + 1) with
  | .error why => ([.notOpened e.path why], c)
  | .ok s => ([], { c with streams := s :: c.streams })

/-- Goes through an entry if the request to follow names it. -/
def descendIfFollowed (w : Walk) (c : Cursor) (e : Entry) : List Notice × Cursor :=
  let used := { c with toFollow := none }
  if c.toFollow = some e.path then w.descend used e else ([], used)

/-- Carries out what was asked for since the last entry. -/
def resume (w : Walk) (c : Cursor) : List Notice × Cursor :=
  match c.position with
  | .onRoot e => w.descendIfFollowed c e
  | .onEntry e =>
    let used := { c with toPrune := none }
    if e.kind = .directory ∧ c.toPrune ≠ some e.path then w.descend used e else w.descendIfFollowed used e
  | _ => ([], c)

def next (w : Walk) (c : Cursor) : Pull :=
  match c.position with
  | .idle | .ended => ⟨[], c, .ok none⟩
  | .ready =>
    match w.enterRoot with
    | .error f => ⟨[], { c with position := .ended }, .error f⟩
    | .ok (e, streams) => ⟨[], { c with streams, position := .onRoot e }, .ok (some e)⟩
  | .onRoot _ | .onEntry _ =>
    let resumed := w.resume c
    let found := w.pull resumed.2.streams
    let notices := resumed.1 ++ found.1
    match found.2 with
    | .error f => ⟨notices, resumed.2.stop, .error f⟩
    | .ok none => ⟨notices, resumed.2.stop, .ok none⟩
    | .ok (some (e, streams)) => ⟨notices, { resumed.2 with streams, position := .onEntry e }, .ok (some e)⟩

end Walk
end Inventory
