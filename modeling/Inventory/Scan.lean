import Inventory.Gate
import Inventory.Record

/-!
A scan reports each entry of a walk as a record, except those that were reached through
an entered link and physically lie inside the search root. The gate decides about a link
when the scan goes on after its record, so a scan that is given up after a record decides
nothing more. `Scanner.step` handles one entry; `Scan.trace` runs the steps and keeps in
order what is reported and what is noticed.
-/
namespace Inventory

/-- What a scan is about. Links are entered only inside the local root. -/
structure Scan where
  walk : Walk
  localRoot : Path

def Scan.gate (s : Scan) : Gate := Gate.ofRoots s.walk.system s.localRoot s.walk.root

@[simp] theorem Scan.gate_system (s : Scan) : s.gate.system = s.walk.system := rfl

@[simp] theorem Scan.gate_localRoot (s : Scan) : s.gate.localRoot = s.walk.system.canonical s.localRoot := rfl

@[simp] theorem Scan.gate_searchRoot (s : Scan) : s.gate.searchRoot = s.walk.system.canonical s.walk.root := rfl

structure Scanner where
  cursor : Cursor
  stack : RedirectionStack
  count : Nat
  /-- The link that was reported last, until the gate has decided about it. -/
  waiting : Option (Entry × LinkResolution)
deriving DecidableEq

inductive Item where
  | notice (n : Notice)
  | record (r : Record)
deriving DecidableEq

inductive Ending where
  | complete
  | failed (f : Failure)
  /-- It did not come to its end in the steps it was given. -/
  | unfinished
deriving DecidableEq

structure Progress where
  items : List Item
  after : Scanner ⊕ Ending

structure Trace where
  items : List Item
  ending : Ending
deriving DecidableEq

namespace Item

def record? : Item → Option Record
  | record r => some r
  | notice _ => none

def notice? : Item → Option Notice
  | record _ => none
  | notice n => some n

end Item

structure ScanOptions where
  /-- Links are entered only inside this directory; if it is not given, the
      search root takes its place and no link is entered. -/
  localRoot : Option Path
  sorted : Bool
  excludes : Path → Bool → Bool

def ScanOptions.standard : ScanOptions := ⟨none, false, fun _ _ => false⟩

/-- The record of an entry, with the link that is to be decided about. -/
def Scanner.report (fs : FileSystem) (stack : RedirectionStack) (e : Entry) :
    Record × Option (Entry × LinkResolution) :=
  if e.kind = .symbolicLink then
    let r := fs.resolveLink e.path
    (⟨e.path, r.existenceCode, r.targetText, e.size, e.kind, e.stamps⟩, some (e, r))
  else
    let target := ((Gate.location? stack e).map Path.text).getD []
    (⟨e.path, 1, target, e.size, e.kind, e.stamps⟩, none)

namespace Scan

def ofOptions (fs : FileSystem) (searchRoot : Path) (options : ScanOptions) : Scan where
  walk := ⟨fs, searchRoot, options.sorted, options.excludes⟩
  localRoot := options.localRoot.getD searchRoot

def begin : Scanner := ⟨{ Cursor.fresh with position := .ready }, .empty, 0, none⟩

/-- Decides about the link that was reported last. -/
def decideWaiting (s : Scan) (c : Scanner) : List Notice × Except Failure Scanner :=
  match c.waiting with
  | none => ([], .ok c)
  | some (e, r) =>
    let passage := s.gate.pass c.cursor c.stack e r
    (passage.notices, match passage.entered with
      | .error f => .error f
      | .ok _ => .ok { c with cursor := passage.cursor, stack := passage.stack, waiting := none })

def handle (s : Scan) (c : Scanner) (e : Entry) : Progress :=
  let left := c.stack.reconcileNotices e.path
  let stack := c.stack.reconcile e.path
  match s.gate.revisits stack e with
  | .error f => ⟨left.map .notice, .inr (.failed f)⟩
  | .ok true =>
    ⟨(left ++ [Notice.revisited e.path]).map .notice, .inl { c with cursor := c.cursor.prune e, stack }⟩
  | .ok false =>
    let resolving := if e.kind = .symbolicLink then s.walk.system.resolveNotices e.path else []
    let reported := Scanner.report s.walk.system stack e
    ⟨(left ++ resolving).map .notice ++ [.record reported.1],
      .inl { c with stack, count := c.count + 1, waiting := reported.2 }⟩

/-- One step: the decision that is left, and the next entry of the walk. -/
def step (s : Scan) (c : Scanner) : Progress :=
  let decided := s.decideWaiting c
  match decided.2 with
  | .error f => ⟨decided.1.map .notice, .inr (.failed f)⟩
  | .ok c =>
    let pulled := s.walk.next c.cursor
    let before := (decided.1 ++ pulled.notices).map Item.notice
    match pulled.outcome with
    | .error f => ⟨before, .inr (.failed f)⟩
    | .ok none => ⟨before ++ [.notice (.scanned c.count s.walk.root)], .inr .complete⟩
    | .ok (some e) =>
      let progress := s.handle { c with cursor := pulled.cursor } e
      ⟨before ++ progress.items, progress.after⟩

def run (s : Scan) : Nat → Scanner → Trace
  | 0, _ => ⟨[], .unfinished⟩
  | steps + 1, c =>
    let progress := s.step c
    match progress.after with
    | .inr ending => ⟨progress.items, ending⟩
    | .inl c =>
      let later := run s steps c
      ⟨progress.items ++ later.items, later.ending⟩

/-- More steps than a scan can take: a walked path goes through each directory
    as the target of an entered link at most once, so it is no longer than the
    square of the number of nodes, and each directory on it has at most as many
    children as there are nodes. -/
def stepBound (s : Scan) : Nat :=
  let nodes := s.walk.system.table.length + 2
  Nat.pow nodes (nodes * nodes)

def trace (s : Scan) : Trace := s.run s.stepBound begin

end Scan

namespace Trace

def records (t : Trace) : List Record := t.items.filterMap Item.record?

def notices (t : Trace) : List Notice := t.items.filterMap Item.notice?

def failure? (t : Trace) : Option Failure :=
  match t.ending with
  | .failed f => some f
  | _ => none

/-- What is brought out up to and with so many records. -/
def itemsUpTo : Nat → List Item → List Item
  | 0, _ => []
  | _, [] => []
  | n + 1, .record r :: rest => .record r :: itemsUpTo n rest
  | n + 1, .notice m :: rest => .notice m :: itemsUpTo (n + 1) rest

/-- The scan comes upon an entry that it excludes, and cannot say so of its path. -/
def Unanswered (unanswered : Path → Bool) (i : Item) : Bool :=
  match i with
  | .notice (.excluded p) => unanswered p
  | _ => false

/-- A scan that excludes all below its root, if it fails at the first entry for
    which the exclusion has no answer. -/
def failingAt (unanswered : Path → Bool) (f : Failure) (t : Trace) : Trace :=
  if t.items.any (Unanswered unanswered) then ⟨t.items.takeWhile fun i => ! Unanswered unanswered i, .failed f⟩ else t

/-- A scan that is given up after so many records. If it has as many, nothing
    after the last of them happens. -/
def take (n : Nat) (t : Trace) : Trace :=
  if n ≤ t.records.length then ⟨itemsUpTo n t.items, .complete⟩ else t

end Trace
end Inventory
