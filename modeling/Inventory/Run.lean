import Inventory.Exclusion
import Inventory.Exclusion.RuleFile
import Inventory.Report

namespace Inventory

structure Request where
  mode : Text
  /-- The file for the report; a run without one fails when it is needed. -/
  output : Option Text
  /-- The outermost directory; a run without one fails. -/
  localRoot : Option Text
  /-- The directories to search, of which only the first is scanned. -/
  searchRoots : List Text
  /-- The wildcards. One that has no text cannot be compared with a name. -/
  patterns : List (Option Text)
  /-- The file of ignore rules. An empty text names none. -/
  ignoreFile : Option Text
  sorted : Bool
  separator : Text
deriving DecidableEq

/-- What comes of a run: on success the number of records. -/
structure Run where
  system : FileSystem
  /-- The file that was opened for the report, with what was stored in it. -/
  delivered : Option (Location × Text)
  notices : List Notice
  outcome : Except Failure Nat

namespace Request

/-- The absolute path of a directory that must exist. -/
def existingDirectory (fs : FileSystem) (role : RootRole) (given : Text) : Except Failure Path :=
  let p := (Path.ofText given).absolute fs.workingDirectory
  match fs.isDirectory p with
  | .error why => .error (.system why)
  | .ok false => .error (.reported (.missingDirectory role given))
  | .ok true => .ok p

/-- The absolute path of a directory to search, which must be under the local root. -/
def searchRoot (fs : FileSystem) (localGiven : Text) (localRoot : Path) (given : Text) : Except Failure Path := do
  let p ← existingDirectory fs .searchRoot given
  if p.Under localRoot then .ok p else .error (.reported (.outOfScope given localGiven))

/-- The absolute local root and the absolute directories to search, the first
    of these apart. -/
def roots (r : Request) (fs : FileSystem) : Except Failure (Path × Path × List Path) :=
  match r.searchRoots with
  | [] => .error (.reported .noSearchRoot)
  | first :: others =>
    match r.localRoot with
    | none => .error .missingWord
    | some given => do
      let localRoot ← existingDirectory fs .localRoot given
      let first ← searchRoot fs given localRoot first
      let others ← others.mapM (searchRoot fs given localRoot)
      .ok (localRoot, first, others)

def rules (r : Request) (fs : FileSystem) : List Notice × Except Failure (Option IgnoreRules) :=
  match r.ignoreFile with
  | none | some [] => ([], .ok none)
  | some given =>
    let read := fs.rules (Path.ofText given)
    (read.1, read.2.map some)

/-- What the scan for a request brings out. With a pattern that has no text it
    fails at the first entry below the root that no pattern before covers. -/
def trace (r : Request) (fs : FileSystem) (localRoot root : Path) (rules : Option IgnoreRules) : Trace :=
  let scanned (excludes : Path → Bool → Bool) := (Scan.ofOptions fs root ⟨some localRoot, r.sorted, excludes⟩).trace
  match r.patterns.mapM id with
  | some patterns => scanned (Exclusion.predicate (Exclusion.ofParts? patterns rules))
  | none =>
    let before := (r.patterns.takeWhile Option.isSome).filterMap id
    (scanned fun _ _ => true).failingAt (fun p => ! Exclusion.coversName (before.map Wildcard.ofText) p) .missingWord

end Request

namespace Run

def refused (fs : FileSystem) (notices : List Notice) (f : Failure) : Run := ⟨fs, none, notices, .error f⟩

def close (fs : FileSystem) (output : Path) (l : Location) (report : Report) : Run :=
  let text := report.sink.text
  match (fs.node? l).bind fun n => n.fault? .write with
  | some why =>
    if text = [] then ⟨fs, some (l, []), report.notices, report.outcome⟩
    else ⟨fs, some (l, []), report.notices, .error (.reported (.sinkNotFlushed output why))⟩
  | none => ⟨fs.store l text, some (l, text), report.notices, report.outcome⟩

/-- Opens the sink, scans what is there then, and writes the report. -/
def deliver (fs : FileSystem) (output root : Path) (options : ReportOptions) (scanned : FileSystem → Trace) : Run :=
  match fs.openForWriting output with
  | .error why => refused fs [] (.reported (.sinkNotOpened output why))
  | .ok (fs, l) => close fs output l (Report.write options root .empty (scanned fs))

/-- Does what is asked, at a time in nanoseconds. -/
def perform (fs : FileSystem) (now : Int) (r : Request) : Run :=
  match r.roots fs with
  | .error f => refused fs [] f
  | .ok (localRoot, root, others) =>
    let early := if others = [] then [] else [.rootsIgnored others]
    match r.rules fs with
    | (notices, .error f) => refused fs (early ++ notices) f
    | (notices, .ok rules) =>
      match r.output with
      | none => refused fs (early ++ notices) .missingWord
      | some output =>
        let run := deliver fs (Path.ofText output) root ⟨r.mode, r.separator, now⟩ fun fs =>
          r.trace fs localRoot root rules
        { run with notices := early ++ notices ++ run.notices }

end Run
end Inventory
