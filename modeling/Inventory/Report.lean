import Inventory.Scan

namespace Inventory

inductive Layout where
  | short
  | long
deriving DecidableEq, Repr

namespace Layout

/-- Every mode but `short` is long. -/
def ofMode (mode : Text) : Layout := if mode = "short".toList then short else long

def line (separator : Text) (r : Record) : Layout → Text
  | short => r.row.shortLine
  | long => r.row.longLine separator

def header (separator : Text) (now : Int) (root : Path) : Layout → List Text
  | short => headerLines separator now root
  | long => []

end Layout

structure Sink where
  /-- The lines that were taken, each without its end. -/
  lines : List Text
  /-- After so many lines no further one is taken. -/
  limit : Option (Nat × Errno)
deriving DecidableEq

namespace Sink

def empty : Sink := ⟨[], none⟩

def write (s : Sink) (line : Text) : Except InventoryError Sink :=
  match s.limit with
  | some (n, why) =>
    if n ≤ s.lines.length then .error (.lineNotWritten why) else .ok { s with lines := s.lines ++ [line] }
  | none => .ok { s with lines := s.lines ++ [line] }

/-- The text in the sink; each line ends with a line feed. -/
def text (s : Sink) : Text := s.lines.flatMap (· ++ ['\n'])

end Sink

structure ReportOptions where
  mode : Text
  separator : Text
  /-- The time of the header in nanoseconds. -/
  now : Int
deriving DecidableEq

/-- What comes of writing a report: on success the number of records. -/
structure Report where
  sink : Sink
  notices : List Notice
  outcome : Except Failure Nat

namespace Report

def writeLines (sink : Sink) : List Text → Sink × Option InventoryError
  | [] => (sink, none)
  | line :: rest =>
    match sink.write line with
    | .error e => (sink, some e)
    | .ok sink => writeLines sink rest

/-- Writes the records among the items of a scan, up to a line that is not taken. -/
def writeItems (line : Record → Text) (sink : Sink) : List Item → Sink × List Notice × Option InventoryError
  | [] => (sink, [], none)
  | .notice n :: rest =>
    let later := writeItems line sink rest
    (later.1, n :: later.2.1, later.2.2)
  | .record r :: rest =>
    match sink.write (line r) with
    | .error e => (sink, [], some e)
    | .ok sink => writeItems line sink rest

def write (options : ReportOptions) (root : Path) (sink : Sink) (t : Trace) : Report :=
  let layout := Layout.ofMode options.mode
  let before := t.items.takeWhile fun i => i.record?.isNone
  match t.records, t.failure? with
  | [], some f => ⟨sink, t.notices, .error f⟩
  | records, failure =>
    match writeLines sink (layout.header options.separator options.now root) with
    | (sink, some e) => ⟨sink, before.filterMap Item.notice?, .error (.reported e)⟩
    | (sink, none) =>
      match writeItems (fun r => layout.line options.separator r) sink t.items, failure with
      | (sink, notices, some e), _ => ⟨sink, notices, .error (.reported e)⟩
      | (sink, notices, none), some f => ⟨sink, notices, .error f⟩
      | (sink, notices, none), none =>
        ⟨sink, notices ++ [.wrote records.length options.mode root], .ok records.length⟩

end Report
end Inventory
