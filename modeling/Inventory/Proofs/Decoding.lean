import Inventory.Proofs.Aftermath
import Inventory.Proofs.Fields

namespace Inventory

namespace EntryKind

/-- The kind that a label stands for. -/
def ofLabel? (t : Text) : Option EntryKind := [directory, regularFile, symbolicLink].find? fun kind => kind.label = t

theorem ofLabel?_label (kind : EntryKind) : ofLabel? kind.label = some kind := by
  cases kind <;> decide

end EntryKind

/-- The times in nanoseconds. -/
def Timestamps.times (t : Timestamps) : Times := ⟨t.changed.toNanos, t.accessed.toNanos, t.modified.toNanos⟩

theorem Times.times_stamps (t : Times) : t.stamps.times = t := by
  simp only [stamps, Timestamps.times, TimePair.toNanos_ofNanos]

/-- The text of rows that are written line by line in the long layout. -/
def Report.longText (separator : Text) (rows : List Row) : Text :=
  (writeLines .empty (rows.map (Row.longLine separator))).1.text

theorem Report.longText_eq (separator : Text) (rows : List Row) :
    longText separator rows = (rows.map (Row.longLine separator)).flatMap (· ++ ['\n']) := by
  rw [longText, Sink.empty, writeLines_unlimited]
  rfl

/-- What a long line says about a node. -/
structure Reading where
  path : Path
  existence : Int
  target : Text
  size : Int
  kind : EntryKind
  times : Times
deriving DecidableEq

/-- What the long line of a record says, if the node has these times. -/
def Record.reading (r : Record) (times : Times) : Reading := ⟨r.path, r.existence, r.target, r.size, r.kind, times⟩

/-- The path and the target of the record fit their fields, and its times are those of a node. -/
structure Record.Legible (r : Record) (times : Times) : Prop where
  path : r.path.text.FitsField
  target : r.target.FitsField
  stamps : r.stamps = times.stamps

namespace Reading

def row (r : Reading) : Row := ⟨r.path, r.existence, r.target, r.size, r.kind.label, r.times.stamps⟩

/-- The reading of eight fields. -/
def ofFields? (separator : Text) : List Text → Option Reading
  | [path, existence, target, size, kind, changed, accessed, modified] => do
    let existence ← Text.toInt? existence
    let size ← Text.toInt? size
    let kind ← EntryKind.ofLabel? kind
    let changed ← TimePair.ofText? separator changed
    let accessed ← TimePair.ofText? separator accessed
    let modified ← TimePair.ofText? separator modified
    some ⟨.ofText path, existence, target, size, kind, Timestamps.times ⟨changed, accessed, modified⟩⟩
  | _ => none

def ofLine? (separator line : Text) : Option Reading := ofFields? separator (Text.cut Row.fieldSeparator line)

/-- The readings of a text, one for each line. -/
def ofText? (separator t : Text) : Option (List Reading) := (Text.cut '\n' t).dropLast.mapM (ofLine? separator)

theorem row_reading {r : Record} {times : Times} (stamps : r.stamps = times.stamps) :
    (r.reading times).row = r.row := by
  rw [Record.row, stamps]
  rfl

variable {separator : Text} {r : Reading}

theorem ofFields?_longFields (divides : ∃ c ∈ separator, c.isDigit = false) (r : Reading) :
    ofFields? separator (r.row.longFields separator) = some r := by
  have stamp (t : Int) : TimePair.ofText? separator ((TimePair.ofNanos t).text separator) = some (.ofNanos t) :=
    TimePair.ofText?_text divides (TimePair.nanos_ofNanos_nonneg t)
  simp only [row, Times.stamps, Row.longFields, Row.shortFields, List.map_cons, List.map_nil, List.cons_append,
    List.nil_append, ofFields?, Path.ofText_text, Text.toInt?_ofInt, EntryKind.ofLabel?_label, stamp,
    Option.bind_eq_bind, Option.bind_some]
  exact congrArg (fun times => some { r with times }) (Times.times_stamps r.times)

theorem fitsField_longFields (fits : separator.FitsField) (path : r.path.text.FitsField) (target : r.target.FitsField) :
    ∀ field ∈ r.row.longFields separator, field.FitsField := by
  simp only [Row.longFields, Row.shortFields, List.map_cons, List.map_nil, List.cons_append, List.nil_append,
    List.forall_mem_cons]
  exact ⟨path, Text.fitsField_ofInt _, target, Text.fitsField_ofInt _, r.kind.fitsField_label,
    TimePair.fitsField_text fits _, TimePair.fitsField_text fits _, TimePair.fitsField_text fits _, by simp⟩

theorem ofLine?_longLine (divides : ∃ c ∈ separator, c.isDigit = false) (fits : separator.FitsField)
    (path : r.path.text.FitsField) (target : r.target.FitsField) :
    ofLine? separator (r.row.longLine separator) = some r := by
  have apart : ∀ field ∈ r.row.longFields separator, Row.fieldSeparator ∉ field := fun field inside =>
    (fitsField_longFields fits path target field inside).1
  rw [ofLine?, Row.longLine, Text.cut_joined (by simp [Row.longFields]) apart]
  exact ofFields?_longFields divides r

theorem notMem_longLine (fits : separator.FitsField) (path : r.path.text.FitsField) (target : r.target.FitsField) :
    '\n' ∉ r.row.longLine separator :=
  Text.notMem_joined (by decide) fun field inside => (fitsField_longFields fits path target field inside).2

/-- What was written from readings is read as these readings. -/
theorem ofText?_longText (divides : ∃ c ∈ separator, c.isDigit = false) (fits : separator.FitsField)
    {readings : List Reading} (legible : ∀ r ∈ readings, r.path.text.FitsField ∧ r.target.FitsField) :
    ofText? separator (Report.longText separator (readings.map row)) = some readings := by
  have whole : ∀ line ∈ (readings.map row).map (Row.longLine separator), '\n' ∉ line := by
    simp only [List.map_map, List.forall_mem_map]
    exact fun r inside => notMem_longLine fits (legible r inside).1 (legible r inside).2
  rw [ofText?, Report.longText_eq, Text.cut_lines whole, List.dropLast_concat]
  clear whole
  induction readings with
  | nil => rfl
  | cons r rest ih =>
    obtain ⟨path, target⟩ := legible r List.mem_cons_self
    have later := ih fun r inside => legible r (List.mem_cons_of_mem _ inside)
    rw [List.map_cons, List.map_cons, List.mapM_cons, ofLine?_longLine divides fits path target, later]
    rfl

/-- What was written from records is read as what they say. -/
theorem ofText?_records (divides : ∃ c ∈ separator, c.isDigit = false) (fits : separator.FitsField)
    {records : List Record} {times : Record → Times} (legible : ∀ r ∈ records, r.Legible (times r)) :
    ofText? separator (Report.longText separator (records.map Record.row)) =
      some (records.map fun r => r.reading (times r)) := by
  have rows : records.map Record.row = (records.map fun r => r.reading (times r)).map row := by
    rw [List.map_map]
    exact List.map_congr_left fun r inside => (row_reading (legible r inside).stamps).symm
  rw [rows]
  refine ofText?_longText divides fits ?_
  simp only [List.forall_mem_map]
  exact fun r inside => ⟨(legible r inside).path, (legible r inside).target⟩

/-- The record that a reading stands for. -/
def record (r : Reading) : Record := ⟨r.path, r.existence.toNat, r.target, r.size, r.kind, r.times.stamps⟩

theorem record_reading {r : Record} {times : Times} (stamps : r.stamps = times.stamps) :
    (r.reading times).record = r := by
  have same : (r.reading times).record = { r with stamps := times.stamps } := rfl
  rw [same, ← stamps]

/-- The text of a long report tells all that it was written from, if the separator of
    times fits a field and is not made of digits alone: readings come back as they are,
    records as what they say with the times in nanoseconds, and different records are
    written differently. -/
theorem ofText?_written {separator : Text} (divides : ∃ c ∈ separator, c.isDigit = false)
    (fits : separator.FitsField) :
    (∀ readings : List Reading, (∀ r ∈ readings, r.path.text.FitsField ∧ r.target.FitsField) →
        ofText? separator (Report.longText separator (readings.map row)) = some readings) ∧
      (∀ (records : List Record) (times : Record → Times), (∀ r ∈ records, r.Legible (times r)) →
        ofText? separator (Report.longText separator (records.map Record.row)) =
          some (records.map fun r => r.reading (times r))) ∧
      ∀ records records' : List Record, (∀ r ∈ records ++ records', ∃ times, r.Legible times) →
        Report.longText separator (records.map Record.row) = Report.longText separator (records'.map Record.row) →
        records = records' := by
  refine ⟨fun readings => ofText?_longText divides fits, fun records times => ofText?_records divides fits, ?_⟩
  intro records records' legible same
  have own : ∀ r ∈ records ++ records', r.Legible r.stamps.times := by
    intro r inside
    obtain ⟨times, told⟩ := legible r inside
    have known : r.stamps.times = times := told.stamps ▸ Times.times_stamps times
    exact known ▸ told
  have back {some : List Record} (part : ∀ r ∈ some, r ∈ records ++ records') :
      (some.map fun r => r.reading r.stamps.times).map record = some := by
    rw [List.map_map]
    exact (List.map_congr_left fun r inside => record_reading (own r (part r inside)).stamps).trans (List.map_id some)
  have first := ofText?_records divides fits (fun r inside => own r (List.mem_append_left records' inside))
  have second := ofText?_records divides fits (fun r inside => own r (List.mem_append_right records inside))
  rw [same, second, Option.some.injEq] at first
  rw [← back fun r => List.mem_append_left records', ← first, back fun r => List.mem_append_right records]

/-- The separator `1-2` could be read as the end of the seconds with a negative number after it. -/
theorem ofText?_written_mixedSeparator :
    let separator : Text := "1-2".toList
    let file : Record := ⟨.ofText "/s/f".toList, 1, [], -3, .regularFile, Times.stamps ⟨-1, 12, 21000000007⟩⟩
    let link : Record := ⟨.ofText "/s/l".toList, 1, "/t".toList, 2, .symbolicLink, Times.stamps ⟨0, 0, 1⟩⟩
    (∃ c ∈ separator, c.isDigit = false) ∧ separator.FitsField ∧
      Report.longText separator ([file, link].map Record.row) =
        ("/s/f;1;;-3;regular file;-11-2999999999;01-212;211-27\n" ++
          "/s/l;1;/t;2;symbolic link;01-20;01-20;01-21\n").toList ∧
      ofText? separator (Report.longText separator ([file, link].map Record.row)) =
        some [file.reading ⟨-1, 12, 21000000007⟩, link.reading ⟨0, 0, 1⟩] ∧
      Report.longText separator ([file, link].map Record.row) ≠
        Report.longText separator ([link, file].map Record.row) := by
  intro separator file link
  have divides : ∃ c ∈ separator, c.isDigit = false := ⟨'-', by decide, rfl⟩
  have fits : separator.FitsField := by decide
  have legible : ∀ r ∈ [file, link], r.Legible r.stamps.times := by
    simp only [List.forall_mem_cons]
    exact ⟨⟨by decide, by decide, by decide⟩, ⟨by decide, by decide, by decide⟩, by simp⟩
  obtain ⟨_, read, different⟩ := ofText?_written divides fits
  refine ⟨divides, fits, by decide +kernel, read [file, link] (fun r => r.stamps.times) legible, fun same => ?_⟩
  refine absurd (different [file, link] [link, file] (fun r inside => ?_) same) (by decide)
  have among : r ∈ [file, link] := by
    simp only [List.cons_append, List.nil_append, List.mem_cons, List.not_mem_nil, or_false] at inside ⊢
    grind
  exact ⟨_, legible r among⟩

end Reading
end Inventory
