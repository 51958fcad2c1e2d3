import Inventory.CommandLine
import Inventory.Proofs.Fields
import Inventory.Proofs.SearchRoot

namespace Inventory

namespace Record

/-- How often a character stands in the columns that are written as they are. -/
def occurrences (r : Record) (c : Char) : Nat := r.path.text.count c + r.target.count c

/-- The path and the target fit their fields. -/
def FitsFields (r : Record) : Prop := r.path.text.FitsField ∧ r.target.FitsField

theorem fitsFields_iff {r : Record} :
    r.FitsFields ↔ r.occurrences Row.fieldSeparator = 0 ∧ r.occurrences '\n' = 0 := by
  simp only [FitsFields, Text.FitsField, occurrences, Nat.add_eq_zero_iff, List.count_eq_zero]
  exact and_and_and_comm

end Record

namespace Layout

/-- The lines before the first record. -/
def headerCount : Layout → Nat
  | short => 2
  | long => 0

def fieldCount : Layout → Nat
  | short => 5
  | long => 8

def fields (separator : Text) (r : Record) : Layout → List Text
  | short => r.row.shortFields
  | long => r.row.longFields separator

theorem line_eq (layout : Layout) (separator : Text) (r : Record) :
    layout.line separator r = Text.joined Row.fieldSeparator (layout.fields separator r) := by
  cases layout <;> rfl

theorem length_fields (layout : Layout) (separator : Text) (r : Record) :
    (layout.fields separator r).length = layout.fieldCount := by
  cases layout <;> rfl

theorem head?_fields (layout : Layout) (separator : Text) (r : Record) :
    (layout.fields separator r).head? = some r.path.text := by
  cases layout <;> rfl

theorem fields_ne_nil (layout : Layout) (separator : Text) (r : Record) : layout.fields separator r ≠ [] := by
  cases layout <;> exact List.cons_ne_nil _ _

theorem length_header (layout : Layout) (separator : Text) (now : Int) (root : Path) :
    (layout.header separator now root).length = layout.headerCount := by
  cases layout <;> rfl

variable {separator : Text} (fits : separator.FitsField) (layout : Layout) (r : Record) {c : Char}

include fits

/-- Of the columns of a record only the path and the target can hold such a character. -/
theorem sum_count_fields (special : c = Row.fieldSeparator ∨ c = '\n') :
    ((layout.fields separator r).map (List.count c)).sum = r.occurrences c := by
  have absent {t : Text} (clear : t.FitsField) : t.count c = 0 := by
    rcases special with rfl | rfl
    · exact List.count_eq_zero.2 clear.1
    · exact List.count_eq_zero.2 clear.2
  have time (t : TimePair) := absent (TimePair.fitsField_text fits t)
  cases layout <;>
    simp [fields, Row.longFields, Row.shortFields, Record.row, absent (Text.fitsField_ofInt _),
      absent (EntryKind.fitsField_label _), time, Record.occurrences]

/-- Each semicolon in the path or the target makes a field more, each line feed a line more. -/
theorem count_line :
    (layout.line separator r).count Row.fieldSeparator =
        r.occurrences Row.fieldSeparator + (layout.fieldCount - 1) ∧
      (layout.line separator r).count '\n' = r.occurrences '\n' := by
  rw [line_eq, Text.count_joined _ (fields_ne_nil _ _ _), Text.count_joined_of_ne (by decide), length_fields,
    sum_count_fields fits _ _ (.inl rfl), sum_count_fields fits _ _ (.inr rfl)]
  exact ⟨rfl, rfl⟩

theorem cut_line (whole : r.occurrences Row.fieldSeparator = 0) :
    Text.cut Row.fieldSeparator (layout.line separator r) = layout.fields separator r := by
  rw [line_eq, Text.cut_joined (fields_ne_nil _ _ _)]
  intro field inside
  have sum := sum_count_fields fits layout r (.inl rfl)
  rw [whole, List.sum_eq_zero_iff_forall_eq_nat] at sum
  exact List.count_eq_zero.1 (sum _ (List.mem_map_of_mem inside))

theorem length_cut_line :
    (Text.cut Row.fieldSeparator (layout.line separator r)).length =
      layout.fieldCount + r.occurrences Row.fieldSeparator := by
  have some : 1 ≤ layout.fieldCount := by cases layout <;> decide
  rw [Text.length_cut, (count_line fits layout r).1]
  omega

end Layout

namespace Report

/-- The text has a line for each of the records, and the lines of the header before
    them. Each line of a record has all its fields, and the path of the record stands
    in the first. -/
def WellFormed (layout : Layout) (records : List Record) (t : Text) : Prop :=
  ∃ header body, Text.cut '\n' t = header ++ body ++ [[]] ∧ header.length = layout.headerCount ∧
    List.Forall₂ (fun line r => (Text.cut Row.fieldSeparator line).length = layout.fieldCount ∧
      (Text.cut Row.fieldSeparator line).head? = some r.path.text) body records

theorem count_lines (lines : List Text) :
    (lines.flatMap (· ++ ['\n'])).count '\n' = (lines.map (List.count '\n')).sum + lines.length := by
  induction lines with
  | nil => rfl
  | cons line rest ih =>
    rw [List.flatMap_cons, List.count_append, List.count_append, ih]
    simp only [List.count_singleton_self, List.map_cons, List.sum_cons, List.length_cons]
    omega

/-- The line feeds with which no line is meant to end: those in the columns of the
    records, and those in the root in the header. -/
def strayBreaks (layout : Layout) (root : Path) (records : List Record) : Nat :=
  (match layout with
    | .short => root.text.count '\n'
    | .long => 0) + (records.map (Record.occurrences · '\n')).sum

variable (options : ReportOptions) (root : Path) (records : List Record) (fits : options.separator.FitsField)

include fits

theorem count_fullText :
    (fullText options root records).count '\n' =
      (Layout.ofMode options.mode).headerCount + records.length +
        strayBreaks (Layout.ofMode options.mode) root records := by
  have stamp := List.count_eq_zero.2 (TimePair.fitsField_text fits (.ofNanos options.now)).2
  have body : (records.map fun r => ((Layout.ofMode options.mode).line options.separator r).count '\n') =
      records.map (Record.occurrences · '\n') :=
    List.map_congr_left fun r _ => (Layout.count_line fits _ r).2
  have header : (((Layout.ofMode options.mode).header options.separator options.now root).map (List.count '\n')).sum =
      match Layout.ofMode options.mode with
      | .short => root.text.count '\n'
      | .long => 0 := by
    cases Layout.ofMode options.mode <;> simp [Layout.header, headerLines, stamp]
  simp only [fullText, strayBreaks]
  rw [count_lines, List.map_append, List.sum_append, header, List.map_map, List.length_append, List.length_map,
    Layout.length_header, show (List.count '\n' ∘ fun r => (Layout.ofMode options.mode).line options.separator r) =
      fun r => ((Layout.ofMode options.mode).line options.separator r).count '\n' from rfl, body]
  omega

/-- Where no line feed stands in a line, the text falls apart into the lines it was made of. -/
theorem cut_fullText (rooted : Layout.ofMode options.mode = .short → '\n' ∉ root.text)
    (whole : ∀ r ∈ records, r.occurrences '\n' = 0) :
    Text.cut '\n' (fullText options root records) =
      (Layout.ofMode options.mode).header options.separator options.now root ++
        (records.map fun r => (Layout.ofMode options.mode).line options.separator r) ++ [[]] := by
  refine Text.cut_lines fun line among => ?_
  rcases List.mem_append.1 among with above | inside
  · cases layout : Layout.ofMode options.mode with
    | long => simp [layout, Layout.header] at above
    | short =>
      simp only [layout, Layout.header, headerLines, List.mem_cons, List.not_mem_nil, or_false] at above
      rcases above with rfl | rfl
      · exact (TimePair.fitsField_text fits _).2
      · exact rooted layout
  · obtain ⟨r, reported, rfl⟩ := List.mem_map.1 inside
    exact List.count_eq_zero.1 ((Layout.count_line fits _ r).2.trans (whole r reported))

/-- A well-formed report has no stray line feeds: there are no more than lines. -/
theorem strayBreaks_of_wellFormed
    (formed : WellFormed (Layout.ofMode options.mode) records (fullText options root records)) :
    strayBreaks (Layout.ofMode options.mode) root records = 0 := by
  obtain ⟨header, body, pieces, headed, lines⟩ := formed
  have length := Text.length_cut '\n' (fullText options root records)
  rw [pieces, count_fullText options root records fits, List.length_append, List.length_append, headed,
    lines.length_eq] at length
  simp only [List.length_singleton] at length
  omega

omit fits in
theorem strayBreaks_eq_zero_iff {layout : Layout} : strayBreaks layout root records = 0 ↔
    (layout = .short → '\n' ∉ root.text) ∧ ∀ r ∈ records, r.occurrences '\n' = 0 := by
  have sum : (records.map (Record.occurrences · '\n')).sum = 0 ↔ ∀ r ∈ records, r.occurrences '\n' = 0 := by
    rw [List.sum_eq_zero_iff_forall_eq_nat]
    exact List.forall_mem_map
  cases layout <;> simp only [strayBreaks, Nat.add_eq_zero_iff, sum] <;> simp [List.count_eq_zero]

/-- A report is well-formed just if its records fit their fields, and in the short layout
    the root fits its line. -/
theorem wellFormed_fullText_iff :
    WellFormed (Layout.ofMode options.mode) records (fullText options root records) ↔
      (Layout.ofMode options.mode = .short → '\n' ∉ root.text) ∧ ∀ r ∈ records, r.FitsFields := by
  constructor
  · intro formed
    obtain ⟨rooted, whole⟩ :=
      (strayBreaks_eq_zero_iff root records).1 (strayBreaks_of_wellFormed options root records fits formed)
    obtain ⟨header, body, pieces, headed, lines⟩ := formed
    rw [cut_fullText options root records fits rooted whole] at pieces
    obtain ⟨rfl, rfl⟩ := List.append_inj (List.append_cancel_right pieces.symm)
      (headed.trans (Layout.length_header ..).symm)
    rw [List.forall₂_map_left_iff, List.forall₂_same] at lines
    refine ⟨rooted, fun r reported => Record.fitsFields_iff.2 ⟨?_, whole r reported⟩⟩
    have fields := (lines r reported).1
    rw [Layout.length_cut_line fits] at fields
    omega
  · rintro ⟨rooted, legible⟩
    refine ⟨_, _, cut_fullText options root records fits rooted fun r reported =>
      (Record.fitsFields_iff.1 (legible r reported)).2, Layout.length_header .., ?_⟩
    rw [List.forall₂_map_left_iff, List.forall₂_same]
    intro r reported
    rw [Layout.cut_line fits _ r (Record.fitsFields_iff.1 (legible r reported)).1]
    exact ⟨Layout.length_fields .., Layout.head?_fields ..⟩

end Report

/-- All names on the path fit a field. -/
def Path.NamesFit (p : Path) : Prop := ∀ n, .name n ∈ p.parts → n.text.FitsField

theorem Path.NamesFit.text {p : Path} (named : p.NamesFit) : p.text.FitsField := by
  have root : p.root.text.FitsField := by cases p.root <;> decide
  have parts {c : Char} (special : c = Row.fieldSeparator ∨ c = '\n') :
      c ∉ Text.joined '/' (p.parts.map Component.text) := by
    refine Text.notMem_joined (by rcases special with rfl | rfl <;> decide) ?_
    simp only [List.forall_mem_map]
    intro part inside
    cases part with
    | up => rcases special with rfl | rfl <;> decide
    | name n =>
      have fits := named n inside
      rcases special with rfl | rfl
      · exact fits.1
      · exact fits.2
  unfold Path.text
  split
  · decide
  · exact root.append ⟨parts (.inl rfl), parts (.inr rfl)⟩

namespace FileSystem

/-- All names of nodes fit a field. -/
def NamesFit (fs : FileSystem) : Prop := ∀ e ∈ fs.table, ∀ n ∈ e.1, n.text.FitsField

instance (fs : FileSystem) : Decidable fs.NamesFit := inferInstanceAs (Decidable (∀ _ ∈ _, _))

variable {fs : FileSystem}

theorem NamesFit.of_node? (named : fs.NamesFit) {l : Location} {node : Node} (found : fs.node? l = some node) :
    (Path.ofLocation l).NamesFit := by
  intro n inside
  obtain ⟨m, among, same⟩ := List.mem_map.1 inside
  cases same
  exact named _ (node?_eq_some_iff.1 found) n among

/-- Each name that is walked through is that of a node. -/
theorem NamesFit.of_leads (named : fs.NamesFit) {here there : Location} {steps : List Step} {links : Nat}
    (walk : fs.Leads here steps links there) : ∀ n, .child n ∈ steps → n.text.FitsField := by
  have last {here : Location} {n : Name} {node : Node} (found : fs.node? (here ++ [n]) = some node) :
      n.text.FitsField := named _ (node?_eq_some_iff.1 found) n (by simp)
  induction walk with
  | arrived here => simp
  | insist _ _ ih | stay _ _ ih | up _ _ ih => simpa using ih
  | child _ found _ _ ih =>
    intro n inside
    rcases List.mem_cons.1 inside with same | later
    · cases same
      exact last found
    · exact ih n later
  | link _ found _ _ _ _ _ ih =>
    intro n inside
    rcases List.mem_cons.1 inside with same | later
    · cases same
      exact last found
    · exact ih n later

theorem NamesFit.of_locate (named : fs.NamesFit) {p : Path} (absolute : p.isAbsolute = true) {l : Location}
    (followed : fs.locate true p = .ok l) : p.NamesFit := by
  obtain ⟨links, _, walk⟩ := (locate_followed_iff absolute).1 followed
  exact fun n inside => named.of_leads walk n (List.mem_map.2 ⟨_, inside, rfl⟩)

theorem NamesFit.of_lstat_child (named : fs.NamesFit) {p : Path} (absolute : p.isAbsolute = true) {n : Name}
    {node : Node} (asked : fs.lstat (p.child n) = .ok node) : (p.child n).NamesFit := by
  obtain ⟨l, found, _⟩ := lstat_eq_ok_iff.1 asked
  obtain ⟨d, followed, _, ⟨inner, there⟩, _⟩ := (locate_child_iff absolute).1 found
  intro m inside
  rcases List.mem_append.1 inside with above | last
  · exact named.of_locate absolute followed m above
  · obtain rfl : m = n := by simpa using last
    exact named _ (node?_eq_some_iff.1 there) m (by simp)

end FileSystem

namespace Scan

variable {s : Scan} {absolute : s.walk.root.isAbsolute = true} {place : Place} {node : Node} {kind : EntryKind}

/-- The target of a record is empty or spells the location of a node. -/
theorem target_cases (visited : s.Visits absolute place) (seen : s.reported? place = some (node, kind)) :
    (s.recordAt place node kind).target = [] ∨
      ∃ l found, s.walk.system.node? l = some found ∧
        (s.recordAt place node kind).target = (Path.ofLocation l).text := by
  by_cases link : kind = .symbolicLink
  · rw [recordAt_eq, if_pos link]
    cases resolved : (s.walk.system.resolveLink place.path).target with
    | none => exact .inl (by simp [LinkResolution.targetText, resolved])
    | some target =>
      obtain ⟨form, _⟩ := FileSystem.resolveLink_target resolved
      obtain ⟨l, rfl, ⟨_, found, there, _⟩, _⟩ := FileSystem.strictForm_firm place.absolute form
      exact .inr ⟨l, found, there, by simp [LinkResolution.targetText, resolved]⟩
  · rw [recordAt_eq, if_neg link]
    cases located : place.location with
    | none => exact .inl rfl
    | some location =>
      obtain ⟨asked, _⟩ := reported?_eq_some seen
      obtain ⟨l, named, there⟩ := FileSystem.lstat_eq_ok_iff.1 asked
      obtain rfl := (visited.sited located).eq_of_locate place.absolute named
      exact .inr ⟨l, node, (FileSystem.nodeFor_eq_ok_iff.1 there).1, rfl⟩

/-- Where the names fit, all that is reported fits. -/
theorem fitsFields_of_record (absolute : s.walk.root.isAbsolute = true) (named : s.walk.system.NamesFit)
    (rooted : s.walk.root.NamesFit) {r : Record} (inside : r ∈ s.trace.records) : r.FitsFields := by
  rw [(tells_inventory absolute).records] at inside
  obtain ⟨place, node, kind, visited, seen, rfl⟩ := exists_visit_of_record inside
  refine ⟨?_, ?_⟩
  · rw [path_recordAt]
    obtain ⟨asked, _⟩ := reported?_eq_some seen
    cases visited with
    | root _ => exact rooted.text
    | @child _ base _ _ n _ _ _ => exact (named.of_lstat_child base.absolute asked).text
  · rcases target_cases visited seen with empty | ⟨l, found, there, spelled⟩
    · rw [empty]
      decide
    · rw [spelled]
      exact (named.of_node? there).text

end Scan

theorem Trace.records_failingAt_subset (t : Trace) (unanswered : Path → Bool) (f : Failure) :
    (t.failingAt unanswered f).records ⊆ t.records := by
  unfold failingAt
  split
  · exact ((List.takeWhile_sublist _).filterMap _).subset
  · exact List.Subset.refl _

namespace Request

variable {fs : FileSystem} {r : Request}

/-- What a run reports is reported by a scan of its search root. -/
theorem Prepared.exists_scan (p : r.Prepared fs) {x : Record} (inside : x ∈ p.trace.records) :
    ∃ options, x ∈ (Scan.ofOptions p.system p.root options).trace.records := by
  unfold Prepared.trace Request.trace at inside
  split at inside
  · exact ⟨_, inside⟩
  · exact ⟨⟨some p.localRoot, r.sorted, fun _ _ => true⟩, Trace.records_failingAt_subset _ _ _ inside⟩

theorem Prepared.fitsFields (p : r.Prepared fs) (named : p.system.NamesFit) :
    p.root.NamesFit ∧ ∀ x ∈ p.trace.records, x.FitsFields := by
  have absolute := isAbsolute_of_roots p.checked
  obtain ⟨_, _, _, node, reaches, _⟩ := p.root_eq
  obtain ⟨l, followed, _⟩ := FileSystem.stat_eq_ok_iff.1 reaches
  have rooted := named.of_locate absolute ((FileSystem.extends_opened p.opens).locate followed)
  refine ⟨rooted, fun x inside => ?_⟩
  obtain ⟨options, reported⟩ := p.exists_scan inside
  exact Scan.fitsFields_of_record (s := .ofOptions p.system p.root options) absolute named rooted reported

end Request

namespace Run

/-- What a run without a separator of times leaves in its output when it succeeds. It has
    a line feed for each line and for each one in a column. It is well-formed just if the
    paths and targets of its records, and the root in a header, fit; and that is so
    where the names of all nodes fit. -/
theorem lines_of_report (fs : FileSystem) (now : Int) {r : Request} (unseparated : r.separator = []) {n : Nat}
    (succeeds : (perform fs now r).outcome = .ok n) :
    ∃ p : r.Prepared fs, (perform fs now r).Leaves p (p.text now) (.ok n) ∧ n = p.trace.records.length ∧
      (p.text now).count '\n' = (Layout.ofMode r.mode).headerCount + n +
        Report.strayBreaks (Layout.ofMode r.mode) p.root p.trace.records ∧
      (Report.WellFormed (Layout.ofMode r.mode) p.trace.records (p.text now) ↔
        (Layout.ofMode r.mode = .short → '\n' ∉ p.root.text) ∧ ∀ x ∈ p.trace.records, x.FitsFields) ∧
      (p.system.NamesFit → Report.WellFormed (Layout.ofMode r.mode) p.trace.records (p.text now)) := by
  obtain ⟨p, left, count⟩ := exists_prepared_of_ok succeeds
  have fits : r.separator.FitsField := unseparated ▸ by decide
  have formed := Report.wellFormed_fullText_iff ⟨r.mode, r.separator, now⟩ p.root p.trace.records fits
  refine ⟨p, left, count, ?_, formed, fun named => ?_⟩
  · rw [count]
    exact Report.count_fullText ⟨r.mode, r.separator, now⟩ p.root p.trace.records fits
  · obtain ⟨rooted, reported⟩ := p.fitsFields named
    exact formed.2 ⟨fun _ => rooted.text.2, reported⟩

theorem lines_of_report_aliasTree :
    aliasRequest.separator = [] ∧ (perform .aliasTree 0 aliasRequest).outcome = .ok 1 ∧
      ∃ p : aliasRequest.Prepared .aliasTree, p.trace.records.length = 1 ∧
        Report.WellFormed .short p.trace.records (p.text 0) := by
  have succeeds : (perform .aliasTree 0 aliasRequest).outcome = .ok 1 := by decide +kernel
  obtain ⟨p, _, count, _, _, formed⟩ := lines_of_report .aliasTree 0 (r := aliasRequest) rfl succeeds
  have named : ∀ sink, FileSystem.aliasTree.openForWriting (.ofText "/out".toList) = .ok sink → sink.1.NamesFit := by
    have all : (match FileSystem.aliasTree.openForWriting (.ofText "/out".toList) with
      | .ok sink => decide sink.1.NamesFit
      | .error _ => true) = true := by decide +kernel
    intro sink opens
    rw [opens] at all
    exact of_decide_eq_true all
  have output : p.output = "/out".toList := (Option.some.inj p.given).symm
  exact ⟨rfl, succeeds, p, count.symm, formed (named _ (output ▸ p.opens))⟩

end Run

/-- A file with a line feed in its name, and a link that leads to it. -/
def FileSystem.lineFeedTree : FileSystem :=
  let node (path : String) (content : Content) : NodeSpec := ⟨.ofText path.toList, content, none, ⟨0, 0, 0⟩, []⟩
  .ofSpecs [node "/t\nu" (.regular []), node "/s/l" (.link "/t\nu".toList)] ⟨.slash, []⟩

namespace Run

def lineFeedRequest : Request :=
  ⟨"short".toList, some "/out".toList, some "/".toList, ["/s".toList], [], none, false, []⟩

/-- The record of a link to a name with a line feed takes two lines, and neither has all fields. -/
theorem line_feed_splits_target :
    let run := perform .lineFeedTree 0 lineFeedRequest
    let lines := ["00", "/s", "/s;1;;4096;directory", "/s/l;1;/t", "u;4;symbolic link"].map String.toList
    Invocation.ofTexts (["short", "/out", "/", "/s"].map String.toList) = .ok ⟨lineFeedRequest, 0⟩ ∧
      lineFeedRequest.separator = [] ∧ run.outcome = .ok 2 ∧
      run.delivered.map (fun stored => Text.cut '\n' stored.2) = some (lines ++ [[]]) ∧
      (lines.map fun line => (Text.cut ';' line).length) = [1, 1, 5, 3, 3] := by
  decide +kernel

end Run
end Inventory
