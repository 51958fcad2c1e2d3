import Inventory.Proofs.Endings
import Inventory.Proofs.Opening
import Inventory.Run

/-!
A run is refused before its sink is open (`Request.Refuses`), and then nothing is
changed, or it is prepared (`Request.Prepared`). A root that cannot be opened leaves the
sink of a prepared run empty. Any other scan reports its root first, so the header and a
line for each record are written, whether or not the scan completes; if that cannot be
flushed, nothing of it is kept.
-/
namespace Inventory

/-- A record comes before anything is said to be excluded. -/
def Trace.Reports (t : Trace) : Prop :=
  ∃ (notices : List Notice) (r : Record) (rest : List Item),
    t.items = notices.map .notice ++ .record r :: rest ∧ ∀ p, .excluded p ∉ notices

namespace Trace.Reports

variable {t : Trace}

theorem records_ne_nil (reports : t.Reports) : t.records ≠ [] := by
  obtain ⟨notices, r, rest, items, _⟩ := reports
  refine List.ne_nil_of_mem (a := r) (List.mem_filterMap.2 ⟨.record r, ?_, rfl⟩)
  simp [items]

/-- What fails at an excluded entry has that record too. -/
theorem failingAt (reports : t.Reports) (unanswered : Path → Bool) (f : Failure) :
    (t.failingAt unanswered f).Reports := by
  obtain ⟨notices, r, rest, items, answered⟩ := reports
  unfold Trace.failingAt
  split
  · refine ⟨notices, r, rest.takeWhile fun i => ! Unanswered unanswered i, ?_, answered⟩
    have passed : ∀ i ∈ notices.map Item.notice, (! Unanswered unanswered i) = true := by
      intro i among
      obtain ⟨n, said, rfl⟩ := List.mem_map.1 among
      cases n with
      | excluded p => exact absurd said (answered p)
      | _ => rfl
    rw [items, List.takeWhile_append_of_pos passed]
    rfl
  · exact ⟨notices, r, rest, items, answered⟩

end Trace.Reports

/-- The failures that a scan can end with once it has reported its root: it cannot ask
    about the target of a link, or compare a name with a pattern that has no text. -/
inductive Failure.HaltsScan : Failure → Prop where
  | target (target : Path) (why : Errno) : HaltsScan (.reported (.targetNotRead target why))
  | pattern : HaltsScan .missingWord

/-- What a scan of a root brings out: it cannot open the root, or it reports it and then
    completes or halts. -/
inductive Trace.ComesFrom (root : Path) : Trace → Prop where
  | unopened (why : Option Errno) : ComesFrom root ⟨[], .failed (.reported (.rootNotOpened root why))⟩
  | complete {t : Trace} (reports : t.Reports) (completes : t.ending = .complete) : ComesFrom root t
  | halted {t : Trace} {f : Failure} (reports : t.Reports) (halts : t.ending = .failed f) (late : f.HaltsScan) :
      ComesFrom root t

theorem Trace.ComesFrom.failingAt {t : Trace} {root : Path} {f : Failure} (comes : t.ComesFrom root)
    (unanswered : Path → Bool) (late : f.HaltsScan) : (t.failingAt unanswered f).ComesFrom root := by
  have ends : (t.failingAt unanswered f).ending = .failed f ∨ t.failingAt unanswered f = t := by
    unfold Trace.failingAt
    split
    · exact .inl rfl
    · exact .inr rfl
  rcases ends with fails | same
  · cases comes with
    | unopened why => exact .unopened why
    | complete reports _ | halted reports _ _ => exact .halted (reports.failingAt unanswered f) fails late
  · rw [same]
    exact comes

namespace Scan

variable {s : Scan}

/-- A scan takes its first step, and goes on from there. -/
theorem trace_eq_goOn (s : Scan) : ∃ steps, s.trace = s.goOn steps (s.step begin) := by
  obtain ⟨steps, bound⟩ : ∃ steps, s.stepBound = steps + 1 :=
    Nat.exists_eq_succ_of_ne_zero (Nat.pos_iff_ne_zero.1 (Nat.pow_pos (Nat.succ_pos _)))
  exact ⟨steps, by rw [trace, bound, run_succ]⟩

theorem reports_of_enterRoot {e : Entry} {streams : List Stream} (enters : s.walk.enterRoot = .ok (e, streams)) :
    s.trace.Reports := by
  obtain ⟨steps, whole⟩ := trace_eq_goOn s
  let resolving := if e.kind = .symbolicLink then s.walk.system.resolveNotices e.path else []
  let reported := Scanner.report s.walk.system .empty e
  let c : Scanner := ⟨{ begin.cursor with streams, position := .onRoot e }, .empty, 1, reported.2⟩
  have first : s.step begin = ⟨resolving.map .notice ++ [.record reported.1], .inl c⟩ := by
    rw [step_begin_ok enters]
    rfl
  refine ⟨resolving, reported.1, (s.run steps c).items, ?_, fun p said => ?_⟩
  · rw [whole, first]
    simp [goOn, Trace.after]
  · simp only [resolving, FileSystem.resolveNotices] at said
    split at said
    · split at said <;> simp at said
    · simp at said

/-- A scan has come from its root. -/
theorem comesFrom_trace (absolute : s.walk.root.isAbsolute = true) : s.trace.ComesFrom s.walk.root := by
  rcases enterRoot_cases absolute with ⟨f, fails, unopened⟩ | ⟨opens, _, _, _, enters⟩
  · obtain ⟨why, _, rfl⟩ := rootFailure?_eq_some_iff.1 fails
    obtain ⟨steps, whole⟩ := trace_eq_goOn s
    rw [step_begin_error unopened] at whole
    exact whole ▸ .unopened why
  · have reports := reports_of_enterRoot enters
    rcases ending_cases absolute with ⟨why, refused, _⟩ | complete | ⟨_, target, why, _, halts, _⟩
    · exact absurd refused (rootFailure?_eq_none_iff.1 opens why)
    · exact .complete reports complete
    · exact .halted reports halts (.target target why)

end Scan

namespace Report

/-- The text of a whole report: the header, and a line for each record. -/
def fullText (options : ReportOptions) (root : Path) (records : List Record) : Text :=
  let layout := Layout.ofMode options.mode
  let lines := layout.header options.separator options.now root ++ records.map fun r => layout.line options.separator r
  lines.flatMap (· ++ ['\n'])

theorem fullText_ne_nil (options : ReportOptions) (root : Path) {records : List Record} (reported : records ≠ []) :
    fullText options root records ≠ [] := by
  obtain ⟨r, rest, rfl⟩ := List.exists_cons_of_ne_nil reported
  simp [fullText]

theorem writeLines_unlimited (taken lines : List Text) :
    writeLines ⟨taken, none⟩ lines = (⟨taken ++ lines, none⟩, none) := by
  induction lines generalizing taken with
  | nil => simp [writeLines]
  | cons line rest ih => simp [writeLines, Sink.write, ih]

theorem writeItems_unlimited (line : Record → Text) (taken : List Text) (items : List Item) :
    writeItems line ⟨taken, none⟩ items =
      (⟨taken ++ (items.filterMap Item.record?).map line, none⟩, items.filterMap Item.notice?, none) := by
  induction items generalizing taken with
  | nil => simp [writeItems]
  | cons item rest ih =>
    cases item with
    | notice n => simp [writeItems, ih, List.filterMap_cons, Item.record?, Item.notice?]
    | record r => simp [writeItems, Sink.write, ih, List.filterMap_cons, Item.record?, Item.notice?]

/-- Where there is a record, the whole report is written, however the scan ends. -/
theorem write_empty (options : ReportOptions) (root : Path) {t : Trace} (reported : t.records ≠ []) :
    (write options root .empty t).sink.text = fullText options root t.records ∧
      (write options root .empty t).outcome = match t.failure? with
        | none => .ok t.records.length
        | some f => .error f := by
  unfold write
  split
  · rename_i none _
    exact absurd none reported
  · simp only [Sink.empty, writeLines_unlimited, writeItems_unlimited, List.nil_append]
    cases t.failure? <;> exact ⟨rfl, rfl⟩

end Report

namespace Path

theorem root_above (p : Path) : p.above.root = p.root := by
  unfold above
  split
  · rename_i relative _
    exact relative.symm
  · rename_i relative _
    exact relative.symm
  · rfl

theorem root_normal (p : Path) : p.normal.root = p.root := by
  obtain ⟨root, parts⟩ := p
  induction parts using List.reverseRecOn with
  | nil => rfl
  | append_singleton parts c ih =>
    cases c with
    | up =>
      rw [normal_up ⟨root, parts⟩, root_above]
      exact ih
    | name n =>
      have child : (⟨root, parts ++ [.name n]⟩ : Path).normal = (⟨root, parts⟩ : Path).normal.child n :=
        normal_child ⟨root, parts⟩ n
      rw [child]
      exact ih

theorem isAbsolute_absolute (p : Path) {directory : Path} (grounded : directory.isAbsolute = true) :
    (p.absolute directory).isAbsolute = true := by
  unfold isAbsolute absolute at *
  rw [root_normal, join]
  split
  · exact grounded
  · simpa using ‹_›

end Path

namespace Request

variable {fs : FileSystem} {r : Request}

theorem existingDirectory_eq_ok_iff {role : RootRole} {given : Text} {p : Path} :
    existingDirectory fs role given = .ok p ↔
      fs.isDirectory ((Path.ofText given).absolute fs.workingDirectory) = .ok true ∧
        p = (Path.ofText given).absolute fs.workingDirectory := by
  simp only [existingDirectory]
  rcases fs.isDirectory ((Path.ofText given).absolute fs.workingDirectory) with _ | (_ | _) <;> simp [eq_comm]

theorem searchRoot_eq_ok_iff {localGiven given : Text} {localRoot p : Path} :
    searchRoot fs localGiven localRoot given = .ok p ↔
      existingDirectory fs .searchRoot given = .ok p ∧ p.Under localRoot := by
  unfold searchRoot
  cases existingDirectory fs .searchRoot given with
  | error f => simp [bind, Except.bind]
  | ok q =>
    by_cases inside : q.Under localRoot
    · simp only [bind, Except.bind, inside, if_true, Except.ok.injEq]
      exact ⟨fun same => ⟨same, same ▸ inside⟩, And.left⟩
    · simp only [bind, Except.bind, inside, if_false, Except.ok.injEq, reduceCtorEq, false_iff, not_and]
      rintro rfl
      exact inside

/-- The root that is scanned is absolute. -/
theorem isAbsolute_of_roots {localRoot root : Path} {others : List Path}
    (checked : r.roots fs = .ok (localRoot, root, others)) : root.isAbsolute = true := by
  unfold roots at checked
  split at checked
  · cases checked
  · split at checked
    · cases checked
    · obtain ⟨_, _, checked⟩ := bind_eq_ok checked
      obtain ⟨_, first, checked⟩ := bind_eq_ok checked
      obtain ⟨_, _, checked⟩ := bind_eq_ok checked
      cases checked
      rw [(existingDirectory_eq_ok_iff.1 (searchRoot_eq_ok_iff.1 first).1).2]
      exact Path.isAbsolute_absolute _ fs.grounded

theorem comesFrom_trace (r : Request) (fs : FileSystem) (localRoot : Path) {root : Path} (rules : Option IgnoreRules)
    (absolute : root.isAbsolute = true) : (r.trace fs localRoot root rules).ComesFrom root := by
  have scanned (excludes : Path → Bool → Bool) :
      (Scan.ofOptions fs root ⟨some localRoot, r.sorted, excludes⟩).trace.ComesFrom root :=
    Scan.comesFrom_trace (s := .ofOptions fs root ⟨some localRoot, r.sorted, excludes⟩) absolute
  unfold trace
  split
  · exact scanned _
  · exact (scanned _).failingAt _ .pattern

/-- Why a run comes to nothing before its sink is open. -/
inductive Refuses (r : Request) (fs : FileSystem) : Failure → Prop where
  | roots {f : Failure} (fails : r.roots fs = .error f) : Refuses r fs f
  | rules {found : Path × Path × List Path} {f : Failure} (checked : r.roots fs = .ok found)
      (fails : (r.rules fs).2 = .error f) : Refuses r fs f
  | noOutput {found : Path × Path × List Path} {rules : Option IgnoreRules} (checked : r.roots fs = .ok found)
      (read : (r.rules fs).2 = .ok rules) (missing : r.output = none) : Refuses r fs .missingWord
  | sink {found : Path × Path × List Path} {rules : Option IgnoreRules} {output : Text} {why : Errno}
      (checked : r.roots fs = .ok found) (read : (r.rules fs).2 = .ok rules) (given : r.output = some output)
      (fails : fs.openForWriting (.ofText output) = .error why) :
      Refuses r fs (.reported (.sinkNotOpened (.ofText output) why))

/-- All that a scan needs is there: the roots, the rules, and the open sink with the
    file system as it is then. -/
structure Prepared (r : Request) (fs : FileSystem) where
  localRoot : Path
  root : Path
  others : List Path
  rules : Option IgnoreRules
  output : Text
  system : FileSystem
  location : Location
  checked : r.roots fs = .ok (localRoot, root, others)
  read : (r.rules fs).2 = .ok rules
  given : r.output = some output
  opens : fs.openForWriting (.ofText output) = .ok (system, location)

namespace Prepared

variable (p : r.Prepared fs)

/-- What the scan brings out, with the sink open. -/
def trace : Trace := r.trace p.system p.localRoot p.root p.rules

/-- The text of the whole report. -/
def text (now : Int) : Text := Report.fullText ⟨r.mode, r.separator, now⟩ p.root p.trace.records

/-- What is written cannot be flushed to the file. -/
def Unflushable (why : Errno) : Prop := ∃ n, p.system.node? p.location = some n ∧ n.fault? .write = some why

/-- The root cannot be opened, or there is a record, and the scan completes or halts. -/
theorem trace_cases :
    (∃ why, p.trace = ⟨[], .failed (.reported (.rootNotOpened p.root why))⟩) ∨
      p.trace.records ≠ [] ∧
        (p.trace.ending = .complete ∨ ∃ f : Failure, p.trace.ending = .failed f ∧ f.HaltsScan) := by
  have comes : p.trace.ComesFrom p.root :=
    r.comesFrom_trace p.system p.localRoot p.rules (isAbsolute_of_roots p.checked)
  generalize p.trace = t at comes
  cases comes with
  | unopened why => exact .inl ⟨why, rfl⟩
  | complete reports completes => exact .inr ⟨reports.records_ne_nil, .inl completes⟩
  | halted reports halts late => exact .inr ⟨reports.records_ne_nil, .inr ⟨_, halts, late⟩⟩

end Prepared

theorem refuses_or_prepared (r : Request) (fs : FileSystem) : (∃ f, r.Refuses fs f) ∨ Nonempty (r.Prepared fs) := by
  cases checked : r.roots fs with
  | error f => exact .inl ⟨f, .roots checked⟩
  | ok found =>
    cases read : (r.rules fs).2 with
    | error f => exact .inl ⟨f, .rules checked read⟩
    | ok rules =>
      cases given : r.output with
      | none => exact .inl ⟨_, .noOutput checked read given⟩
      | some output =>
        cases opens : fs.openForWriting (.ofText output) with
        | error why => exact .inl ⟨_, .sink checked read given opens⟩
        | ok sink =>
          obtain ⟨localRoot, root, others⟩ := found
          exact .inr ⟨⟨localRoot, root, others, rules, output, sink.1, sink.2, checked, read, given, opens⟩⟩

end Request

namespace Run

variable {fs : FileSystem} {r : Request}

/-- A run that is refused changes nothing and opens no file. -/
theorem perform_of_refuses (now : Int) {f : Failure} (refuses : r.Refuses fs f) :
    (perform fs now r).system = fs ∧ (perform fs now r).delivered = none ∧ (perform fs now r).outcome = .error f := by
  unfold perform
  rcases found : r.rules fs with ⟨notices, result⟩
  cases refuses with
  | roots fails =>
    rw [fails]
    exact ⟨rfl, rfl, rfl⟩
  | rules checked fails =>
    rw [found] at fails
    cases fails
    rw [checked]
    exact ⟨rfl, rfl, rfl⟩
  | noOutput checked read missing =>
    rw [found] at read
    cases read
    rw [checked, missing]
    exact ⟨rfl, rfl, rfl⟩
  | sink checked read given fails =>
    rw [found] at read
    cases read
    rw [checked, given]
    simp only [deliver, fails]
    exact ⟨rfl, rfl, rfl⟩

/-- A prepared run scans, writes the report and closes its sink. -/
theorem perform_of_prepared (now : Int) (p : r.Prepared fs) :
    ∃ notices, perform fs now r = { close p.system (.ofText p.output) p.location
      (.write ⟨r.mode, r.separator, now⟩ p.root .empty p.trace) with notices } := by
  obtain ⟨localRoot, root, others, rules, output, system, location, checked, read, given, opens⟩ := p
  unfold perform
  rcases found : r.rules fs with ⟨notices, result⟩
  rw [found] at read
  cases read
  rw [checked, given]
  simp only [deliver, opens]
  exact ⟨_, rfl⟩

/-- What a prepared run leaves: this text in the file that was opened and nothing else,
    and this outcome. -/
structure Leaves (run : Run) (p : r.Prepared fs) (t : Text) (outcome : Except Failure Nat) : Prop where
  system : run.system = p.system.store p.location t
  delivered : run.delivered = some (p.location, t)
  holds : run.system.Holds p.location t
  outcome : run.outcome = outcome

/-- Nothing is left when a report has no text or cannot be flushed. -/
theorem leaves_nothing {run : Run} {p : r.Prepared fs} {outcome : Except Failure Nat} (system : run.system = p.system)
    (delivered : run.delivered = some (p.location, [])) (ends : run.outcome = outcome) :
    run.Leaves p [] outcome := by
  have empty := FileSystem.holds_opened p.opens
  exact ⟨by rw [system, empty.store_eq_self], delivered, system ▸ empty, ends⟩

theorem leaves_of_unopened (now : Int) {p : r.Prepared fs} {why : Option Errno}
    (unopened : p.trace = ⟨[], .failed (.reported (.rootNotOpened p.root why))⟩) :
    (perform fs now r).Leaves p [] (.error (.reported (.rootNotOpened p.root why))) := by
  obtain ⟨notices, performed⟩ := perform_of_prepared now p
  have report : Report.write ⟨r.mode, r.separator, now⟩ p.root .empty p.trace =
      ⟨.empty, [], .error (.reported (.rootNotOpened p.root why))⟩ := by
    rw [unopened]
    rfl
  have kept := (FileSystem.holds_opened p.opens).store_eq_self
  rw [performed, report]
  unfold close
  split
  · exact leaves_nothing rfl rfl rfl
  · exact leaves_nothing kept rfl rfl

theorem close_of_fault {output : Path} {l : Location} {report : Report} {n : Node} {why : Errno}
    (found : fs.node? l = some n) (fault : n.fault? .write = some why) (said : report.sink.text ≠ []) :
    close fs output l report =
      ⟨fs, some (l, []), report.notices, .error (.reported (.sinkNotFlushed output why))⟩ := by
  simp [close, found, fault, said]

theorem close_of_free {l : Location} {n : Node} (found : fs.node? l = some n) (free : n.fault? .write = none)
    (output : Path) (report : Report) :
    close fs output l report =
      ⟨fs.store l report.sink.text, some (l, report.sink.text), report.notices, report.outcome⟩ := by
  simp [close, found, free]

/-- Where the scan has a record, a report that cannot be flushed fails so, and any other is stored. -/
theorem leaves_of_records (now : Int) {p : r.Prepared fs} (reported : p.trace.records ≠ []) :
    (∀ why, p.Unflushable why →
      (perform fs now r).Leaves p [] (.error (.reported (.sinkNotFlushed (.ofText p.output) why)))) ∧
    ((∀ why, ¬ p.Unflushable why) → (perform fs now r).Leaves p (p.text now) (match p.trace.failure? with
      | none => .ok p.trace.records.length
      | some f => .error f)) := by
  obtain ⟨notices, performed⟩ := perform_of_prepared now p
  obtain ⟨text, outcome⟩ := Report.write_empty ⟨r.mode, r.separator, now⟩ p.root reported
  rw [performed]
  refine ⟨fun why ⟨n, found, fault⟩ => ?_, fun flushable => ?_⟩
  · rw [close_of_fault found fault (text ▸ Report.fullText_ne_nil _ _ reported)]
    exact leaves_nothing rfl rfl rfl
  · obtain ⟨n, found, _⟩ := FileSystem.holds_opened p.opens
    have free : n.fault? .write = none :=
      Option.eq_none_iff_forall_ne_some.2 fun why fault => flushable why ⟨n, found, fault⟩
    rw [close_of_free found free, text, outcome]
    exact ⟨rfl, rfl, (FileSystem.holds_opened p.opens).store _, rfl⟩

theorem exists_leaves (now : Int) (p : r.Prepared fs) : ∃ t outcome, (perform fs now r).Leaves p t outcome := by
  rcases p.trace_cases with ⟨_, unopened⟩ | ⟨reported, _⟩
  · exact ⟨_, _, leaves_of_unopened now unopened⟩
  · obtain ⟨unflushed, flushed⟩ := leaves_of_records now reported
    by_cases fails : ∃ why, p.Unflushable why
    · obtain ⟨why, fault⟩ := fails
      exact ⟨_, _, unflushed why fault⟩
    · exact ⟨_, _, flushed fun why fault => fails ⟨why, fault⟩⟩

end Run
end Inventory
