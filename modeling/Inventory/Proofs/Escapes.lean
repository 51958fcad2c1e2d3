import Inventory.CommandLine
import Inventory.Proofs.Patternless

namespace Inventory

/-- The failure is none that is reported to the user. -/
def Failure.Unreported (f : Failure) : Prop := ∀ e, f ≠ .reported e

/-- What fails for a list fails for its first element that fails. -/
theorem mapM_eq_error_iff {α β ε : Type} {f : α → Except ε β} {xs : List α} {e : ε} :
    xs.mapM f = .error e ↔
      ∃ before x after, xs = before ++ x :: after ∧ (∀ y ∈ before, ∃ b, f y = .ok b) ∧ f x = .error e := by
  induction xs with
  | nil => simp [pure, Except.pure]
  | cons x xs ih =>
    rw [List.mapM_cons]
    cases here : f x with
    | error why =>
      constructor
      · intro fails
        cases fails
        exact ⟨[], x, xs, rfl, by simp, here⟩
      · rintro ⟨before, y, after, split, passed, fails⟩
        cases before with
        | nil =>
          cases split
          exact congrArg _ (Except.error.inj (here.symm.trans fails))
        | cons z before =>
          cases split
          obtain ⟨b, passes⟩ := passed x List.mem_cons_self
          cases here.symm.trans passes
    | ok b =>
      have onward : (do let first ← Except.ok b; let later ← xs.mapM f; pure (first :: later)) = .error e ↔
          xs.mapM f = .error e := by
        cases xs.mapM f <;> simp [bind, Except.bind, pure, Except.pure]
      rw [onward, ih]
      constructor
      · rintro ⟨before, y, after, rfl, passed, fails⟩
        refine ⟨x :: before, y, after, rfl, ?_, fails⟩
        rw [List.forall_mem_cons]
        exact ⟨⟨b, here⟩, passed⟩
      · rintro ⟨before, y, after, split, passed, fails⟩
        cases before with
        | nil =>
          cases split
          cases here.symm.trans fails
        | cons z before =>
          cases split
          exact ⟨before, y, after, rfl, fun w among => passed w (List.mem_cons_of_mem _ among), fails⟩

/-- A line that is no rule fails in one of two ways, and neither is reported. -/
theorem IgnoreRule.ofLine_unreported {line : Text} {f : Failure} (fails : ofLine line = .error f) : f.Unreported := by
  suffices f = .malformedRule ∨ f = .descendingRange by
    rcases this with rfl | rfl <;> simp [Failure.Unreported]
  simp only [ofLine] at fails
  split at fails
  · cases fails
  · split at fails
    · cases fails
      exact .inl rfl
    · split at fails
      · cases fails
      · cases fails
        exact .inl rfl
      · split at fails
        · cases fails
          exact .inr rfl
        · cases fails

theorem IgnoreRules.ofLines_eq_error_iff {lines : List Text} {f : Failure} : ofLines lines = .error f ↔
    ∃ before line after, lines.filter (· ≠ []) = before ++ line :: after ∧
      (∀ l ∈ before, ∃ rule, IgnoreRule.ofLine l = .ok rule) ∧ IgnoreRule.ofLine line = .error f := by
  rw [← mapM_eq_error_iff]
  unfold ofLines
  cases (lines.filter (· ≠ [])).mapM IgnoreRule.ofLine <;> simp [bind, Except.bind]

namespace FileSystem

variable {fs : FileSystem}

theorem isDirectory_eq_true_iff {p : Path} :
    fs.isDirectory p = .ok true ↔ ∃ node, fs.stat p = .ok node ∧ node.isDirectory = true := by
  unfold isDirectory
  cases fs.stat p with
  | ok node => simp
  | error why => cases absent : why.saysAbsent <;> simp [absent]

theorem isDirectory_eq_error_iff {p : Path} {why : Errno} :
    fs.isDirectory p = .error why ↔ fs.stat p = .error why ∧ why.saysAbsent = false := by
  unfold isDirectory
  cases fs.stat p with
  | ok node => simp
  | error cause =>
    by_cases same : cause = why
    · subst same
      cases absent : cause.saysAbsent <;> simp [absent]
    · cases absent : cause.saysAbsent <;> simp [absent, same]

end FileSystem

namespace Request

variable {fs : FileSystem} {r : Request} {localGiven : Text} {f : Failure}

/-- The absolute path of a directory that is given. -/
def absoluteOf (fs : FileSystem) (given : Text) : Path := (Path.ofText given).absolute fs.workingDirectory

/-- The directories that are given, in the order in which they are checked, each with the
    part that it plays. -/
def givenRoots (r : Request) (localGiven : Text) : List (RootRole × Text) :=
  (.localRoot, localGiven) :: r.searchRoots.map fun given => (.searchRoot, given)

/-- The check of a given directory. -/
def checkRoot (fs : FileSystem) (localGiven : Text) : RootRole × Text → Except Failure Path
  | (.localRoot, given) => existingDirectory fs .localRoot given
  | (.searchRoot, given) => searchRoot fs localGiven (absoluteOf fs localGiven) given

/-- A given directory is one, and one to search is under the local root. -/
def Passes (fs : FileSystem) (localGiven : Text) (c : RootRole × Text) : Prop :=
  (∃ node, fs.stat (absoluteOf fs c.2) = .ok node ∧ node.isDirectory = true) ∧
    (c.1 = .searchRoot → (absoluteOf fs c.2).Under (absoluteOf fs localGiven))

theorem checkRoot_passes {c : RootRole × Text} : (∃ p, checkRoot fs localGiven c = .ok p) ↔ Passes fs localGiven c := by
  obtain ⟨role, given⟩ := c
  unfold Passes
  rw [← FileSystem.isDirectory_eq_true_iff]
  cases role with
  | localRoot => simp [checkRoot, existingDirectory_eq_ok_iff, absoluteOf]
  | searchRoot => simp [checkRoot, searchRoot_eq_ok_iff, existingDirectory_eq_ok_iff, absoluteOf, and_assoc]

theorem existingDirectory_unreported (role : RootRole) (given : Text) :
    existingDirectory fs role given = .error f ∧ f.Unreported ↔
      ∃ why, fs.stat (absoluteOf fs given) = .error why ∧ why.saysAbsent = false ∧ f = .system why := by
  have known (why : Errno) : fs.isDirectory (absoluteOf fs given) = .error why ↔
      fs.stat (absoluteOf fs given) = .error why ∧ why.saysAbsent = false := FileSystem.isDirectory_eq_error_iff
  simp only [existingDirectory]
  rw [show (Path.ofText given).absolute fs.workingDirectory = absoluteOf fs given from rfl]
  cases asked : fs.isDirectory (absoluteOf fs given) with
  | error why =>
    obtain ⟨fails, more⟩ := (known why).1 asked
    simp only [Except.error.injEq]
    constructor
    · rintro ⟨rfl, _⟩
      exact ⟨why, fails, more, rfl⟩
    · rintro ⟨why', fails', _, rfl⟩
      cases fails.symm.trans fails'
      exact ⟨rfl, by simp [Failure.Unreported]⟩
  | ok is =>
    have none : ¬ ∃ why, fs.stat (absoluteOf fs given) = .error why ∧ why.saysAbsent = false ∧ f = .system why := by
      rintro ⟨why, fails, more, _⟩
      cases asked.symm.trans ((known why).2 ⟨fails, more⟩)
    cases is with
    | true => simpa using none
    | false =>
      refine iff_of_false ?_ none
      rintro ⟨same, unreported⟩
      exact unreported _ (Except.error.inj same).symm

/-- A check fails with what is not reported just if the system fails otherwise than by
    saying that nothing is there. -/
theorem checkRoot_unreported {c : RootRole × Text} :
    checkRoot fs localGiven c = .error f ∧ f.Unreported ↔
      ∃ why, fs.stat (absoluteOf fs c.2) = .error why ∧ why.saysAbsent = false ∧ f = .system why := by
  obtain ⟨role, given⟩ := c
  cases role with
  | localRoot => exact existingDirectory_unreported .localRoot given
  | searchRoot =>
    rw [← existingDirectory_unreported .searchRoot given]
    simp only [checkRoot, searchRoot]
    cases existingDirectory fs .searchRoot given with
    | error f' => rfl
    | ok p =>
      refine iff_of_false ?_ (by simp)
      rintro ⟨fails, unreported⟩
      simp only [bind, Except.bind] at fails
      split at fails
      · cases fails
      · exact unreported _ (Except.error.inj fails).symm

/-- The roots are checked one after another. -/
theorem roots_eq_error_iff (searches : r.searchRoots ≠ []) (named : r.localRoot = some localGiven) :
    r.roots fs = .error f ↔ (r.givenRoots localGiven).mapM (checkRoot fs localGiven) = .error f := by
  obtain ⟨first, others, given⟩ := List.exists_cons_of_ne_nil searches
  have searched : (checkRoot fs localGiven ∘ fun given => (.searchRoot, given)) =
      searchRoot fs localGiven ((Path.ofText localGiven).absolute fs.workingDirectory) := rfl
  simp only [roots, givenRoots, given, named, List.map_cons, List.mapM_cons, List.mapM_map, searched]
  cases there : existingDirectory fs .localRoot localGiven with
  | error f' => simp [checkRoot, there, bind, Except.bind]
  | ok localRoot =>
    obtain rfl := (existingDirectory_eq_ok_iff.1 there).2
    simp only [checkRoot, there, absoluteOf, bind, Except.bind]
    cases searchRoot fs localGiven ((Path.ofText localGiven).absolute fs.workingDirectory) first with
    | error f' => simp
    | ok p =>
      simp only
      cases others.mapM (searchRoot fs localGiven ((Path.ofText localGiven).absolute fs.workingDirectory)) with
      | error f' => simp
      | ok later => simp [pure, Except.pure]

/-- A file of rules is no well-formed text, or has a line that is no rule. -/
inductive MisreadsRules (r : Request) (fs : FileSystem) : Failure → Prop where
  | undecodable {file data : Text} (named : r.ignoreFile = some file) (given : file ≠ [])
      (read : fs.read (.ofText file) = .ok data) (foreign : data.any Text.isLoneByte = true) :
      MisreadsRules r fs .undecodable
  | noRule {file data line : Text} {before after : List Text} {f : Failure} (named : r.ignoreFile = some file)
      (given : file ≠ []) (read : fs.read (.ofText file) = .ok data) (decodes : data.any Text.isLoneByte = false)
      (lines : (Text.lines (Text.unifiedBreaks data)).filter (· ≠ []) = before ++ line :: after)
      (good : ∀ l ∈ before, ∃ rule, IgnoreRule.ofLine l = .ok rule) (bad : IgnoreRule.ofLine line = .error f) :
      MisreadsRules r fs f

theorem rules_of_file {file : Text} (named : r.ignoreFile = some file) (given : file ≠ []) :
    (r.rules fs).2 = (fs.rules (.ofText file)).2.map some := by
  unfold rules
  rw [named]
  cases file with
  | nil => exact absurd rfl given
  | cons c t => rfl

theorem rules_unreported : (r.rules fs).2 = .error f ∧ f.Unreported ↔ r.MisreadsRules fs f := by
  constructor
  · rintro ⟨fails, unreported⟩
    by_cases asked : ∃ file, r.ignoreFile = some file ∧ file ≠ []
    · obtain ⟨file, named, given⟩ := asked
      rw [rules_of_file named given, FileSystem.rules, FileSystem.ruleLines] at fails
      cases read : fs.read (.ofText file) with
      | error why =>
        simp only [read, Except.map] at fails
        exact absurd (Except.error.inj fails).symm (unreported _)
      | ok data =>
        cases foreign : data.any Text.isLoneByte with
        | true =>
          simp only [read, foreign, if_true, Except.map, Except.error.injEq] at fails
          subst fails
          exact .undecodable named given read foreign
        | false =>
          have bad : IgnoreRules.ofLines (Text.lines (Text.unifiedBreaks data)) = .error f := by
            cases lines : IgnoreRules.ofLines (Text.lines (Text.unifiedBreaks data)) with
            | error f' => simpa [read, foreign, lines, Except.map] using fails
            | ok rules => simp [read, foreign, lines, Except.map] at fails
          obtain ⟨before, line, after, lines, good, bad⟩ := IgnoreRules.ofLines_eq_error_iff.1 bad
          exact .noRule named given read foreign lines good bad
    · unfold rules at fails
      split at fails
      · cases fails
      · cases fails
      · rename_i file given named
        exact absurd ⟨file, named, given⟩ asked
  · intro misreads
    cases misreads with
    | undecodable named given read foreign =>
      refine ⟨?_, by simp [Failure.Unreported]⟩
      simp [rules_of_file named given, FileSystem.rules, FileSystem.ruleLines, read, foreign, Except.map]
    | noRule named given read decodes lines good bad =>
      have fails := IgnoreRules.ofLines_eq_error_iff.2 ⟨_, _, _, lines, good, bad⟩
      refine ⟨?_, IgnoreRule.ofLine_unreported bad⟩
      simp [rules_of_file named given, FileSystem.rules, FileSystem.ruleLines, read, decodes, fails, Except.map]

/-- What ends a run without being reported: there is no word for the local root; a given
    directory cannot be asked about, where all before were good; the rules are misread; there
    is no word for the output; or a pattern has no word, and with the sink open the scan comes
    upon a node in the directory of its root that no pattern before covers. -/
inductive Escapes (r : Request) (fs : FileSystem) : Failure → Prop where
  | noLocalRoot (searches : r.searchRoots ≠ []) (missing : r.localRoot = none) : Escapes r fs .missingWord
  | unasked {localGiven : Text} {before after : List (RootRole × Text)} {c : RootRole × Text} {why : Errno}
      (searches : r.searchRoots ≠ []) (named : r.localRoot = some localGiven)
      (listed : r.givenRoots localGiven = before ++ c :: after) (passed : ∀ b ∈ before, Passes fs localGiven b)
      (asked : fs.stat (absoluteOf fs c.2) = .error why) (more : why.saysAbsent = false) : Escapes r fs (.system why)
  | rules {found : Path × Path × List Path} {f : Failure} (checked : r.roots fs = .ok found)
      (misreads : r.MisreadsRules fs f) : Escapes r fs f
  | noOutput {found : Path × Path × List Path} {rules : Option IgnoreRules} (checked : r.roots fs = .ok found)
      (read : (r.rules fs).2 = .ok rules) (missing : r.output = none) : Escapes r fs .missingWord
  | noPattern (p : r.Prepared fs) {q : Path} (flushes : ∀ why, ¬ p.Unflushable why) (unnamed : none ∈ r.patterns)
      (meets : p.system.Meets p.root q)
      (uncovered : Exclusion.coversName (r.patternsBefore.map Wildcard.ofText) q = false) : Escapes r fs .missingWord

theorem escapes_of_roots (fails : r.roots fs = .error f) (unreported : f.Unreported) : r.Escapes fs f := by
  by_cases searches : r.searchRoots = []
  · simp only [roots, searches] at fails
    exact absurd (Except.error.inj fails).symm (unreported _)
  · cases named : r.localRoot with
    | none =>
      obtain ⟨first, others, given⟩ := List.exists_cons_of_ne_nil searches
      simp only [roots, given, named] at fails
      cases fails
      exact .noLocalRoot searches named
    | some localGiven =>
      obtain ⟨before, c, after, listed, passed, fails⟩ :=
        mapM_eq_error_iff.1 ((roots_eq_error_iff searches named).1 fails)
      obtain ⟨why, asked, more, rfl⟩ := checkRoot_unreported.1 ⟨fails, unreported⟩
      exact .unasked searches named listed (fun b among => checkRoot_passes.1 (passed b among)) asked more

theorem escapes_of_refuses (refuses : r.Refuses fs f) (unreported : f.Unreported) : r.Escapes fs f := by
  cases refuses with
  | roots fails => exact escapes_of_roots fails unreported
  | rules checked fails => exact .rules checked (rules_unreported.1 ⟨fails, unreported⟩)
  | noOutput checked read missing => exact .noOutput checked read missing
  | sink _ _ _ _ => exact absurd rfl (unreported _)

/-- What is not reported refuses a run, except for a pattern that has no text. -/
theorem refuses_of_escapes (escapes : r.Escapes fs f) :
    f.Unreported ∧ (r.Refuses fs f ∨ f = .missingWord ∧ ∃ p : r.Prepared fs,
      (∀ why, ¬ p.Unflushable why) ∧ p.trace.ending = .failed .missingWord) := by
  cases escapes with
  | noLocalRoot searches missing =>
    obtain ⟨first, others, given⟩ := List.exists_cons_of_ne_nil searches
    exact ⟨by simp [Failure.Unreported], .inl (.roots (by simp only [roots, given, missing]))⟩
  | unasked searches named listed passed asked more =>
    obtain ⟨fails, unreported⟩ := checkRoot_unreported.2 ⟨_, asked, more, rfl⟩
    refine ⟨unreported, .inl (.roots ((roots_eq_error_iff searches named).2 ?_))⟩
    exact mapM_eq_error_iff.2 ⟨_, _, _, listed, fun b among => checkRoot_passes.2 (passed b among), fails⟩
  | rules checked misreads =>
    obtain ⟨fails, unreported⟩ := rules_unreported.2 misreads
    exact ⟨unreported, .inl (.rules checked fails)⟩
  | noOutput checked read missing => exact ⟨by simp [Failure.Unreported], .inl (.noOutput checked read missing)⟩
  | noPattern p flushes unnamed meets uncovered =>
    have ending : p.trace.ending = .failed .missingWord :=
      (ending_eq_missingWord_iff (isAbsolute_of_roots p.checked)).2 ⟨unnamed, _, meets, uncovered⟩
    exact ⟨by simp [Failure.Unreported], .inr ⟨rfl, p, flushes, ending⟩⟩

end Request

namespace Run

variable {fs : FileSystem} {r : Request}

/-- How a prepared run ends, with the text that it leaves. -/
inductive Ends (p : r.Prepared fs) (now : Int) : Text → Except Failure Nat → Prop where
  | unopened {why : Option Errno} (nothing : p.trace = ⟨[], .failed (.reported (.rootNotOpened p.root why))⟩) :
      Ends p now [] (.error (.reported (.rootNotOpened p.root why)))
  | unflushed {why : Errno} (reported : p.trace.records ≠ []) (fails : p.Unflushable why) :
      Ends p now [] (.error (.reported (.sinkNotFlushed (.ofText p.output) why)))
  | halted {f : Failure} (reported : p.trace.records ≠ []) (flushes : ∀ why, ¬ p.Unflushable why)
      (halts : p.trace.ending = .failed f) (late : f.HaltsScan) : Ends p now (p.text now) (.error f)
  | complete (reported : p.trace.records ≠ []) (flushes : ∀ why, ¬ p.Unflushable why)
      (completes : p.trace.ending = .complete) : Ends p now (p.text now) (.ok p.trace.records.length)

/-- A prepared run ends in one of these ways, and leaves what it then does. -/
theorem exists_ends (now : Int) (p : r.Prepared fs) :
    ∃ t outcome, (perform fs now r).Leaves p t outcome ∧ Ends p now t outcome := by
  rcases p.trace_cases with ⟨why, unopened⟩ | ⟨reported, ends⟩
  · exact ⟨_, _, leaves_of_unopened now unopened, .unopened unopened⟩
  · obtain ⟨unflushed, flushed⟩ := leaves_of_records now reported
    by_cases fails : ∃ why, p.Unflushable why
    · obtain ⟨why, fault⟩ := fails
      exact ⟨_, _, unflushed why fault, .unflushed reported fault⟩
    · have flushes : ∀ why, ¬ p.Unflushable why := fun why fault => fails ⟨why, fault⟩
      have left := flushed flushes
      rcases ends with completes | ⟨f, halts, late⟩
      · rw [Trace.failure?, completes] at left
        exact ⟨_, _, left, .complete reported flushes completes⟩
      · rw [Trace.failure?, halts] at left
        exact ⟨_, _, left, .halted reported flushes halts late⟩

/-- A run ends with a failure that is not reported just if that escapes. -/
theorem unreported_iff (now : Int) {f : Failure} :
    (perform fs now r).outcome = .error f ∧ f.Unreported ↔ r.Escapes fs f := by
  constructor
  · rintro ⟨fails, unreported⟩
    rcases r.refuses_or_prepared fs with ⟨f', refuses⟩ | ⟨⟨p⟩⟩
    · cases (perform_of_refuses now refuses).2.2.symm.trans fails
      exact Request.escapes_of_refuses refuses unreported
    · obtain ⟨t, outcome, left, ends⟩ := exists_ends now p
      cases left.outcome.symm.trans fails
      cases ends with
      | unopened _ | unflushed _ _ => exact absurd rfl (unreported _)
      | halted _ flushes halts late =>
        cases late with
        | target _ _ => exact absurd rfl (unreported _)
        | pattern =>
          obtain ⟨unnamed, q, meets, uncovered⟩ :=
            (Request.ending_eq_missingWord_iff (Request.isAbsolute_of_roots p.checked)).1 halts
          exact .noPattern p flushes unnamed meets uncovered
  · intro escapes
    obtain ⟨unreported, refuses | ⟨rfl, p, flushes, ending⟩⟩ := Request.refuses_of_escapes escapes
    · exact ⟨(perform_of_refuses now refuses).2.2, unreported⟩
    · refine ⟨?_, unreported⟩
      obtain ⟨t, outcome, left, ends⟩ := exists_ends now p
      rw [left.outcome]
      cases ends with
      | unopened nothing => cases (congrArg Trace.ending nothing).symm.trans ending
      | unflushed _ fails => exact absurd fails (flushes _)
      | halted _ _ halts _ =>
        cases halts.symm.trans ending
        rfl
      | complete _ _ completes => cases completes.symm.trans ending

end Run

namespace Execution

/-- A command line that is understood ends with the number of records or an error that is
    reported, with its exit code, unless another failure escapes; then there is no exit code. -/
theorem reported_unless_escapes (fs : FileSystem) (now : Int) {arguments : List Text} {i : Invocation}
    (understood : Invocation.ofTexts arguments = .ok i) :
    let run := Run.perform fs now i.request
    let code := (Execution.ofTexts fs now arguments).exitCode?
    (∀ f, i.request.Escapes fs f → run.outcome = .error f ∧ f.Unreported ∧ code = none) ∧
      ((∀ f, ¬ i.request.Escapes fs f) → (∃ n, run.outcome = .ok n ∧ code = some 0) ∨
        ∃ e, run.outcome = .error (.reported e) ∧ code = some e.kind.exitCode) := by
  intro run code
  have ran : Execution.ofTexts fs now arguments = .ran i run := by simp only [ofTexts, understood, run]
  constructor
  · intro f escapes
    obtain ⟨fails, unreported⟩ := (Run.unreported_iff now).2 escapes
    refine ⟨fails, unreported, ?_⟩
    simp only [code, ran, exitCode?, run, fails]
    cases f with
    | reported e => exact absurd rfl (unreported e)
    | _ => rfl
  · intro closed
    cases ends : run.outcome with
    | ok n => exact .inl ⟨n, rfl, by simp only [code, ran, exitCode?, ends]⟩
    | error f =>
      by_cases reported : ∃ e, f = .reported e
      · obtain ⟨e, rfl⟩ := reported
        exact .inr ⟨e, rfl, by simp only [code, ran, exitCode?, ends, InventoryError.exitCode]⟩
      · exact absurd ((Run.unreported_iff now).1 ⟨ends, fun e same => reported ⟨e, same⟩⟩) (closed f)

end Execution

/-- A directory, and a file for rules that holds a byte that is no text. -/
def FileSystem.foreignTree : FileSystem :=
  let node (path : String) (content : Content) : NodeSpec := ⟨.ofText path.toList, content, none, ⟨0, 0, 0⟩, []⟩
  .ofSpecs [node "/s" .directory, node "/rules" (.regular [Char.ofNat 0xF7FF])] ⟨.slash, []⟩

namespace Execution

def foreignArguments : List Text :=
  ["long", "/out", "/", "/s", "--ignore-file", "/rules"].map String.toList

def foreignRequest : Request :=
  ⟨"long".toList, some "/out".toList, some "/".toList, ["/s".toList], [], some "/rules".toList, false, []⟩

/-- A file of rules that is no text ends a run with a failure that is not reported. -/
theorem foreign_rules_escape :
    Invocation.ofTexts foreignArguments = .ok ⟨foreignRequest, 0⟩ ∧
      (Run.perform .foreignTree 0 foreignRequest).outcome = .error .undecodable ∧
      (Execution.ofTexts .foreignTree 0 foreignArguments).exitCode? = none :=
  ⟨rfl, by decide +kernel, by decide +kernel⟩

theorem reported_unless_escapes_foreignTree :
    foreignRequest.Escapes .foreignTree .undecodable ∧
      (Execution.ofTexts .foreignTree 0 foreignArguments).exitCode? = none := by
  have understood : Invocation.ofTexts foreignArguments = .ok ⟨foreignRequest, 0⟩ := rfl
  have checked : foreignRequest.roots .foreignTree = .ok (.ofText "/".toList, .ofText "/s".toList, []) := by
    decide +kernel
  have read : FileSystem.foreignTree.read (.ofText "/rules".toList) = .ok [Char.ofNat 0xF7FF] := by decide +kernel
  have escapes : foreignRequest.Escapes .foreignTree .undecodable :=
    .rules checked (.undecodable rfl (by decide) read (by decide))
  exact ⟨escapes, ((reported_unless_escapes .foreignTree 0 understood).1 _ escapes).2.2⟩

end Execution
end Inventory
