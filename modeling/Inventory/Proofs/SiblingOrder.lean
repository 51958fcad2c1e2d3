import Inventory.Proofs.Course

/-!
Two file systems with the same nodes may list the children of a directory in different
orders (`FileSystem.Reordered`). With siblings by name two scans of them are the same, step
by step. With siblings in read order, at each stop the same is made known, and the tours of
the children are exchanged with the children (`Scan.Tour.of_perm`).
-/
namespace Inventory

namespace FileSystem

/-- The file systems differ at most in the order in which directories list their children. -/
structure Reordered (fs fs' : FileSystem) : Prop where
  nodes : ∀ l, fs.node? l = fs'.node? l
  workingDirectory : fs.workingDirectory = fs'.workingDirectory

namespace Reordered

variable {fs fs' : FileSystem}

theorem refl (fs : FileSystem) : fs.Reordered fs := ⟨fun _ => rfl, rfl⟩

/-- It is enough that the nodes are the same in another order. -/
theorem of_perm (perm : fs.table.Perm fs'.table) (directory : fs.workingDirectory = fs'.workingDirectory) :
    fs.Reordered fs' := by
  refine ⟨fun l => Option.ext fun n => ?_, directory⟩
  rw [node?_eq_some_iff, node?_eq_some_iff, perm.mem_iff]

theorem table (same : fs.Reordered fs') : fs.table.Perm fs'.table := by
  have once (fs : FileSystem) : fs.table.Nodup := List.Nodup.of_map Prod.fst fs.distinct
  refine (List.perm_ext_iff_of_nodup (once fs) (once fs')).2 fun e => ?_
  obtain ⟨l, n⟩ := e
  rw [← node?_eq_some_iff, ← node?_eq_some_iff, same.nodes]

theorem names (same : fs.Reordered fs') (l : Location) : (fs.names l).Perm (fs'.names l) := same.table.filterMap _

theorem searchable (same : fs.Reordered fs') (l : Location) : fs.searchable l = fs'.searchable l := by
  simp only [FileSystem.searchable, same.nodes]

theorem insistDirectory (same : fs.Reordered fs') (l : Location) : fs.insistDirectory l = fs'.insistDirectory l := by
  have directory : fs.table.hasDirectory l = fs'.table.hasDirectory l := congrArg (Option.any _) (same.nodes l)
  simp only [FileSystem.insistDirectory, directory]

theorem advance (same : fs.Reordered fs') (follow : Bool)
    (onLink : Location → Text → List Step → Except Errno Found) (here : Location) (steps : List Step) :
    fs.advance follow onLink here steps = fs'.advance follow onLink here steps := by
  induction steps generalizing here with
  | nil => rfl
  | cons step rest ih =>
    cases step with
    | insist => simp only [FileSystem.advance, same.insistDirectory, ih]
    | stay | up => simp only [FileSystem.advance, same.searchable, ih]
    | child n => simp only [FileSystem.advance, same.searchable, same.nodes, ih]

theorem resolve (same : fs.Reordered fs') (follow : Bool) (links : Nat) (here : Location) (steps : List Step) :
    fs.resolve follow links here steps = fs'.resolve follow links here steps := by
  induction links generalizing here steps with
  | zero => exact same.advance ..
  | succ links ih =>
    simp only [FileSystem.resolve, ih]
    exact same.advance ..

theorem locate (same : fs.Reordered fs') (follow : Bool) (p : Path) : fs.locate follow p = fs'.locate follow p := by
  simp only [FileSystem.locate, find, workingLocation, same.resolve, same.workingDirectory]

theorem nodeFor (same : fs.Reordered fs') (call : Call) (l : Location) : fs.nodeFor call l = fs'.nodeFor call l := by
  simp only [FileSystem.nodeFor, same.nodes]

theorem lstat (same : fs.Reordered fs') (p : Path) : fs.lstat p = fs'.lstat p := by
  simp only [FileSystem.lstat, same.locate, same.nodeFor]

theorem stat (same : fs.Reordered fs') (p : Path) : fs.stat p = fs'.stat p := by
  simp only [FileSystem.stat, same.locate, same.nodeFor]

theorem canAccess (same : fs.Reordered fs') (p : Path) : fs.canAccess p = fs'.canAccess p := by
  simp only [FileSystem.canAccess, same.locate, same.nodeFor]

/-- A directory is listed in both, in some order, or in none. -/
theorem list (same : fs.Reordered fs') (p : Path) :
    (∃ e, fs.list p = .error e ∧ fs'.list p = .error e) ∨
      ∃ names names', fs.list p = .ok names ∧ fs'.list p = .ok names' ∧ names.Perm names' := by
  simp only [FileSystem.list, same.locate, same.nodeFor]
  cases fs'.locate true p with
  | error e => exact .inl ⟨e, rfl, rfl⟩
  | ok l =>
    simp only [bind, Except.bind]
    cases fs'.nodeFor .openNode l with
    | error e => exact .inl ⟨e, rfl, rfl⟩
    | ok n =>
      cases directory : n.isDirectory with
      | true => exact .inr ⟨_, _, by simp [directory], by simp [directory], same.names l⟩
      | false => exact .inl ⟨.notDirectory, by simp [directory], by simp [directory]⟩

theorem settle (same : fs.Reordered fs') (policy : Canonical.Policy) (opened : List Path)
    (inner : List Path → Path → Text → Canonical.Outcome) (here : Path) (pieces : List Text) :
    Canonical.settle fs policy opened inner here pieces = Canonical.settle fs' policy opened inner here pieces := by
  induction pieces generalizing here with
  | nil => rfl
  | cons piece rest ih => simp only [Canonical.settle, same.lstat, same.stat, ih]

theorem expand (same : fs.Reordered fs') (policy : Canonical.Policy) (depth : Nat) :
    Canonical.expand fs policy depth = Canonical.expand fs' policy depth := by
  induction depth with
  | zero => rfl
  | succ depth ih =>
    funext opened here t
    simp only [Canonical.expand, ih, same.settle]

theorem outcome (same : fs.Reordered fs') (policy : Canonical.Policy) (p : Path) :
    Canonical.outcome fs policy p = Canonical.outcome fs' policy p := by
  have depth : Canonical.nesting fs = Canonical.nesting fs' := by
    simp only [Canonical.nesting, same.table.length_eq]
  simp only [Canonical.outcome, depth, same.expand, same.settle]

theorem strictForm (same : fs.Reordered fs') (p : Path) : fs.strictForm p = fs'.strictForm p := by
  simp only [FileSystem.strictForm, same.outcome, same.workingDirectory]

theorem canonical (same : fs.Reordered fs') (p : Path) : fs.canonical p = fs'.canonical p := by
  simp only [FileSystem.canonical, same.outcome, same.workingDirectory]

theorem resolveLink (same : fs.Reordered fs') (p : Path) : fs.resolveLink p = fs'.resolveLink p := by
  simp only [FileSystem.resolveLink, same.strictForm, same.canAccess]

theorem resolveNotices (same : fs.Reordered fs') (p : Path) : fs.resolveNotices p = fs'.resolveNotices p := by
  simp only [FileSystem.resolveNotices, same.strictForm]

end Reordered
end FileSystem

/-- Names come in one order if they come by name. -/
theorem Walk.ordered_eq_of_perm {w : Walk} (sorted : w.sorted = true) {names names' : List Name}
    (perm : names.Perm names') : w.ordered names = w.ordered names' := by
  rw [ordered_eq, ordered_eq, Name.inTurn, Name.inTurn, if_pos sorted, if_pos sorted]
  have both := (List.perm_insertionSort Name.Le names).trans (perm.trans (List.perm_insertionSort Name.Le names').symm)
  exact both.eq_of_pairwise' (List.pairwise_insertionSort Name.Le names) (List.pairwise_insertionSort Name.Le names')

namespace Scan

/-- The scans ask for the same and get the same answers, up to the order of names. -/
structure Alike (s s' : Scan) : Prop where
  root : s.walk.root = s'.walk.root
  localRoot : s.localRoot = s'.localRoot
  excludes : s.walk.excludes = s'.walk.excludes
  walked : s.walk.system.Reordered s'.walk.system

namespace Alike

variable {s s' : Scan}

theorem ofOptions {fs fs' : FileSystem} (same : fs.Reordered fs') (root : Path) (localRoot : Option Path)
    (sorted sorted' : Bool) (excludes : Path → Bool → Bool) :
    Alike (.ofOptions fs root ⟨localRoot, sorted, excludes⟩) (.ofOptions fs' root ⟨localRoot, sorted', excludes⟩) :=
  ⟨rfl, rfl, rfl, same⟩

theorem stepBound (alike : s.Alike s') : s.stepBound = s'.stepBound := by
  simp only [Scan.stepBound, alike.walked.table.length_eq]

theorem visit (alike : s.Alike s') (directory : Path) (depth : Nat) (n : Name) :
    s.walk.visit directory depth n = s'.walk.visit directory depth n := by
  simp only [Walk.visit, alike.walked.lstat, alike.root, alike.excludes]

theorem judge (alike : s.Alike s') (stack : RedirectionStack) (e : Entry) (r : LinkResolution) :
    s.gate.judge stack e r = s'.gate.judge stack e r := by
  obtain ⟨target, present⟩ := r
  cases present with
  | false => rfl
  | true =>
    cases target with
    | none => rfl
    | some target =>
      have encloses : s.gate.Encloses stack e target ↔ s'.gate.Encloses stack e target := by
        simp only [Gate.Encloses, gate_system, gate_searchRoot, alike.root, alike.walked.canonical]
      simp only [Gate.judge, gate_system, gate_localRoot, gate_searchRoot, alike.root, alike.localRoot,
        alike.walked.canonical, alike.walked.stat]
      by_cases above : s'.gate.Encloses stack e target
      · simp only [if_pos above, if_pos (encloses.2 above)]
      · simp only [if_neg above, if_neg (mt encloses.1 above)]

theorem revisits (alike : s.Alike s') (stack : RedirectionStack) (e : Entry) :
    s.gate.revisits stack e = s'.gate.revisits stack e := by
  have searchRoot : s.gate.searchRoot = s'.gate.searchRoot := by
    rw [gate_searchRoot, gate_searchRoot, alike.root, alike.walked.canonical]
  simp only [Gate.revisits, searchRoot]

theorem report (alike : s.Alike s') (stack : RedirectionStack) (e : Entry) :
    Scanner.report s.walk.system stack e = Scanner.report s'.walk.system stack e := by
  simp only [Scanner.report, alike.walked.resolveLink]

/-! ## With siblings by name -/

theorem openStream (alike : s.Alike s') (sorted : s.walk.sorted = true) (sorted' : s'.walk.sorted = true)
    (p : Path) (depth : Nat) : s.walk.openStream p depth = s'.walk.openStream p depth := by
  unfold Walk.openStream
  rcases alike.walked.list p with ⟨e, fails, fails'⟩ | ⟨names, names', reads, reads', perm⟩
  · rw [fails, fails']
    rfl
  · have order : s.walk.ordered names = s'.walk.ordered names' := by
      rw [Walk.ordered_eq_of_perm sorted perm]
      simp only [Walk.ordered, sorted, sorted']
    rw [reads, reads']
    simp only [bind, Except.bind, order]

theorem pullFrom (alike : s.Alike s') (p : Path) (depth : Nat) (names : List Name) :
    s.walk.pullFrom p depth names = s'.walk.pullFrom p depth names := by
  induction names with
  | nil => rfl
  | cons n names ih => simp only [Walk.pullFrom, alike.visit, ih]

theorem pull (alike : s.Alike s') (streams : List Stream) : s.walk.pull streams = s'.walk.pull streams := by
  induction streams with
  | nil => rfl
  | cons st outer ih => simp only [Walk.pull, alike.pullFrom, ih]

theorem next (alike : s.Alike s') (opens : ∀ p depth, s.walk.openStream p depth = s'.walk.openStream p depth)
    (c : Cursor) : s.walk.next c = s'.walk.next c := by
  simp only [Walk.next, Walk.enterRoot, Walk.resume, Walk.descendIfFollowed, Walk.descend, alike.walked.lstat,
    alike.root, alike.pull, opens]

theorem decideWaiting (alike : s.Alike s') (c : Scanner) : s.decideWaiting c = s'.decideWaiting c := by
  simp only [Scan.decideWaiting, Gate.pass, alike.judge]

theorem handle (alike : s.Alike s') (c : Scanner) (e : Entry) : s.handle c e = s'.handle c e := by
  simp only [Scan.handle, alike.revisits, alike.report, alike.walked.resolveNotices]

theorem run (alike : s.Alike s') (opens : ∀ p depth, s.walk.openStream p depth = s'.walk.openStream p depth)
    (steps : Nat) (c : Scanner) : s.run steps c = s'.run steps c := by
  have stepped (c : Scanner) : s.step c = s'.step c := by
    simp only [Scan.step, alike.decideWaiting, alike.next opens, alike.handle, alike.root]
  induction steps generalizing c with
  | zero => rfl
  | succ steps ih => simp only [Scan.run, stepped, ih]

/-! ## With siblings in read order -/

theorem verdict (alike : s.Alike s') (stop : Stop) : s.verdict stop = s'.verdict stop := by
  simp only [Scan.verdict, alike.judge, alike.walked.resolveLink]

theorem told (alike : s.Alike s') (stop : Stop) : s.told stop = s'.told stop := by
  simp only [Scan.told, alike.revisits, alike.report, alike.verdict]

/-- The same directories are open, with their names in some order. -/
def SameOpened (opened opened' : List Opened) : Prop :=
  opened = opened' ∨ ∃ p depth names names' active, opened = [⟨⟨p, depth, names⟩, active⟩] ∧
    opened' = [⟨⟨p, depth, names'⟩, active⟩] ∧ names.Perm names'

theorem openedAt (alike : s.Alike s') (e : Entry) (active : List Redirection) :
    SameOpened (s.openedAt e active) (s'.openedAt e active) := by
  unfold Scan.openedAt Walk.openStream
  rcases alike.walked.list e.path with ⟨why, fails, fails'⟩ | ⟨names, names', reads, reads', perm⟩
  · rw [fails, fails']
    exact .inl rfl
  · rw [reads, reads']
    exact .inr ⟨e.path, e.depth + 1, s.walk.ordered names, s'.walk.ordered names', active, rfl, rfl,
      (ordered_perm ..).trans (perm.trans (ordered_perm ..).symm)⟩

theorem onward (alike : s.Alike s') {stop : Stop} {opened : List Opened} (goes : s.onward stop = .ok opened) :
    ∃ opened', s'.onward stop = .ok opened' ∧ SameOpened opened opened' := by
  by_cases reports : s.Reports stop
  · have reports' : s'.Reports stop := (alike.revisits _ _).symm.trans reports
    cases kind : stop.entry.kind with
    | regularFile =>
      rw [onward_of_regularFile reports kind] at goes
      cases goes
      exact ⟨[], onward_of_regularFile reports' kind, .inl rfl⟩
    | directory =>
      rw [onward_of_directory reports kind] at goes
      cases goes
      exact ⟨_, onward_of_directory reports' kind, alike.openedAt ..⟩
    | symbolicLink =>
      rw [onward_of_link reports kind, alike.verdict] at goes
      rw [onward_of_link reports' kind]
      cases verdict : s'.verdict stop with
      | unreadable target why => simp [verdict] at goes
      | enter target =>
        simp only [verdict] at goes
        cases goes
        exact ⟨_, rfl, alike.openedAt ..⟩
      | absent | outside target | alreadyScanned target | encloses target | notDirectory target =>
        simp only [verdict] at goes
        cases goes
        exact ⟨[], rfl, .inl rfl⟩
  · have unreported : ¬ s'.Reports stop := fun reports' => reports ((alike.revisits _ _).trans reports')
    rw [(onward_of_unreported reports).2] at goes
    cases goes
    exact ⟨[], (onward_of_unreported unreported).2, .inl rfl⟩

end Alike

namespace Tour

variable {s s' : Scan} {p : Path} {depth : Nat} {n : Name} {names names' : List Name} {active : List Redirection}
  {opened opened' : List Opened} {stops : List Stop}

/-- The tour of a directory is that of its first child and that of the others. -/
theorem cons_iff :
    s.Tour [⟨⟨p, depth, n :: names⟩, active⟩] stops ↔
      ∃ first later, stops = first ++ later ∧ s.Tour [⟨⟨p, depth, [n]⟩, active⟩] first ∧
        s.Tour [⟨⟨p, depth, names⟩, active⟩] later := by
  constructor
  · intro tour
    cases tour with
    | past passed rest => exact ⟨[], stops, rfl, .past passed (.up .done), rest⟩
    | @stop _ _ _ _ _ _ _ below stops e handed goes inside rest =>
      refine ⟨⟨e, active⟩ :: (below ++ []), stops, by simp, .stop handed goes inside (.up .done), rest⟩
  · rintro ⟨first, later, rfl, here, rest⟩
    cases here with
    | past passed here =>
      cases here with | up here => cases here with | done => exact .past passed rest
    | stop handed goes inside here =>
      cases here with
      | up here =>
        cases here with
        | done =>
          rw [List.append_nil, List.cons_append]
          exact .stop handed goes inside rest

/-- Where children come in another order, their tours do. -/
theorem of_perm (perm : names.Perm names') (tour : s.Tour [⟨⟨p, depth, names⟩, active⟩] stops) :
    ∃ stops', s.Tour [⟨⟨p, depth, names'⟩, active⟩] stops' ∧ stops.Perm stops' := by
  induction perm generalizing stops with
  | nil => exact ⟨stops, tour, .refl _⟩
  | cons n _ ih =>
    obtain ⟨first, later, rfl, here, rest⟩ := cons_iff.1 tour
    obtain ⟨later', rest', same⟩ := ih rest
    exact ⟨first ++ later', cons_iff.2 ⟨first, later', rfl, here, rest'⟩, same.append_left first⟩
  | swap m n names =>
    -- What is in force in the directory does not change from child to child, so two tours may trade places.
    obtain ⟨first, later, rfl, here, rest⟩ := cons_iff.1 tour
    obtain ⟨second, later, rfl, there, rest⟩ := cons_iff.1 rest
    refine ⟨second ++ (first ++ later), cons_iff.2 ⟨_, _, rfl, there, cons_iff.2 ⟨_, _, rfl, here, rest⟩⟩, ?_⟩
    rw [← List.append_assoc, ← List.append_assoc]
    exact (List.perm_append_comm).append_right later
  | trans _ _ ih ih' =>
    obtain ⟨stops', tour', same⟩ := ih tour
    obtain ⟨stops'', tour'', same'⟩ := ih' tour'
    exact ⟨stops'', tour'', same.trans same'⟩

theorem of_sameOpened (same : Alike.SameOpened opened opened') (tour : s.Tour opened stops) :
    ∃ stops', s.Tour opened' stops' ∧ stops.Perm stops' := by
  rcases same with rfl | ⟨p, depth, names, names', active, rfl, rfl, perm⟩
  · exact ⟨stops, tour, .refl _⟩
  · exact tour.of_perm perm

/-- A tour of the one is, in another order, a tour of the other. -/
theorem of_alike (alike : s.Alike s') (tour : s.Tour opened stops) :
    ∃ stops', s'.Tour opened stops' ∧ stops.Perm stops' := by
  induction tour with
  | done => exact ⟨[], .done, .refl _⟩
  | up _ ih =>
    obtain ⟨stops', rest, same⟩ := ih
    exact ⟨stops', .up rest, same⟩
  | past passed _ ih =>
    obtain ⟨stops', rest, same⟩ := ih
    rw [alike.visit] at passed
    exact ⟨stops', .past passed rest, same⟩
  | @stop _ _ _ _ active _ _ below stops e handed goes _ _ ihInside ih =>
    obtain ⟨stops', rest, same⟩ := ih
    obtain ⟨middle, inside, sameInside⟩ := ihInside
    rw [alike.visit] at handed
    obtain ⟨opened', goes', sameOpened⟩ := alike.onward goes
    obtain ⟨below', inside', sameBelow⟩ := inside.of_sameOpened sameOpened
    exact ⟨⟨e, active⟩ :: (below' ++ stops'), .stop handed goes' inside' rest,
      ((sameInside.trans sameBelow).append same).cons _⟩

end Tour

namespace Alike

variable {s s' : Scan}

theorem enterRoot (alike : s.Alike s') {e : Entry} {streams : List Stream}
    (enters : s.walk.enterRoot = .ok (e, streams)) : ∃ streams', s'.walk.enterRoot = .ok (e, streams') := by
  obtain ⟨node, kind, asked, known, rfl, ways⟩ := Walk.enterRoot_eq_ok enters
  rw [alike.root, alike.walked.lstat] at asked
  by_cases directory : kind = .directory
  · rcases ways with ⟨_, st, opens, rfl⟩ | ⟨other, _⟩
    · obtain ⟨listed, reads, rfl⟩ := Walk.openStream_eq_ok_iff.1 opens
      rw [alike.root] at reads
      rcases alike.walked.list s'.walk.root with ⟨why, fails, _⟩ | ⟨_, names', _, reads', _⟩
      · rw [fails] at reads
        cases reads
      · have opens' : s'.walk.openStream s'.walk.root 1 = .ok ⟨s'.walk.root, 1, s'.walk.ordered names'⟩ :=
          Walk.openStream_eq_ok_iff.2 ⟨names', reads', rfl⟩
        exact ⟨[⟨s'.walk.root, 1, s'.walk.ordered names'⟩],
          by simp only [Walk.enterRoot, asked, known, directory, if_true, opens', alike.root]⟩
    · exact absurd directory other
  · exact ⟨[], by simp only [Walk.enterRoot, asked, known, if_neg directory, alike.root]⟩

/-- If one scan completes, the other does and makes known the same in another order. -/
theorem perm_of_complete (alike : s.Alike s') (completes : s.trace.ending = .complete) :
    s'.trace.ending = .complete ∧ s.trace.events.Perm s'.trace.events := by
  obtain ⟨stops, ⟨e, streams, opened, more, enters, goes, tour, rfl⟩, short, events⟩ := exists_course completes
  obtain ⟨streams', enters'⟩ := alike.enterRoot enters
  obtain ⟨opened', goes', sameOpened⟩ := alike.onward goes
  obtain ⟨middle, inside, same⟩ := tour.of_alike alike
  obtain ⟨more', tour', same'⟩ := inside.of_sameOpened sameOpened
  have perm : (⟨e, []⟩ :: more : List Stop).Perm (⟨e, []⟩ :: more') := (same.trans same').cons _
  rw [perm.length_eq, alike.stepBound] at short
  obtain ⟨completes', events'⟩ := trace_of_course ⟨e, streams', opened', more', enters', goes', tour', rfl⟩ short
  refine ⟨completes', ?_⟩
  rw [events, events', show s.told = s'.told from funext alike.told]
  exact perm.flatMap_right _

end Alike

/-- Two file systems that differ only in the order of siblings have the same scan
    with siblings by name. With siblings in read order, if one scan completes then
    so does the other, and what is recorded and entered is the same up to order, and
    the same as with siblings by name. -/
theorem sibling_order {fs fs' : FileSystem} (same : fs.Reordered fs') (root : Path) (localRoot : Option Path)
    (excludes : Path → Bool → Bool) :
    let scan (fs : FileSystem) (sorted : Bool) := (ofOptions fs root ⟨localRoot, sorted, excludes⟩).trace
    scan fs true = scan fs' true ∧
      ((scan fs false).ending = .complete →
        ((scan fs' false).ending = .complete ∧ (scan fs true).ending = .complete) ∧
          ((scan fs false).records.Perm (scan fs' false).records ∧
            (scan fs false).records.Perm (scan fs true).records ∧
            (scan fs' false).records.Perm (scan fs true).records) ∧
          (scan fs false).events.Perm (scan fs' false).events ∧
          (scan fs false).events.Perm (scan fs true).events) := by
  intro scan
  have byName := Alike.ofOptions same root localRoot true true excludes
  have inOrder := Alike.ofOptions same root localRoot false false excludes
  have sorting := Alike.ofOptions (.refl fs) root localRoot false true excludes
  refine ⟨?_, fun completes => ?_⟩
  · have whole := byName.run (byName.openStream rfl rfl) (ofOptions fs root ⟨localRoot, true, excludes⟩).stepBound begin
    simp only [scan, trace]
    rw [whole, byName.stepBound]
  · obtain ⟨completes', reordered⟩ := inOrder.perm_of_complete completes
    obtain ⟨completes'', sorted⟩ := sorting.perm_of_complete completes
    simp only [Trace.records_eq]
    exact ⟨⟨completes', completes''⟩, ⟨reordered.filterMap _, sorted.filterMap _,
      (reordered.symm.trans sorted).filterMap _⟩, reordered, sorted⟩

end Scan

/-- The same nodes as in `linkedTree`, made in another order. -/
def FileSystem.relinkedTree : FileSystem :=
  let node (path : String) (content : Content) : NodeSpec := ⟨.ofText path.toList, content, none, ⟨0, 0, 0⟩, []⟩
  .ofSpecs [node "/m/h" (.regular []), node "/l/back" (.link "/s".toList), node "/l/on" (.link "../m".toList),
    node "/l/g" (.regular []), node "/s/k" (.link "/l".toList), node "/s/f" (.regular [])] ⟨.slash, []⟩

namespace Scan

theorem sibling_order_relinkedTree :
    let scan (fs : FileSystem) :=
      (ofOptions fs (.ofText "/s".toList) ⟨some ⟨.slash, []⟩, false, fun _ _ => false⟩).trace
    FileSystem.linkedTree.Reordered .relinkedTree ∧
      ((scan .relinkedTree).records.map fun r => r.path.text) = ["/s".toList, "/s/k".toList, "/s/k/back".toList,
        "/s/k/on".toList, "/s/k/on/h".toList, "/s/k/g".toList, "/s/f".toList] ∧
      (scan .linkedTree).records.Perm (scan .relinkedTree).records := by
  have same : FileSystem.linkedTree.Reordered .relinkedTree := .of_perm (by decide +kernel) (by decide +kernel)
  refine ⟨same, by decide +kernel, ?_⟩
  obtain ⟨_, complete⟩ := sibling_order same (.ofText "/s".toList) (some ⟨.slash, []⟩) fun _ _ => false
  exact (complete (by decide +kernel)).2.1.1

end Scan
end Inventory
