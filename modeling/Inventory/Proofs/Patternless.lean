import Inventory.Proofs.Aftermath
import Inventory.Proofs.Ledger

namespace Inventory

/-- A node of a kind that is reported, in the directory that a walk starts from. -/
structure FileSystem.Meets (fs : FileSystem) (root p : Path) : Prop where
  directory : ∃ top, fs.lstat root = .ok top ∧ top.isDirectory = true
  child : ∃ names n, fs.list root = .ok names ∧ n ∈ names ∧ p = root.child n
  known : ∃ node kind, fs.lstat p = .ok node ∧ node.kind? = some kind

/-- A walk that excludes all passes over each name, as excluded just if it stands for a
    node of a kind that is reported. -/
theorem Walk.visit_of_excludes {w : Walk} (cuts : ∀ p directory, w.excludes p directory = true) {directory : Path}
    (below : directory.Under w.root) (depth : Nat) (n : Name) :
    ∃ why, w.visit directory depth n = .passedOver why ∧ ∀ p, why = .excluded p ↔
      p = directory.child n ∧ ∃ node kind, w.system.lstat p = .ok node ∧ node.kind? = some kind := by
  obtain ⟨rest, relative⟩ := Option.isSome_iff_exists.1
    ((Path.relativeTo?_isSome _ _).2 ((Path.child_under directory n).trans below))
  cases asked : w.system.lstat (directory.child n) with
  | error why =>
    refine ⟨.unreadable (directory.child n), by simp [visit, asked], fun p => iff_of_false (by simp) ?_⟩
    rintro ⟨rfl, node, _, asked', _⟩
    cases asked.symm.trans asked'
  | ok node =>
    cases known : node.kind? with
    | none =>
      refine ⟨.unsupported (directory.child n), by simp [visit, asked, known], fun p => iff_of_false (by simp) ?_⟩
      rintro ⟨rfl, node', kind, asked', known'⟩
      cases asked.symm.trans asked'
      cases known.symm.trans known'
    | some kind =>
      refine ⟨.excluded (directory.child n), by simp [visit, asked, known, relative, cuts], fun p => ?_⟩
      constructor
      · intro same
        cases same
        exact ⟨rfl, node, kind, asked, known⟩
      · rintro ⟨rfl, _⟩
        rfl

theorem Walk.pullFrom_of_excludes {w : Walk} (cuts : ∀ p directory, w.excludes p directory = true) {directory : Path}
    (below : directory.Under w.root) (depth : Nat) (names : List Name) :
    (w.pullFrom directory depth names).2 = .ok none ∧
      ∀ p, .excluded p ∈ (w.pullFrom directory depth names).1 ↔
        (∃ n ∈ names, p = directory.child n) ∧ ∃ node kind, w.system.lstat p = .ok node ∧ node.kind? = some kind := by
  induction names with
  | nil => simp [pullFrom]
  | cons n rest ih =>
    obtain ⟨ends, later⟩ := ih
    obtain ⟨why, passed, means⟩ := visit_of_excludes cuts below depth n
    simp only [pullFrom, passed]
    refine ⟨ends, fun p => ?_⟩
    rw [List.mem_cons, later p, eq_comm, means p, ← or_and_right]
    simp

/-- A walk that excludes all passes over all names of its directory, and has no entry there. -/
theorem Walk.pull_of_excludes {w : Walk} (cuts : ∀ p directory, w.excludes p directory = true) {directory : Path}
    (below : directory.Under w.root) (depth : Nat) (names : List Name) :
    w.pull [⟨directory, depth, names⟩] = ((w.pullFrom directory depth names).1, .ok none) := by
  have ends := (pullFrom_of_excludes cuts below depth names).1
  rw [pull, pull, ← Prod.eta (w.pullFrom directory depth names), ends]
  simp

/-- A walk that cannot start has met nothing. -/
theorem Walk.not_meets_of_enterRoot {w : Walk} {f : Failure} (fails : w.enterRoot = .error f) (p : Path) :
    ¬ w.system.Meets w.root p := by
  rintro ⟨⟨top, asked, directory⟩, ⟨names, _, reads, _⟩, _⟩
  have known := (Node.kind?_eq_directory top).2 directory
  simp [enterRoot, openStream, asked, known, reads, bind, Except.bind] at fails

/-- The gate has nothing to do with what is excluded. -/
theorem Gate.excluded_notMem_pass (g : Gate) (c : Cursor) (stack : RedirectionStack) (e : Entry) (r : LinkResolution)
    (p : Path) : .excluded p ∉ (g.pass c stack e r).notices := by
  unfold pass
  cases g.judge stack e r with
  | enter target =>
    simp only
    split <;> simp [RedirectionStack.pushNotice]
  | _ => simp [Verdict.notices]

namespace Scan

variable {s : Scan}

/-- A root that is a link leads to the canonical root, and is not entered. -/
theorem entrance_rootPlace (absolute : s.walk.root.isAbsolute = true) :
    s.entrance (s.rootPlace absolute) = .ok none := by
  rw [entrance, target?_eq]
  cases resolved : (s.walk.system.resolveLink (s.rootPlace absolute).path).target with
  | none => rfl
  | some target =>
    obtain ⟨form, _⟩ := FileSystem.resolveLink_target resolved
    obtain ⟨t, rfl, _, settles, _⟩ := FileSystem.strictForm_firm (p := s.walk.root) absolute form
    have scanned : (Path.ofLocation t).Under (s.walk.system.canonical s.walk.root) := by
      rw [FileSystem.canonical_of_settles settles]
      exact Path.under_refl _
    exact if_neg fun may => may.2.1 scanned

/-- The scanner that has just reported the root. -/
def onRoot (s : Scan) (e : Entry) (streams : List Stream) : Scanner :=
  ⟨{ begin.cursor with streams, position := .onRoot e }, .empty, 1, (Scanner.report s.walk.system .empty e).2⟩

/-- A scan that can open its root reports it, and goes on from there. -/
theorem items_of_enterRoot (absolute : s.walk.root.isAbsolute = true) {e : Entry} {streams : List Stream}
    (enters : s.walk.enterRoot = .ok (e, streams)) :
    ∃ (steps : Nat) (said : List Notice) (r : Record), (∀ p, .excluded p ∉ said) ∧
      s.trace.items = said.map .notice ++ .record r :: (s.run (steps + 1) (s.onRoot e streams)).items := by
  obtain ⟨steps, bound⟩ : ∃ steps, s.stepBound = steps + 2 :=
    ⟨s.stepBound - 2, by have := weight_root_le (s := s) absolute 0 []; omega⟩
  let resolving := if e.kind = .symbolicLink then s.walk.system.resolveNotices e.path else []
  have first : s.step begin =
      ⟨resolving.map .notice ++ [.record (Scanner.report s.walk.system .empty e).1], .inl (s.onRoot e streams)⟩ := by
    rw [step_begin_ok enters]
    rfl
  refine ⟨steps, resolving, (Scanner.report s.walk.system .empty e).1, fun p => ?_, ?_⟩
  · simp only [resolving, FileSystem.resolveNotices]
    split
    · split <;> simp
    · simp
  · rw [trace, bound, run_succ, first]
    simp [goOn, Trace.after]

/-- What is left to be done about the root opens nothing and excludes nothing. -/
theorem attend_onRoot (absolute : s.walk.root.isAbsolute = true) {e : Entry} (path : e.path = s.walk.root)
    (streams : List Stream) :
    ∃ said c, s.attend (s.onRoot e streams) = (said, .ok c) ∧ c.cursor.streams = streams ∧ ∀ p, .excluded p ∉ said := by
  have resumed : s.walk.resume (s.onRoot e streams).cursor = ([], (s.onRoot e streams).cursor) := rfl
  by_cases kind : e.kind = .symbolicLink
  · have bears : (s.rootPlace absolute).Bears RedirectionStack.empty.items := bears_rootPlace absolute
    have decision := pass_eq (s := s) (s.onRoot e streams).cursor path kind bears
    rw [entrance_rootPlace absolute] at decision
    obtain ⟨_, cursor, stack, passes⟩ := decision
    have waiting : (s.onRoot e streams).waiting = some (e, s.walk.system.resolveLink e.path) := by
      simp [onRoot, Scanner.report, kind]
    have unredirected : (s.onRoot e streams).stack = .empty := rfl
    refine ⟨(s.gate.pass (s.onRoot e streams).cursor .empty e (s.walk.system.resolveLink e.path)).notices,
      { s.onRoot e streams with waiting := none }, ?_, rfl, Gate.excluded_notMem_pass _ _ _ _ _⟩
    simp [attend, decideWaiting, waiting, unredirected, cursor, stack, passes, resumed]
  · have decided : s.decideWaiting (s.onRoot e streams) = ([], .ok (s.onRoot e streams)) := by
      simp [decideWaiting, onRoot, Scanner.report, kind]
    refine ⟨[], s.onRoot e streams, ?_, rfl, by simp⟩
    simp [attend, decided, resumed]

/-- A scan that has no further entry says what it passed over, and ends. -/
theorem items_of_drained {c c' : Scanner} {e : Entry} (visiting : Visiting c e) {said passed : List Notice}
    (attended : s.attend c = (said, .ok c')) (drained : s.walk.pull c'.cursor.streams = (passed, .ok none))
    (steps : Nat) :
    (s.run (steps + 1) c).items = (said ++ passed ++ [Notice.scanned c'.count s.walk.root]).map .notice := by
  rw [run_eq visiting, attended]
  simp [proceed, drained, goOn, Trace.after]

/-- If nothing but the root is an entry, what is excluded was passed over. -/
theorem excluded_mem_items_of_drained (absolute : s.walk.root.isAbsolute = true) {e : Entry} {streams : List Stream}
    (path : e.path = s.walk.root) (enters : s.walk.enterRoot = .ok (e, streams)) {passed : List Notice}
    (drained : s.walk.pull streams = (passed, .ok none)) {p : Path} :
    .notice (.excluded p) ∈ s.trace.items ↔ .excluded p ∈ passed := by
  obtain ⟨steps, resolving, r, quiet, whole⟩ := items_of_enterRoot absolute enters
  obtain ⟨said, c, attended, left, silent⟩ := attend_onRoot absolute path streams
  rw [whole, items_of_drained (.inl rfl) attended (left ▸ drained)]
  simp [quiet p, silent p]

/-- A scan that excludes all comes upon the nodes in the directory that it starts from, and
    upon no others. -/
theorem excluded_mem_items_iff {fs : FileSystem} {root : Path} {localRoot : Option Path} {sorted : Bool}
    (absolute : root.isAbsolute = true) {p : Path} :
    .notice (.excluded p) ∈ (ofOptions fs root ⟨localRoot, sorted, fun _ _ => true⟩).trace.items ↔
      fs.Meets root p := by
  let s := ofOptions fs root ⟨localRoot, sorted, fun _ _ => true⟩
  show .notice (.excluded p) ∈ s.trace.items ↔ _
  cases enters : s.walk.enterRoot with
  | error f =>
    obtain ⟨steps, whole⟩ := trace_eq_goOn s
    rw [whole, step_begin_error enters]
    exact iff_of_false (by simp [goOn]) (Walk.not_meets_of_enterRoot enters p)
  | ok entered =>
    obtain ⟨e, streams⟩ := entered
    obtain ⟨node, kind, asked, known, rfl, ⟨rfl, st, opened, rfl⟩ | ⟨other, rfl⟩⟩ := Walk.enterRoot_eq_ok enters
    · obtain ⟨names, reads, rfl⟩ := Walk.openStream_eq_ok_iff.1 opened
      have cuts : ∀ p directory, s.walk.excludes p directory = true := fun _ _ => rfl
      have below : root.Under s.walk.root := Path.under_refl root
      have passed := (Walk.pullFrom_of_excludes cuts below 1 (s.walk.ordered names)).2
      have drained := Walk.pull_of_excludes cuts below 1 (s.walk.ordered names)
      rw [excluded_mem_items_of_drained absolute rfl enters drained, passed p]
      constructor
      · rintro ⟨⟨n, among, same⟩, known'⟩
        have listed : n ∈ names := (ordered_perm s.walk names).mem_iff.1 among
        exact ⟨⟨node, asked, (Node.kind?_eq_directory node).1 known⟩, ⟨names, n, reads, listed, same⟩, known'⟩
      · rintro ⟨_, ⟨names', n, reads', listed, same⟩, known'⟩
        cases reads.symm.trans reads'
        exact ⟨⟨n, (ordered_perm s.walk names).mem_iff.2 listed, same⟩, known'⟩
    · rw [excluded_mem_items_of_drained absolute rfl enters rfl]
      refine iff_of_false (by simp) ?_
      rintro ⟨⟨top, asked', directory⟩, _⟩
      cases asked.symm.trans asked'
      exact other (Option.some.inj (known.symm.trans ((Node.kind?_eq_directory node).2 directory)))

theorem ending_ne_missingWord (absolute : s.walk.root.isAbsolute = true) :
    s.trace.ending ≠ .failed .missingWord := by
  rcases ending_cases absolute with ⟨_, _, ending⟩ | ending | ⟨_, _, _, _, ending, _⟩ <;> simp [ending]

end Scan

namespace Request

variable {fs : FileSystem} {r : Request}

theorem mapM_id_eq_none_iff {patterns : List (Option Text)} : patterns.mapM id = none ↔ none ∈ patterns := by
  induction patterns with
  | nil => simp
  | cons pattern rest ih =>
    rw [List.mapM_cons, List.mem_cons, ← ih]
    cases pattern with
    | none => simp
    | some t => cases rest.mapM id <;> simp

/-- The patterns with a text that stand before the first without one. -/
def patternsBefore (r : Request) : List Text := (r.patterns.takeWhile Option.isSome).filterMap id

/-- A scan fails for a pattern without a text just if there is one, and it comes upon a
    node that no pattern before covers. -/
theorem ending_eq_missingWord_iff {localRoot root : Path} {rules : Option IgnoreRules}
    (absolute : root.isAbsolute = true) : (r.trace fs localRoot root rules).ending = .failed .missingWord ↔
      none ∈ r.patterns ∧
        ∃ p, fs.Meets root p ∧ Exclusion.coversName (r.patternsBefore.map Wildcard.ofText) p = false := by
  cases given : r.patterns.mapM id with
  | some patterns =>
    have named : none ∉ r.patterns := by simp [← mapM_id_eq_none_iff, given]
    simp only [Request.trace, given, named, false_and, iff_false]
    exact Scan.ending_ne_missingWord absolute
  | none =>
    have unnamed := mapM_id_eq_none_iff.1 given
    let s := Scan.ofOptions fs root ⟨some localRoot, r.sorted, fun _ _ => true⟩
    let unanswered (p : Path) := ! Exclusion.coversName (r.patternsBefore.map Wildcard.ofText) p
    have trace : r.trace fs localRoot root rules = s.trace.failingAt unanswered .missingWord := by
      simp only [Request.trace, given]
      rfl
    have met : s.trace.items.any (Trace.Unanswered unanswered) = true ↔
        ∃ p, fs.Meets root p ∧ Exclusion.coversName (r.patternsBefore.map Wildcard.ofText) p = false := by
      rw [List.any_eq_true]
      constructor
      · rintro ⟨item, among, holds⟩
        unfold Trace.Unanswered at holds
        split at holds
        · rename_i p
          exact ⟨p, (Scan.excluded_mem_items_iff absolute).1 among, by simpa [unanswered] using holds⟩
        · cases holds
      · rintro ⟨p, meets, uncovered⟩
        exact ⟨_, (Scan.excluded_mem_items_iff absolute).2 meets, by simp [Trace.Unanswered, unanswered, uncovered]⟩
    rw [trace, ← met, and_iff_right unnamed]
    unfold Trace.failingAt
    split
    · rename_i halts
      simp [halts]
    · rename_i goesOn
      simp [goesOn, Scan.ending_ne_missingWord (s := s) absolute]

end Request
end Inventory
