import Inventory.Proofs.Course
import Inventory.Proofs.Grounding

/-!
The links above a walked path lead to directories of which none is at or below one that a
later link leads to, so each is entered once at most on the path. A scan comes to its
end: below an open directory the nodes lie deeper, or fewer directories are left to be
entered (`Scan.room_lt`). None of this counts the links that the system replaces.
-/
namespace Inventory

/-- The directories that lie inside the first path and not inside the second. -/
def FileSystem.directoriesBetween (fs : FileSystem) (inside outside : Path) : List Location :=
  Table.locations (fs.table.filter fun e =>
    e.2.isDirectory ∧ (Path.ofLocation e.1).Under inside ∧ ¬ (Path.ofLocation e.1).Under outside)

theorem FileSystem.mem_directoriesBetween_iff {fs : FileSystem} {inside outside : Path} {l : Location} :
    l ∈ fs.directoriesBetween inside outside ↔
      (∃ node, fs.node? l = some node ∧ node.isDirectory = true) ∧ (Path.ofLocation l).Under inside ∧
        ¬ (Path.ofLocation l).Under outside := by
  simp only [directoriesBetween, Table.locations, List.mem_map, List.mem_filter, decide_eq_true_iff, node?_eq_some_iff]
  constructor
  · rintro ⟨⟨l, node⟩, ⟨here, directory, between⟩, rfl⟩
    exact ⟨⟨node, here, directory⟩, between⟩
  · rintro ⟨⟨node, here, directory⟩, between⟩
    exact ⟨⟨l, node⟩, ⟨here, directory, between⟩, rfl⟩

namespace Scan

variable {s : Scan}

/-- The root is absolute, or else the working directory is told by its location. -/
def Anchored (s : Scan) : Prop := s.walk.root.isAbsolute = true ∨ s.walk.system.Physical

/-- A link below the root leads to a location that can be walked to. -/
theorem target_grounded (anchored : s.Anchored) {p target : Path} {node : Node} (under : p.Under s.walk.root)
    (asked : s.walk.system.lstat p = .ok node) (leads : (s.walk.system.resolveLink p).target = some target) :
    ∃ l, target = .ofLocation l ∧ s.walk.system.Firm l := by
  have same : p.isAbsolute = s.walk.root.isAbsolute := by simp [Path.isAbsolute, under.1]
  refine FileSystem.strictForm_grounded ?_ asked (FileSystem.resolveLink_target leads).1
  rw [same]
  exact anchored

/-- An entered link leads to the path of a directory between the roots. -/
theorem Entered.destination {r : Redirection} (anchored : s.Anchored) (entered : s.Entered r) :
    ∃ l ∈ s.walk.system.directoriesBetween (s.walk.system.canonical s.localRoot) (s.walk.system.canonical s.walk.root),
      r.destination = .ofLocation l := by
  obtain ⟨node, asked, _⟩ := entered.link
  obtain ⟨l, leads, firm⟩ := target_grounded anchored entered.below asked entered.leads
  obtain ⟨directory, stated, isDirectory⟩ := entered.directory
  rw [leads, FileSystem.stat_eq_ok_iff] at stated
  obtain ⟨l', followed, there⟩ := stated
  rw [FileSystem.locate_followed_ofLocation firm] at followed
  cases followed
  refine ⟨l, FileSystem.mem_directoriesBetween_iff.2 ⟨⟨directory, ?_, isDirectory⟩, ?_, ?_⟩, leads⟩
  · exact (FileSystem.nodeFor_eq_ok_iff.1 there).1
  · exact leads ▸ entered.inside
  · exact leads ▸ entered.outside

/-- Of redirections that surround each other, no two have one destination. -/
theorem nodup_destinations {entered : List Redirection} (chain : entered.Pairwise Redirection.Surrounds) :
    (entered.map Redirection.destination).Nodup := by
  refine List.pairwise_map.2 (chain.imp fun surrounds same => ?_)
  exact surrounds.apart (same ▸ Path.under_refl _)

/-- On a walked path no more links are entered than there are directories between the roots. -/
theorem length_entered_le (anchored : s.Anchored) {entered : List Redirection}
    (chain : entered.Pairwise Redirection.Surrounds)
    (history : ∀ r ∈ entered, s.Entered r) :
    let fs := s.walk.system
    entered.length ≤ (fs.directoriesBetween (fs.canonical s.localRoot) (fs.canonical s.walk.root)).length := by
  intro fs
  have covered : entered.map Redirection.destination ⊆
      (fs.directoriesBetween (fs.canonical s.localRoot) (fs.canonical s.walk.root)).map Path.ofLocation := by
    intro destination among
    obtain ⟨r, inside, rfl⟩ := List.mem_map.1 among
    obtain ⟨l, between, leads⟩ := (history r inside).destination anchored
    exact List.mem_map.2 ⟨l, between, leads.symm⟩
  simpa using ((nodup_destinations chain).subperm covered).length_le

/-- How far it can still go below an open directory: so many locations were not
    entered yet, and below each the location gets no longer than there are nodes. -/
def room (s : Scan) (d : Opened) : Nat :=
  let fs := s.walk.system
  (fs.unentered (d.active.map Redirection.destination)).length * (fs.table.length + 1) +
    (fs.table.length - fs.depthOf d.stream.path)

/-- What one name of an open directory may cost. -/
def price (s : Scan) (d : Opened) : Nat := (s.walk.system.table.length + 1) ^ s.room d

/-- What all names that are left may cost. -/
def load (s : Scan) : List Opened → Nat
  | [] => 0
  | d :: outer => d.stream.pending.length * s.price d + s.load outer

theorem price_pos (d : Opened) : 0 < s.price d := Nat.pow_pos (Nat.succ_pos _)

theorem load_append (inner outer : List Opened) : s.load (inner ++ outer) = s.load inner + s.load outer := by
  induction inner with
  | nil => simp [load]
  | cons d inner ih => simp [load, ih, Nat.add_assoc]

/-- What is opened at a child has less room. -/
theorem room_lt (anchored : s.Anchored) {d d' : Opened} {n : Name} {e : Entry} {opened : List Opened}
    (handed : s.walk.visit d.stream.path d.stream.depth n = .entry e) (under : e.path.Under s.walk.root)
    (goes : s.onward ⟨e, d.active⟩ = .ok opened) (inside : d' ∈ opened) : s.room d' < s.room d := by
  obtain ⟨node, kind, _, asked, known, _, _, rfl⟩ := Walk.visit_eq_entry handed
  rcases onward_cases goes with rfl | ⟨st, active, rfl, opens, ⟨directory, rfl⟩ | ⟨target, verdict, rfl⟩⟩
  · cases inside
  · -- A directory lies one name deeper, with the same links above it.
    obtain rfl := List.mem_singleton.1 inside
    have isDirectory : node.isDirectory = true := (Node.kind?_eq_directory node).1 (directory ▸ known)
    obtain ⟨deeper, short⟩ := FileSystem.depthOf_child asked isDirectory
    have path : st.path = d.stream.path.child n := path_of_openStream opens
    simp only [room, path]
    omega
  · -- A link may lead higher up, but to no directory that a link above leads to.
    obtain rfl := List.mem_singleton.1 inside
    obtain ⟨_, leads, _, _, apart, _⟩ := Gate.judge_eq_enter (judge_of_verdict verdict)
    obtain ⟨l, rfl, _, node, found, _⟩ := target_grounded anchored under asked leads
    have fresh : Path.ofLocation l ∉ d.active.map Redirection.destination := fun again => by
      obtain ⟨r, held, same⟩ := List.mem_map.1 again
      exact apart (.inr ⟨r, held, same ▸ Path.under_refl _⟩)
    exact FileSystem.room_lt_of_fresh found fresh _ _

/-- All that is opened at a child costs less than the child. -/
theorem load_onward (anchored : s.Anchored) {d : Opened} {n : Name} {e : Entry} {opened : List Opened}
    (handed : s.walk.visit d.stream.path d.stream.depth n = .entry e) (under : e.path.Under s.walk.root)
    (goes : s.onward ⟨e, d.active⟩ = .ok opened) : s.load opened < s.price d := by
  rcases onward_cases goes with rfl | ⟨st, active, rfl, opens, _⟩
  · exact price_pos d
  · have few := (Walk.pending_of_openStream opens).2
    have lower := room_lt anchored handed under goes List.mem_cons_self
    exact mul_pow_lt_pow few lower

/-- The next entry takes a name of an open directory, and those inside of it are closed. -/
theorem pull_opened {dirs : List Opened} {e : Entry} {streams : List Stream}
    (found : (s.walk.pull (dirs.map Opened.stream)).2 = .ok (some (e, streams))) :
    ∃ d n outer, streams = (d :: outer).map Opened.stream ∧ Among (d :: outer) dirs ∧
      s.walk.visit d.stream.path d.stream.depth n = .entry e ∧ s.load (d :: outer) + s.price d ≤ s.load dirs := by
  obtain ⟨inner, st, outer, skipped, n, rest, same, turn, handed, rfl⟩ := Walk.pull_eq_some found
  obtain ⟨closed, left, rfl, _, same⟩ := List.map_eq_append_iff.1 same
  obtain ⟨d, around, rfl, rfl, rfl⟩ := List.map_eq_cons_iff.1 same
  refine ⟨⟨{ d.stream with pending := rest }, d.active⟩, n, around, rfl, fun x inside => ?_, handed, ?_⟩
  · rcases List.mem_cons.1 inside with rfl | inside
    · exact ⟨d, by simp, rfl, rfl⟩
    · exact ⟨x, by simp [inside], rfl, rfl⟩
  · have price : s.price ⟨{ d.stream with pending := rest }, d.active⟩ = s.price d := rfl
    have names : rest.length + 1 ≤ d.stream.pending.length := by
      rw [turn, List.length_append, List.length_cons]
      omega
    have cost := Nat.mul_le_mul_right (s.price d) names
    rw [Nat.succ_mul] at cost
    simp only [load_append, load, price]
    omega

/-- With as many steps as what is left to be done costs, a run comes to its end. -/
theorem ending_of_handled (anchored : s.Anchored) {steps : Nat} {c : Scanner} {stop : Stop} {outer : List Opened}
    {entered : List Redirection} (handled : s.Handled c stop outer) (inForce : s.InForce stop.entry c entered)
    (holds : ∀ d ∈ outer, d.Holds entered)
    (enough : ∀ opened, s.onward stop = .ok opened → s.load (opened ++ outer) < steps) (some : 0 < steps) :
    (s.run steps c).ending ≠ .unfinished := by
  induction steps generalizing c stop outer entered with
  | zero => cases some
  | succ steps ih =>
    cases goes : s.onward stop with
    | error f =>
      have failed := handled.goesOn
      rw [goes] at failed
      have ends : (s.step c).after = .inr (.failed f) := by simp only [Scan.step, failed]
      rw [(ending_run steps ends).1]
      intro same
      cases same
    | ok opened =>
      have affordable := enough opened goes
      have stepped := handled.step inForce holds goes
      cases found : (s.walk.pull ((opened ++ outer).map Opened.stream)).2 with
      | error f =>
        rw [found] at stepped
        rw [(ending_run steps stepped).1]
        intro same
        cases same
      | ok next =>
        rw [found] at stepped
        cases next with
        | none =>
          rw [(ending_run steps stepped.1).1]
          intro same
          cases same
        | some next =>
          obtain ⟨e, streams⟩ := next
          obtain ⟨d, n, later, rfl, among, taken, cheaper⟩ := pull_opened found
          obtain ⟨c', entered', goes', handled', inForce', holds', _⟩ := stepped d later rfl among
          have positive := price_pos (s := s) d
          rw [(events_run steps goes').1]
          -- The name that was taken pays for all that is opened at the next stop.
          refine ih handled' inForce' holds' (fun opened' onward' => ?_) (by omega)
          have below := load_onward anchored taken inForce'.under onward'
          rw [load_append]
          omega

/-- A scan comes to its end within the steps it is given. -/
theorem ending_ne_unfinished (anchored : s.Anchored) : s.trace.ending ≠ .unfinished := by
  have first := mul_pow_add_two_le_stepBound (s := s) (Nat.zero_le _) (Nat.zero_le _)
  have directory (d : Opened) (few : d.stream.pending.length ≤ s.walk.system.table.length) :
      s.load [d] + 2 ≤ s.stepBound := mul_pow_add_two_le_stepBound few (FileSystem.room_le ..)
  unfold trace
  generalize s.stepBound = steps at first directory ⊢
  cases steps with
  | zero => omega
  | succ steps =>
    cases enters : s.walk.enterRoot with
    | error f =>
      have ends : (s.step begin).after = .inr (.failed f) := by rw [step_begin_error enters]
      rw [(ending_run steps ends).1]
      intro same
      cases same
    | ok root =>
      obtain ⟨e, streams⟩ := root
      obtain ⟨c, goes, handled, inForce, _⟩ := handled_root enters
      rw [(events_run steps goes).1]
      refine ending_of_handled anchored handled inForce (by simp) (fun opened onward => ?_) (by omega)
      rw [List.append_nil]
      rcases onward_cases onward with rfl | ⟨st, active, rfl, opens, _⟩
      · simp only [load]
        omega
      · have fits := directory ⟨st, active⟩ (Walk.pending_of_openStream opens).2
        omega

/-- More steps change nothing where a run has ended. -/
theorem run_of_ended {steps : Nat} {c : Scanner} (ended : (s.run steps c).ending ≠ .unfinished) {more : Nat}
    (enough : steps ≤ more) : s.run more c = s.run steps c := by
  induction steps generalizing c more with
  | zero => exact absurd rfl ended
  | succ steps ih =>
    obtain ⟨more, rfl⟩ := Nat.exists_eq_add_of_le' (Nat.le_trans (Nat.succ_le_succ (Nat.zero_le _)) enough)
    cases goes : (s.step c).after with
    | inr ending => simp only [run, goes]
    | inl c' =>
      rw [(events_run steps goes).1] at ended
      simp only [run, goes, ih ended (Nat.le_of_succ_le_succ enough)]

theorem records_notices (notices : List Notice) : (notices.map Item.notice).filterMap Item.record? = [] := by
  rw [List.filterMap_map]
  exact List.filterMap_eq_nil_iff.2 fun _ _ => rfl

/-- A step reports one record at most. -/
theorem length_records_step (s : Scan) (c : Scanner) : ((s.step c).items.filterMap Item.record?).length ≤ 1 := by
  unfold Scan.step
  simp only
  split
  · rw [records_notices]
    exact Nat.zero_le 1
  · split
    · rw [records_notices]
      exact Nat.zero_le 1
    · rw [List.filterMap_append, records_notices]
      exact Nat.zero_le 1
    · rw [List.filterMap_append, records_notices, List.nil_append]
      unfold Scan.handle
      simp only
      split
      · rw [records_notices]
        exact Nat.zero_le 1
      · rw [records_notices]
        exact Nat.zero_le 1
      · rw [List.filterMap_append, records_notices]
        exact Nat.le_refl 1

theorem length_records_run (s : Scan) (steps : Nat) (c : Scanner) : (s.run steps c).records.length ≤ steps := by
  induction steps generalizing c with
  | zero => exact Nat.le_refl 0
  | succ steps ih =>
    have one := length_records_step s c
    cases goes : (s.step c).after with
    | inr ending =>
      simp only [run, goes, Trace.records]
      omega
    | inl c' =>
      have rest := ih c'
      simp only [run, goes, Trace.records, List.filterMap_append, List.length_append] at rest ⊢
      omega

/-- In each state of a scan the stack holds what was entered at or above some path,
    and at or above any path each redirection surrounds the later ones. -/
theorem chain_of_reaches {c : Scanner} {entered : List Redirection} (reached : s.Reaches c entered) :
    (∃ p, c.stack.toList = entered.filter (·.AppliesTo p)) ∧
      (∀ p, (entered.filter (·.AppliesTo p)).Pairwise Redirection.Surrounds) ∧ ∀ r ∈ entered, s.Entered r := by
  rcases inForce_of_reaches reached with ⟨rfl, rfl⟩ | ⟨e, inForce⟩
  · exact ⟨⟨s.walk.root, rfl⟩, by simp, by simp⟩
  · exact ⟨⟨e.path, inForce.stack⟩, inForce.ledger.chain, inForce.history⟩

/-- The guard holds in each state of a scan: of two redirections on the stack, the
    destination of the lower one is not at or below that of the upper one, so they are
    distinct directories. Where the working directory counts, it is told by its
    location; then no more links are entered on a walked path than there are
    directories inside the local root and not inside the search root, and the scan
    comes to its end, whatever the links are like. -/
theorem cycle_guard (fs : FileSystem) (root : Path) (options : ScanOptions) :
    let scan := ofOptions fs root options
    (∀ c entered, scan.Reaches c entered →
        c.stack.toList.Pairwise (fun lower upper => ¬ lower.destination.Under upper.destination) ∧
        (c.stack.toList.map Redirection.destination).Nodup ∧
        ∀ r ∈ c.stack.toList, ∃ node, fs.stat r.destination = .ok node ∧ node.isDirectory = true) ∧
      (root.isAbsolute = true ∨ fs.Physical →
        (∀ c entered, scan.Reaches c entered →
          (∀ r ∈ entered, ∃ l node, r.destination = .ofLocation l ∧ fs.node? l = some node ∧ node.isDirectory = true) ∧
          ∀ p, (entered.filter fun r => r.AppliesTo p).length ≤
            (fs.directoriesBetween (fs.canonical (options.localRoot.getD root)) (fs.canonical root)).length) ∧
        scan.trace.ending ≠ .unfinished ∧ scan.trace.records.length ≤ scan.stepBound ∧
        ∀ steps ≥ scan.stepBound, scan.run steps begin = scan.trace) := by
  intro scan
  refine ⟨fun c entered reached => ?_, fun physical => ?_⟩
  · obtain ⟨⟨p, stack⟩, chain, history⟩ := chain_of_reaches reached
    rw [stack]
    refine ⟨(chain p).imp fun surrounds => surrounds.apart, nodup_destinations (chain p), fun r held => ?_⟩
    exact (history r (List.mem_filter.1 held).1).directory
  have anchored : scan.Anchored := physical
  refine ⟨fun c entered reached => ?_, ending_ne_unfinished anchored, length_records_run .., fun steps enough => ?_⟩
  · obtain ⟨_, chain, history⟩ := chain_of_reaches reached
    refine ⟨fun r among => ?_, fun p => ?_⟩
    · obtain ⟨l, between, leads⟩ := (history r among).destination anchored
      obtain ⟨⟨node, found, directory⟩, _⟩ := FileSystem.mem_directoriesBetween_iff.1 between
      exact ⟨l, node, leads, found, directory⟩
    · exact length_entered_le anchored (chain p) fun r among => history r (List.mem_filter.1 among).1
  · exact run_of_ended (ending_ne_unfinished anchored) enough

end Scan

/-- Below the working directory `/w`, a link that leads to itself, and two that lead
    to each other's directories. -/
def FileSystem.tangledTree : FileSystem :=
  let node (path : String) (content : Content) : NodeSpec := ⟨.ofText path.toList, content, none, ⟨0, 0, 0⟩, []⟩
  .ofSpecs [node "/w/s/k" (.link "../l".toList), node "/w/l/self" (.link "self".toList),
    node "/w/l/on" (.link "../m".toList), node "/w/m/back" (.link "/w/l".toList), node "/w/m/f" (.regular [])]
    (.ofText "/w".toList)

namespace Scan

/-- From the relative path `s`, with links entered anywhere, the way goes twice through
    a link; no path can go through more than four. -/
theorem cycle_guard_tangledTree :
    let scan := ofOptions .tangledTree (.ofText "s".toList) ⟨some ⟨.slash, []⟩, false, fun _ _ => false⟩
    FileSystem.tangledTree.Physical ∧ scan.trace.ending ≠ .unfinished ∧
      (scan.trace.records.map fun r => (r.path.text, r.target)) = [("s".toList, []), ("s/k".toList, "/w/l".toList),
        ("s/k/self".toList, []), ("s/k/on".toList, "/w/m".toList), ("s/k/on/back".toList, "/w/l".toList),
        ("s/k/on/f".toList, "/w/m/f".toList)] ∧
      ∃ c entered, scan.Reaches c entered ∧ c.stack.toList.map Redirection.destination =
          [.ofText "/w/l".toList, .ofText "/w/m".toList] ∧
        ∀ p, (entered.filter fun r => r.AppliesTo p).length ≤ 4 := by
  have physical : FileSystem.tangledTree.Physical := by
    intro w working
    have known : FileSystem.tangledTree.workingLocation = .ok [⟨"w".toList, by decide⟩] := by decide +kernel
    rw [known] at working
    cases working
    decide
  obtain ⟨_, bounded⟩ := cycle_guard .tangledTree (.ofText "s".toList) ⟨some ⟨.slash, []⟩, false, fun _ _ => false⟩
  obtain ⟨few, ends, _⟩ := bounded (.inr physical)
  refine ⟨physical, ends, by decide +kernel, ?_⟩
  have four : (FileSystem.tangledTree.directoriesBetween (FileSystem.tangledTree.canonical ⟨.slash, []⟩)
      (FileSystem.tangledTree.canonical (.ofText "s".toList))).length = 4 := by decide +kernel
  have seen : (((ofOptions .tangledTree (.ofText "s".toList) ⟨some ⟨.slash, []⟩, false, fun _ _ => false⟩).after 5).any
      fun state => state.1.stack.toList.map Redirection.destination =
        [.ofText "/w/l".toList, .ofText "/w/m".toList]) = true := by decide +kernel
  obtain ⟨⟨c, entered⟩, goes, held⟩ := (Option.any_eq_true ..).1 seen
  refine ⟨c, entered, reaches_after goes, of_decide_eq_true held, fun p => ?_⟩
  exact four ▸ (few c entered (reaches_after goes)).2 p

end Scan
end Inventory
