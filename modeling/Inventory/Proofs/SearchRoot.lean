import Inventory.Proofs.Coverage
import Inventory.Proofs.Escapes
import Inventory.Proofs.Existence

namespace Inventory

namespace Node

theorem faults_withData (n : Node) (data : Text) : (n.withData data).faults = n.faults := by
  obtain ⟨content, size, times, faults⟩ := n
  cases content <;> rfl

theorem kind?_withData (n : Node) (data : Text) : (n.withData data).kind? = n.kind? := by
  obtain ⟨content, size, times, faults⟩ := n
  cases content <;> rfl

theorem kind?_of_linkTarget? {n : Node} {t : Text} (content : n.linkTarget? = some t) :
    n.kind? = some .symbolicLink := by
  simp [kind?, Node.linkTarget?_eq_some.1 content, Content.typeBits, EntryKind.ofMode]

/-- Only a regular file has data. -/
theorem withData_of_irregular {n : Node} (irregular : n.kind? ≠ some .regularFile) (data : Text) :
    n.withData data = n := by
  obtain ⟨content, size, times, faults⟩ := n
  cases content with
  | regular t => exact absurd (by simp [kind?, Content.typeBits, EntryKind.ofMode]) irregular
  | _ => rfl

end Node

namespace FileSystem

variable {fs opened : FileSystem} {p : Path} {l : Location}

/-- A path that leads to a node names one, which may be a link. -/
theorem exists_named_of_followed (absolute : p.isAbsolute = true) (followed : fs.locate true p = .ok l) :
    ∃ m node, fs.locate false p = .ok m ∧ fs.node? m = some node := by
  obtain ⟨_, reached, there, _⟩ := firm_of_locate_followed absolute followed
  obtain ⟨links, few, walk⟩ := (locate_followed_iff absolute).1 followed
  obtain ⟨root, parts⟩ := p
  rcases List.eq_nil_or_concat parts with rfl | ⟨above, last, rfl⟩
  · obtain ⟨node, there, _⟩ := fs.directory_root
    exact ⟨[], node, (locate_eq_ok_iff absolute).2 (resolve_nil _), there⟩
  · rw [List.concat_eq_append] at absolute walk ⊢
    let upper : Path := ⟨root, above⟩
    have rooted : upper.isAbsolute = true := absolute
    have steps : (⟨root, above ++ [last]⟩ : Path).steps = upper.steps ++ [Spelling.stepOfComponent last] := by
      simp [Path.steps, upper]
    rw [steps] at walk
    obtain ⟨first, middle, second, front, back, count⟩ := walk.split
    cases last with
    | up =>
      cases back with
      | up searched arrived =>
        cases arrived
        have whole := resolve_of_leads front false (linkLimit - first) [.up] (by simp)
        rw [Nat.sub_add_cancel (by omega), resolve_up, searched] at whole
        refine ⟨middle.dropLast, reached, (locate_eq_ok_iff absolute).2 ?_, there⟩
        rw [steps]
        exact whole.trans (resolve_nil _)
    | name n =>
      have upward := (locate_followed_iff rooted).2 ⟨first, by omega, front⟩
      cases back with
      | child searched found _ _ =>
        exact ⟨_, _, (locate_child_iff rooted).2 ⟨middle, upward, searched, ⟨_, found⟩, rfl⟩, found⟩
      | link searched found _ _ _ _ =>
        exact ⟨_, _, (locate_child_iff rooted).2 ⟨middle, upward, searched, ⟨_, found⟩, rfl⟩, found⟩

section Opened

variable (opens : fs.openForWriting p = .ok (opened, l))

include opens

theorem extends_opened : fs.Extends opened := by
  have stored := extends_stored opens []
  rwa [(holds_opened opens).store_eq_self] at stored

/-- Each node is still there, and of its kind. -/
theorem exists_node?_opened {k : Location} {n : Node} (found : fs.node? k = some n) :
    ∃ n', opened.node? k = some n' ∧ n'.kind? = n.kind? ∧ (n.kind? ≠ some .regularFile → n' = n) := by
  by_cases here : k = l
  · subst here
    refine ⟨n.withData [], (node?_opened_of_node? opens found).2, n.kind?_withData [],
      fun irregular => Node.withData_of_irregular irregular []⟩
  · exact ⟨n, by rw [node?_opened opens here, found], rfl, fun _ => rfl⟩

theorem faultless_opened (faultless : fs.Faultless) : opened.Faultless := by
  intro k n found
  by_cases here : k = l
  · subst here
    rcases openForWriting_cases opens with ⟨directory, m, finds, rfl, rfl⟩ | ⟨m, _, there, _, rfl⟩
    · obtain ⟨searched, missing⟩ := vacant_of_find finds
      rw [node?_create searched missing, if_pos rfl] at found
      cases found
      rfl
    · have before := (nodeFor_eq_ok_iff.1 there).1
      rw [node?_store, if_pos rfl, before] at found
      cases found
      rw [Node.faults_withData]
      exact faultless _ _ before
  · rw [node?_opened opens here] at found
    exact faultless _ _ found

/-- A path to a node that has no data still names the same node. -/
theorem lstat_opened (faultless : fs.Faultless) {q : Path} {n : Node} (asked : fs.lstat q = .ok n)
    (irregular : n.kind? ≠ some .regularFile) : opened.lstat q = .ok n := by
  obtain ⟨k, named, there⟩ := lstat_eq_ok_iff.1 asked
  obtain ⟨n', found, _, same⟩ := exists_node?_opened opens (nodeFor_eq_ok_iff.1 there).1
  obtain rfl := same irregular
  rw [lstat_of_locate ((extends_opened opens).locate named)]
  exact nodeFor_eq_ok_iff.2 ⟨found, (faultless_opened opens faultless).fault? found .lstat⟩

/-- A path that leads to a node still has its form. -/
theorem canonical_opened (faultless : fs.Faultless) {q : Path} (absolute : q.isAbsolute = true) {k : Location}
    (followed : fs.locate true q = .ok k) : opened.canonical q = fs.canonical q := by
  rw [canonical_of_locate faultless absolute followed,
    canonical_of_locate (faultless_opened opens faultless) absolute ((extends_opened opens).locate followed)]

end Opened

/-- Each node strictly below the search root that is of a kind that is reported has a record
    under the root, whose path names the node. -/
def Inventoried (fs : FileSystem) (root : Path) (records : List Record) : Prop :=
  ∀ l node kind, (Path.ofLocation l).Under (fs.canonical root) → Path.ofLocation l ≠ fs.canonical root →
    fs.node? l = some node → node.kind? = some kind →
    ∃ x ∈ records, x.path.Under root ∧ fs.locate false x.path = .ok l

end FileSystem

namespace Scan

variable {fs : FileSystem} {root : Path} {options : ScanOptions}

/-- A scan that starts from a directory reports all below it. -/
theorem inventoried_of_directory (absolute : root.isAbsolute = true) (faultless : fs.Faultless)
    (whole : options.excludes = fun _ _ => false) {top : Node} (asked : fs.lstat root = .ok top)
    (directory : top.isDirectory = true) : fs.Inventoried root (ofOptions fs root options).trace.records := by
  obtain ⟨r, canonical, plain⟩ := plain_ofOptions absolute faultless whole asked directory
  intro l node kind below _ found known
  rw [canonical] at below
  obtain ⟨names, rfl⟩ := Path.ofLocation_under_iff.1 below
  obtain ⟨x, one, path, _, _⟩ := plain.exists_record absolute found known
  obtain ⟨among, named⟩ := List.mem_filter.1 (one ▸ List.mem_singleton_self x)
  refine ⟨x, among, ?_, of_decide_eq_true named⟩
  rw [path]
  exact ⟨rfl, List.prefix_append _ _⟩

/-- A scan that starts from a link to a directory reports the link, and no more. -/
theorem records_of_link (absolute : root.isAbsolute = true) (faultless : fs.Faultless) {top : Node} {target : Location}
    (asked : fs.lstat root = .ok top) (link : top.kind? = some .symbolicLink)
    (leads : fs.locate true root = .ok target) :
    (ofOptions fs root options).trace.records =
      [⟨root, 1, (fs.canonical root).text, top.size, .symbolicLink, top.times.stamps⟩] := by
  let s := ofOptions fs root options
  have opens : s.rootFailure? = none := by
    simp only [rootFailure?, show s.walk.system.lstat s.walk.root = .ok top from asked, ← Node.kind?_eq, link]
  have admits : s.Admits (s.rootPlace absolute) top .symbolicLink := ⟨asked, link, Walk.not_omits_root⟩
  have seen : s.reported? (s.rootPlace absolute) = some (top, .symbolicLink) := by
    rw [reported?_of_admits admits, if_neg (by simp [Revisited, rootPlace])]
  have closed := entrance_rootPlace (s := s) absolute
  have told : s.inventory absolute = s.account (s.rootPlace absolute) := by
    unfold inventory
    simp only [opens]
  have alone : s.trace.records = [s.recordAt (s.rootPlace absolute) top .symbolicLink] := by
    rw [(tells_inventory (s := s) absolute).records, told, account]
    simp [sight, seen, closed, accountOnward, Account.records, Account.telling, Event.record?]
  obtain ⟨_, _, walk⟩ := (FileSystem.locate_followed_iff absolute).1 leads
  have present : fs.resolveLink root = ⟨some (fs.canonical root), true⟩ := by
    rw [FileSystem.canonical_of_locate faultless absolute leads]
    exact FileSystem.present_of_reads faultless absolute walk.reads
  rw [show (ofOptions fs root options).trace.records = _ from alone]
  simp [recordAt_eq, rootPlace, s, ofOptions, present, LinkResolution.existenceCode, LinkResolution.targetText]

end Scan

namespace Request

variable {fs : FileSystem} {r : Request}

/-- Nothing is excluded: there are neither patterns nor rules. -/
structure Whole (r : Request) : Prop where
  patterns : r.patterns = []
  rules : ∀ file ∈ r.ignoreFile, file = []

theorem Whole.rules_eq (whole : r.Whole) (fs : FileSystem) : r.rules fs = ([], .ok none) := by
  unfold Request.rules
  split
  · rfl
  · rfl
  · rename_i file given named
    exact absurd (whole.rules file named) given

theorem Whole.trace_eq (whole : r.Whole) (p : r.Prepared fs) :
    p.trace = (Scan.ofOptions p.system p.root ⟨some p.localRoot, r.sorted, fun _ _ => false⟩).trace := by
  have none : p.rules = none := by
    have read := p.read
    rw [whole.rules_eq] at read
    exact (Except.ok.inj read).symm
  simp [Prepared.trace, Request.trace, whole.patterns, none, Exclusion.ofParts?, Exclusion.predicate]

/-- The root that is scanned is the first that is given, and the system finds a directory there. -/
theorem Prepared.root_eq (p : r.Prepared fs) :
    ∃ first, r.searchRoots.head? = some first ∧ p.root = absoluteOf fs first ∧
      ∃ node, fs.stat p.root = .ok node ∧ node.isDirectory = true := by
  have checked := p.checked
  unfold roots at checked
  split at checked
  · cases checked
  · rename_i first others given
    split at checked
    · cases checked
    · obtain ⟨_, _, checked⟩ := bind_eq_ok checked
      obtain ⟨_, searched, checked⟩ := bind_eq_ok checked
      obtain ⟨_, _, checked⟩ := bind_eq_ok checked
      obtain ⟨is, same⟩ := existingDirectory_eq_ok_iff.1 (searchRoot_eq_ok_iff.1 searched).1
      have root : p.root = absoluteOf fs first := by
        cases checked
        exact same
      refine ⟨first, by simp [given], root, ?_⟩
      rw [root]
      exact FileSystem.isDirectory_eq_true_iff.1 is

end Request

namespace Run

variable {fs : FileSystem} {r : Request}

theorem exists_prepared_of_ok {now : Int} {n : Nat} (succeeds : (perform fs now r).outcome = .ok n) :
    ∃ p : r.Prepared fs, (perform fs now r).Leaves p (p.text now) (.ok n) ∧ n = p.trace.records.length := by
  rcases r.refuses_or_prepared fs with ⟨f, refuses⟩ | ⟨⟨p⟩⟩
  · cases (perform_of_refuses now refuses).2.2.symm.trans succeeds
  · obtain ⟨t, outcome, left, ends⟩ := exists_ends now p
    cases left.outcome.symm.trans succeeds
    cases ends with
    | complete _ _ _ => exact ⟨p, left, rfl⟩

/-- The root of a scan names a directory, or a link that leads to one. -/
theorem root_cases (faultless : fs.Faultless) (p : r.Prepared fs) :
    ∃ top target, fs.lstat p.root = .ok top ∧ fs.locate true p.root = .ok target ∧
      (top.isDirectory = true ∨ top.kind? = some .symbolicLink) := by
  obtain ⟨_, _, _, node, reaches, directory⟩ := p.root_eq
  have absolute := Request.isAbsolute_of_roots p.checked
  obtain ⟨target, followed, there⟩ := FileSystem.stat_eq_ok_iff.1 reaches
  obtain ⟨l, top, named, found⟩ := FileSystem.exists_named_of_followed absolute followed
  have asked : fs.lstat p.root = .ok top := by
    rw [FileSystem.lstat_of_locate named]
    exact FileSystem.nodeFor_eq_ok_iff.2 ⟨found, faultless.fault? found .lstat⟩
  refine ⟨top, target, asked, followed, ?_⟩
  cases content : top.linkTarget? with
  | none =>
    cases (FileSystem.locate_followed_of_plain absolute named found content).symm.trans followed
    cases found.symm.trans (FileSystem.nodeFor_eq_ok_iff.1 there).1
    exact .inl directory
  | some t => exact .inr (Node.kind?_of_linkTarget? content)

/-- What a run that succeeds reports of its search root, where no call is set to fail and
    nothing is excluded. -/
theorem search_root_reported (fs : FileSystem) (now : Int) {r : Request} (faultless : fs.Faultless) (whole : r.Whole)
    {n : Nat} (succeeds : (perform fs now r).outcome = .ok n) :
    ∃ (p : r.Prepared fs) (first : Text) (top : Node),
      r.searchRoots.head? = some first ∧ p.root = Request.absoluteOf fs first ∧ fs.lstat p.root = .ok top ∧
      (perform fs now r).Leaves p (p.text now) (.ok n) ∧ n = p.trace.records.length ∧
      (∀ l node, fs.node? l = some node → ∃ node', p.system.node? l = some node' ∧ node'.kind? = node.kind?) ∧
      p.system.canonical p.root = fs.canonical p.root ∧
      (top.isDirectory = true → p.system.Inventoried p.root p.trace.records) ∧
      (top.isDirectory = false → p.trace.records =
        [⟨p.root, 1, (fs.canonical p.root).text, top.size, .symbolicLink, top.times.stamps⟩]) := by
  obtain ⟨p, left, count⟩ := exists_prepared_of_ok succeeds
  obtain ⟨first, given, root, _⟩ := p.root_eq
  obtain ⟨top, target, asked, followed, known⟩ := root_cases faultless p
  have absolute := Request.isAbsolute_of_roots p.checked
  have faultless' := FileSystem.faultless_opened p.opens faultless
  have kept : ∀ l node, fs.node? l = some node → ∃ node', p.system.node? l = some node' ∧ node'.kind? = node.kind? := by
    intro l node found
    obtain ⟨node', found', kind, _⟩ := FileSystem.exists_node?_opened p.opens found
    exact ⟨node', found', kind⟩
  have canonical := FileSystem.canonical_opened p.opens faultless absolute followed
  have irregular : top.kind? ≠ some .regularFile := by
    rcases known with directory | link
    · simp [(Node.kind?_eq_directory top).2 directory]
    · simp [link]
  have asked' := FileSystem.lstat_opened p.opens faultless asked irregular
  refine ⟨p, first, top, given, root, asked, left, count, kept, canonical, fun directory => ?_, fun other => ?_⟩
  · rw [whole.trace_eq p]
    exact Scan.inventoried_of_directory absolute faultless' rfl asked' directory
  · have link : top.kind? = some .symbolicLink := known.resolve_left (by simp [other])
    rw [whole.trace_eq p, ← canonical]
    exact Scan.records_of_link absolute faultless' asked' link
      ((FileSystem.extends_opened p.opens).locate followed)

end Run

/-- A directory with a file, and a link to the directory. -/
def FileSystem.aliasTree : FileSystem :=
  let node (path : String) (content : Content) : NodeSpec := ⟨.ofText path.toList, content, none, ⟨0, 0, 0⟩, []⟩
  .ofSpecs [node "/real/f" (.regular []), node "/link" (.link "real".toList)] ⟨.slash, []⟩

namespace Run

def aliasRequest : Request :=
  ⟨"short".toList, some "/out".toList, some "/".toList, ["/link".toList], [], none, false, []⟩

/-- A file in the directory that a link leads to is not reported if the link is the search root. -/
theorem file_below_link_unreported :
    let run := perform .aliasTree 0 aliasRequest
    let lines := ["00", "/link", "/link;1;/real;4;symbolic link"]
    run.outcome = .ok 1 ∧ (run.delivered.map Prod.snd) = some (lines.flatMap fun line => line.toList ++ ['\n']) ∧
      run.system.canonical (.ofText "/link".toList) = .ofText "/real".toList ∧
      (run.system.lstat (.ofText "/real/f".toList)).toOption.bind Node.kind? = some .regularFile ∧
      run.system.locate false (.ofText "/link".toList) ≠ run.system.locate false (.ofText "/real/f".toList) := by
  decide +kernel

theorem search_root_reported_aliasTree :
    ∃ p : aliasRequest.Prepared .aliasTree, p.root = .ofText "/link".toList ∧
      p.trace.records = [⟨p.root, 1, "/real".toList, 4, .symbolicLink, Times.stamps ⟨0, 0, 0⟩⟩] := by
  have faultless : FileSystem.aliasTree.Faultless := fun _ _ found =>
    (by decide +kernel : ∀ e ∈ FileSystem.aliasTree.table, e.2.faults = []) _ (FileSystem.node?_eq_some_iff.1 found)
  have whole : aliasRequest.Whole := ⟨rfl, by simp [aliasRequest]⟩
  have succeeds : (perform .aliasTree 0 aliasRequest).outcome = .ok 1 := by decide +kernel
  obtain ⟨p, first, top, given, root, asked, _, _, _, _, _, link⟩ :=
    search_root_reported .aliasTree 0 faultless whole succeeds
  cases given
  have path : p.root = .ofText "/link".toList := by
    rw [root]
    decide +kernel
  have node : FileSystem.aliasTree.lstat (.ofText "/link".toList) =
      .ok ⟨.link "real".toList, 4, ⟨0, 0, 0⟩, []⟩ := by decide +kernel
  have canonical : FileSystem.aliasTree.canonical (.ofText "/link".toList) = .ofText "/real".toList := by decide +kernel
  rw [path, node] at asked
  cases asked
  refine ⟨p, path, ?_⟩
  rw [link rfl, path, canonical]
  decide

end Run
end Inventory
